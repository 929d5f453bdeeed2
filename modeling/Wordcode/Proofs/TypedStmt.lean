import Wordcode.Proofs.TypedExpr

/-!
# Shapes of statements

A statement leaves the stacks as it found them. Leaving frames takes off what they put on the two
stacks, from the innermost frame outwards; the final bodies on the way run with the shape outside
of their frame, and with the value that is to be returned on top.
-/

set_option autoImplicit false

namespace Wordcode

open Step (value branch simple)
open Build

variable {K : CodeObject → Prop} {F M : Nat} {Γ : Shapes} {σ τ σ' : Shape} {o : Options} {d : Draft} {n : Nat}

theorem types_leave {f : Frame} {keep : Bool} (h : f.Encloses K F M Γ σ τ)
    (hM : τ.depth + keep.toNat ≤ M) :
    Types K F M Γ (τ.up keep.toNat) (leaveSteps d keep f) (σ.up keep.toNat) := by
  cases h with
  | whileLoop | exceptionHandler => exact .nil
  | forLoop | popValue =>
    cases keep with
    | false =>
      have hM : σ.depth + 1 ≤ M := hM
      exact .cons (types_emit 1 0 rfl rfl (by omega)) .nil
    | true =>
      have hM : σ.depth + 2 ≤ M := hM
      exact .cons (types_emit (σ := σ) 2 2 rfl rfl hM)
        (.cons (types_emit (σ := σ) 2 1 rfl rfl (by omega)) .nil)
  | tryExcept | finallyTry => exact .cons (types_popBlock hM) .nil
  | finallyEnd =>
    have hM : σ.depth + 6 + keep.toNat ≤ M := hM
    have hdepth : σ.handling.depth = σ.depth + 3 := rfl
    cases keep with
    | false =>
      rw [Bool.toNat_false] at hM
      exact .cons (types_emit (σ := σ.handling) 3 2 rfl rfl (by omega))
        (.cons (types_emit 2 1 rfl rfl (by omega)) (.cons (types_emit 1 0 rfl rfl (by omega))
          (.cons (types_popExcept (Nat.zero_le _) (by omega)) .nil)))
    | true =>
      rw [Bool.toNat_true] at hM
      exact .cons (types_emit (σ := σ.handling) 4 4 rfl rfl (by omega))
        (.cons (types_emit 4 3 rfl rfl (by omega)) (.cons (types_emit 3 2 rfl rfl (by omega))
          (.cons (types_emit 2 1 rfl rfl (by omega)) (.cons (types_emit 1 1 rfl rfl (by omega))
            (.cons (types_popExcept (Nat.le_refl _) (by omega)) .nil)))))
  | handlerCleanup =>
    have hM : σ.depth + 3 + keep.toNat ≤ M := hM
    cases keep with
    | false => exact .cons (types_popExcept (Nat.zero_le _) (by omega)) .nil
    | true =>
      exact .cons (types_emit (σ := σ.handling) 1 1 rfl rfl hM)
        (.cons (types_popExcept (Nat.le_refl _) (by omega)) .nil)
  | @namedCleanup h x =>
    have hM : σ.depth + 3 + keep.toNat ≤ M := hM
    have hclear : Types K F M Γ (σ.up keep.toNat) (clearSteps d x) (σ.up keep.toNat) :=
      types_clear d x (by rw [Shape.depth_up]; omega)
    cases keep with
    | false =>
      exact .cons (types_popBlock (k := 0) hM)
        (.cons (types_popExcept (k := 0) (Nat.zero_le _) (by omega)) hclear)
    | true =>
      exact .cons (types_popBlock (k := 1) hM)
        (.cons (types_emit (σ := σ.handling) 1 1 rfl rfl hM)
          (.cons (types_popExcept (k := 1) (Nat.le_refl _) (by omega)) hclear))

/-- A return leaves all frames. -/
theorem Framed.unwind_all {frames : List Frame} (keep : Bool) (h : Framed K F M Γ frames σ)
    (hM : σ.depth + keep.toNat ≤ M) :
    Task.Types K F M Γ (.unwind keep false frames) (σ.up keep.toNat)
      (Shape.empty.up keep.toNat) := by
  induction h with
  | base => exact .unwound
  | enter hframes hf ih =>
    have := hf.depth_le
    exact .unwind rfl hf hframes hM (ih (by omega))

/-- `break` and `continue` leave the frames inside the innermost loop. -/
theorem Framed.unwind_loop {frames : List Frame} (h : Framed K F M Γ frames σ) (hM : σ.depth ≤ M) :
    ∃ υ, Task.Types K F M Γ (.unwind false true frames) σ υ ∧ υ.depth ≤ M ∧
      ∀ f, frames.find? Frame.isLoop = some f → ∃ τ, f.Encloses K F M Γ τ υ := by
  induction h with
  | base => exact ⟨.empty, .unwound, Nat.zero_le _, by simp⟩
  | @enter f frames σ τ hframes hf ih =>
    cases hloop : f.isLoop with
    | true =>
      refine ⟨τ, .unwindLoop hloop, hM, fun g hg => ⟨σ, ?_⟩⟩
      rw [List.find?_cons_of_pos hloop] at hg
      cases hg
      exact hf
    | false =>
      have hle := hf.depth_le
      obtain ⟨υ, hυ, hdepth, hfind⟩ := ih (by omega)
      have hfirst : Task.Types K F M Γ (.unwind false true (f :: _)) (τ.up 0) υ :=
        .unwind (by simp [hloop]) hf hframes hM hυ
      refine ⟨υ, hfirst, hdepth, fun g hg => ?_⟩
      rw [List.find?_cons_of_neg (by simp [hloop])] at hg
      exact hfind g hg

theorem expands_unwind {keep toLoop : Bool} {f : Frame} {frames : List Frame} {υ : Shape}
    (hloop : (toLoop && f.isLoop) = false) (hf : f.Encloses K F M Γ σ τ)
    (hframes : Framed K F M Γ frames σ) (hM : τ.depth + keep.toNat ≤ M)
    (hrest : Task.Types K F M Γ (.unwind keep toLoop frames) (σ.up keep.toNat) υ) :
    Types K F M Γ (τ.up keep.toNat) (Task.steps o d n (.unwind keep toLoop (f :: frames))) υ := by
  simp only [Task.steps, hloop, Bool.false_eq_true, if_false]
  refine .append (τ := σ.up keep.toNat) ?_ (.cons hrest .nil)
  have hleave := types_leave (d := d) hf hM
  cases hf with
  | finallyTry hbody hneed =>
    refine hleave.append (.cons (Task.Types.stmts ?_ hbody ?_) .nil)
    · cases keep
      · exact hframes
      · exact .enter hframes .popValue
    · rw [Shape.depth_up]
      have := Bool.toNat_le keep
      omega
  | _ => exact hleave.append .nil

theorem types_annotations {a : Arguments} {returns : Option Expr}
    (h : ∀ p ∈ a.annotated returns, p.2.Fits K .load)
    (hM : σ.depth + rowNeed (Expr.needs F ((a.annotated returns).map Prod.snd)) + 1 ≤ M) :
    Types K F M Γ σ (a.annotationSteps returns) (σ.up (!(a.annotated returns).isEmpty).toNat) := by
  have hrow := length_le_rowNeed (Expr.needs F ((a.annotated returns).map Prod.snd))
  rw [length_needs, List.length_map] at hrow
  unfold Arguments.annotationSteps
  refine .cons (types_all (fun e he => ?_) (by omega)) ?_
  · obtain ⟨p, hp, rfl⟩ := List.mem_map.mp he
    exact h p hp
  · rw [List.length_map]
    cases hempty : (a.annotated returns).isEmpty with
    | true =>
      rw [List.isEmpty_iff.mp hempty]
      exact .nil
    | false => exact types_constKeys _ _ (by omega)

/-- Decorators are called one after the other. -/
theorem types_decorators (k : Nat) (hM : σ.depth + k + 1 ≤ M) :
    Types K F M Γ (σ.up (k + 1)) (List.replicate k (.emit .callFunction 1)) (σ.up 1) := by
  induction k with
  | zero => exact .nil
  | succ k ih =>
    refine .cons (τ := σ.up (k + 1)) (types_emit _ _ rfl ?_ (by omega)) (ih (by omega))
    show Int32.ofNat (k + 1) = Int32.ofNat (k + 1 + 1) + -1
    simp only [word_add]
    grind

theorem fits_annotated {a : Arguments} {returns : Option Expr}
    (hparams : ∀ p ∈ a.all, ∀ e, p.annotation = some e → e.Fits K .load)
    (hreturns : ∀ e, returns = some e → e.Fits K .load) :
    ∀ p ∈ a.annotated returns, p.2.Fits K .load := by
  intro p hp
  obtain ⟨q, hq, hsome⟩ := List.mem_filterMap.mp hp
  obtain ⟨e, he, rfl⟩ := Option.map_eq_some_iff.mp hsome
  have hmem : q ∈ a.all ∨ ∃ e, returns = some e ∧ q = ⟨"return", some e⟩ := by
    simp only [List.mem_append, List.mem_map, Option.mem_toList] at hq
    simp only [Arguments.all, List.mem_append, Option.mem_toList]
    grind
  rcases hmem with hq | ⟨e', hret, rfl⟩
  · exact hparams q hq e he
  · cases he
    exact hreturns _ hret

theorem types_functionDef {frames : List Frame} {line : UInt32} {name : String} {args : Arguments}
    {body : List Stmt} {decorators : List Expr} {returns : Option Expr}
    (hdecorators : ∀ e ∈ decorators, e.Fits K .load) (hargs : args.Fits K)
    (hparams : ∀ p ∈ args.all, ∀ e, p.annotation = some e → e.Fits K .load)
    (hreturns : ∀ e, returns = some e → e.Fits K .load) (hbody : ∀ s ∈ body, s.Fits K)
    (hM : σ.depth + (Stmt.functionDef line name args body decorators returns).need F ≤ M) :
    Types K F M Γ σ
      (Stmt.steps o d frames n (.functionDef line name args body decorators returns)) σ := by
  rw [Stmt.need] at hM
  have hcount : args.parts.count ≤ 2 := by
    have h1 := Bool.toNat_le (!args.defaults.isEmpty)
    have h2 := Bool.toNat_le (!args.kwDefaultNames.isEmpty)
    simp only [Arguments.parts, FunctionParts.count, Bool.toNat_false]
    omega
  have hmore := Bool.toNat_le (!(args.annotated returns).isEmpty)
  have hdefaults : Types K F M Γ (σ.up decorators.length) args.defaultSteps _ :=
    types_defaults hargs (by rw [Shape.depth_up]; omega)
  have hannotations : Types K F M Γ ((σ.up decorators.length).up args.parts.count)
      (args.annotationSteps returns) _ :=
    types_annotations (fits_annotated hparams hreturns) (by simp only [Shape.depth_up]; omega)
  have hclosure : (Step.closure (.function body) name (definitionLine line decorators)
      { args.parts with annotations := !(args.annotated returns).isEmpty } none).Types K F M Γ
      (((σ.up decorators.length).up args.parts.count).up (!(args.annotated returns).isEmpty).toNat)
      ((σ.up decorators.length).up 1) := by
    refine ⟨⟨hbody, by omega⟩, σ.up decorators.length, ?_, rfl, ?_⟩
    · rw [Shape.up_up]
      rfl
    · simp only [FunctionParts.count, Arguments.parts, Shape.depth_up, Bool.toNat_false] at hcount ⊢
      omega
  have hcalls : Types K F M Γ ((σ.up decorators.length).up 1)
      (List.replicate decorators.length (.emit .callFunction 1)) (σ.up 1) := by
    rw [Shape.up_up]
    exact types_decorators _ (by omega)
  exact .cons (types_all hdecorators (by omega))
    ((((hdefaults.append hannotations).append (.cons hclosure .nil)).append hcalls).append
      (.cons (types_name_store d name (by omega)) .nil))

theorem types_classDef {frames : List Frame} {line : UInt32} {name : String} {bases : List Expr}
    {keywords : List Keyword} {body : List Stmt} {decorators : List Expr}
    (hdecorators : ∀ e ∈ decorators, e.Fits K .load) (hbases : ∀ e ∈ bases, e.Fits K .load)
    (hkeywords : ∀ k ∈ keywords, k.value.Fits K .load) (hbody : ∀ s ∈ body, s.Fits K)
    (hM : σ.depth + (Stmt.classDef line name bases keywords body decorators).need F ≤ M) :
    Types K F M Γ σ
      (Stmt.steps o d frames n (.classDef line name bases keywords body decorators)) σ := by
  rw [Stmt.need] at hM
  have hhead : Types K F M Γ σ [.run (.all decorators), simple .loadBuildClass,
      .closure (.classBody body) name (definitionLine line decorators) {} (some name),
      .load (.str name)] ((σ.up decorators.length).up 3) := by
    refine .cons (types_all hdecorators (by omega)) (.cons (τ := (σ.up decorators.length).up 1)
      (types_emit (σ := σ.up decorators.length) 0 1 rfl rfl ?_)
      (.cons ⟨⟨hbody, by omega⟩, (σ.up decorators.length).up 1, rfl, rfl, ?_⟩
        (.cons (types_load (σ := (σ.up decorators.length).up 2) rfl ?_) .nil)))
    · rw [Shape.depth_up]
      omega
    · show σ.depth + decorators.length + 1 + 0 + max F 3 ≤ M
      omega
    · show σ.depth + decorators.length + 2 + 1 ≤ M
      omega
  have hcall : Types K F M Γ ((σ.up decorators.length).up 3) (callSteps 2 bases keywords)
      ((σ.up decorators.length).up 1) :=
    types_call _ hbases hkeywords (by rw [Shape.depth_up]; omega) (by rw [Shape.depth_up]; omega)
  have hcalls : Types K F M Γ ((σ.up decorators.length).up 1)
      (List.replicate decorators.length (.emit .callFunction 1)) (σ.up 1) := by
    rw [Shape.up_up]
    exact types_decorators _ (by omega)
  exact ((hhead.append hcall).append hcalls).append (.cons (types_name_store d name (by omega)) .nil)

theorem types_importParts {parts : List String} (hM : σ.depth + 2 ≤ M) (hne : parts ≠ []) :
    Types K F M Γ (σ.up 1) (importPartSteps parts) (σ.up 2) := by
  have hfrom (part : String) : (Step.named .importFrom part).Types K F M Γ (σ.up 1) (σ.up 2) :=
    types_named 1 2 rfl (fun _ => rfl) hM
  induction parts with
  | nil => exact absurd rfl hne
  | cons part rest ih =>
    cases rest with
    | nil => exact .cons (hfrom part) .nil
    | cons part' rest =>
      exact .cons (hfrom part) (.cons (types_emit 2 2 rfl rfl hM)
        (.cons (types_emit 2 1 rfl rfl (by omega)) (ih (by simp))))

theorem types_bindImport {a : Alias} (hM : σ.depth + 2 ≤ M) :
    Types K F M Γ (σ.up 1) (bindImportSteps d a) σ := by
  unfold bindImportSteps
  split
  · exact .cons (types_name_store d _ (by omega)) .nil
  · exact .cons (types_name_store d _ (by omega)) .nil
  · next hne =>
    refine (types_importParts hM hne).append (.cons (types_name_store (σ := σ.up 1) d _ ?_)
      (.cons (types_emit 1 0 rfl rfl (by omega)) .nil))
    rw [Shape.depth_up]
    omega

theorem types_imports {names : List Alias} (hM : σ.depth + 2 ≤ M) :
    Types K F M Γ σ (importSteps d names) σ := by
  induction names with
  | nil => exact .nil
  | cons a rest ih =>
    refine .append ?_ ih
    have hone (_ : UInt32) : Int32.ofNat 1 = Int32.ofNat 2 + -1 := by decide
    exact .cons (types_load rfl (by omega))
      (.cons (types_load (σ := σ.up 1) rfl (by rw [Shape.depth_up]; omega))
        (.cons (types_named 2 1 rfl hone (by omega)) (types_bindImport hM)))

theorem types_importFrom {origin : Option String} {names : List Alias} {level : UInt32}
    (hM : σ.depth + 2 ≤ M) : Types K F M Γ σ (importFromSteps d origin names level) σ := by
  have hbind (names : List Alias) : Types K F M Γ (σ.up 1) (bindFromSteps d names) (σ.up 1) := by
    induction names with
    | nil => exact .nil
    | cons a rest ih =>
      refine .append ?_ ih
      exact .cons (types_named 1 2 rfl (fun _ => rfl) hM)
        (.cons (types_name_store (σ := σ.up 1) d _ (by rw [Shape.depth_up]; omega)) .nil)
  have hone (_ : UInt32) : Int32.ofNat 1 = Int32.ofNat 2 + -1 := by decide
  refine .append (τ := σ.up 1) (.cons (types_load rfl (by omega))
    (.cons (types_load (σ := σ.up 1) rfl (by rw [Shape.depth_up]; omega))
      (.cons (types_named 2 1 rfl hone (by omega)) .nil))) ?_
  split
  · exact .cons (types_emit 1 0 rfl rfl (by omega)) .nil
  · exact (hbind names).append (.cons (types_emit 1 0 rfl rfl (by omega)) .nil)

theorem types_stmts {frames : List Frame} {ss : List Stmt} (hframes : Framed K F M Γ frames σ)
    (h : ∀ s ∈ ss, s.Fits K) (hM : σ.depth + Stmt.needOfAll F ss ≤ M) :
    (Step.run (.stmts frames ss)).Types K F M Γ σ σ := Task.Types.stmts hframes h hM

theorem types_augmented {op : Operator} {target e : Expr} (htarget : target.Fits K .store)
    (he : e.Fits K .load) (hM : σ.depth + max (target.need F) (e.need F + 3) ≤ M) :
    Types K F M Γ σ (augmentedSteps d op e target) σ := by
  have hpos := he.need_pos (by decide) F
  have hop (a : Nat) (ha : σ.depth + a + 1 ≤ M) :
      (simple op.inplaceOpcode).Types K F M Γ (σ.up (a + 2)) (σ.up (a + 1)) := by
    rw [← Shape.up_up, ← Shape.up_up]
    refine types_emit 2 1 ?_ ?_ (by rw [Shape.depth_up]; omega)
    · cases op <;> rfl
    · cases op <;> rfl
  cases htarget with
  | «attribute» hobject =>
    simp only [Expr.need] at hM
    exact .cons (types_value hobject (by omega)) (.cons (types_emit 1 2 rfl rfl (by omega))
      (.cons (types_named 2 2 rfl (fun _ => rfl) (by omega))
        (.cons (types_value (σ := σ.up 2) he (by rw [Shape.depth_up]; omega))
          (.cons (hop 1 (by omega)) (.cons (types_emit 2 2 rfl rfl (by omega))
            (.cons (types_named 2 0 rfl
              (fun _ => (by decide : Int32.ofNat 0 = Int32.ofNat 2 + -2)) (by omega)) .nil))))))
  | subscript hobject hindex =>
    simp only [Expr.need] at hM
    exact .cons (types_value hobject (by omega))
      (.cons (types_value (σ := σ.up 1) hindex (by rw [Shape.depth_up]; omega))
        (.cons (types_emit (σ := σ) 2 4 rfl rfl (by omega))
          (.cons (types_emit 4 3 rfl rfl (by omega))
            (.cons (types_value (σ := σ.up 3) he (by rw [Shape.depth_up]; omega))
              (.cons (hop 2 (by omega)) (.cons (types_emit 3 3 rfl rfl (by omega))
                (.cons (types_emit 3 0 rfl rfl (by omega)) .nil)))))))
  | name =>
    exact .cons (types_name_load d _ (by omega))
      (.cons (types_value (σ := σ.up 1) he (by rw [Shape.depth_up]; omega))
        (.cons (hop 0 (by omega)) (.cons (types_name_store d _ (by omega)) .nil)))
  | list | tuple => exact .cons types_refuse .nil

theorem types_raiseStatement {exc cause : Option Expr} (hexc : ∀ e, exc = some e → e.Fits K .load)
    (hcause : ∀ e, cause = some e → e.Fits K .load)
    (hM : σ.depth + max (Expr.needOrNone F exc) (Expr.needOrNone F cause + 1) ≤ M) :
    Types K F M Γ σ (raiseSteps exc cause) σ' := by
  cases exc with
  | none => exact .cons (types_raise (n := 0) (by omega) (by omega)) .nil
  | some exc =>
    simp only [Expr.needOrNone] at hM
    cases cause with
    | none =>
      exact .cons (types_value (hexc exc rfl) (by omega))
        (.cons (types_raise (n := 1) (by omega) (by omega)) .nil)
    | some cause =>
      simp only [Expr.needOrNone] at hM
      exact .cons (types_value (hexc exc rfl) (by omega))
        (.cons (types_value (σ := σ.up 1) (hcause cause rfl) (by rw [Shape.depth_up]; omega))
          (.cons (types_raise (n := 2) (by omega) (by omega)) .nil))

theorem expands_assert {frames : List Frame} {line : UInt32} {test : Expr} {msg : Option Expr}
    (htest : test.Fits K .load) (hmsg : ∀ e, msg = some e → e.Fits K .load)
    (hM : σ.depth + max (test.need F) (Expr.needOrNone F msg + 1) ≤ M) :
    Expands K F M Γ n ((Stmt.assert line test msg).labelCount o) σ
      (Stmt.steps o d frames n (.assert line test msg)) σ := by
  simp only [Stmt.steps, Stmt.labelCount]
  split
  · exact .of_types .nil
  · refine ⟨[(n, σ)], keyed_one n _, ?_⟩
    have hhead : Types K F M ([(n, σ)] ++ Γ) σ [branch test n true, simple .loadAssertionError]
        (σ.up 1) :=
      .cons (types_branch_to true htest (by omega) (by simp))
        (.cons (types_emit 0 1 rfl rfl (by omega)) .nil)
    have htail : Types K F M ([(n, σ)] ++ Γ) (σ.up 1) [.emit .raiseVarargs 1, .label n] σ :=
      .cons (types_raise (n := 1) (by omega) (by omega)) (.cons (types_label (by simp)) .nil)
    cases msg with
    | none => exact hhead.append htail
    | some m =>
      simp only [Expr.needOrNone] at hM
      have hm := hmsg m rfl
      exact (hhead.append (.cons (types_value (σ := σ.up 1) hm (by rw [Shape.depth_up]; omega))
        (.cons (types_emit 2 1 rfl rfl (by omega)) .nil))).append htail

theorem expands_return {frames : List Frame} {line : UInt32} {e : Option Expr}
    (hframes : Framed K F M Γ frames σ) (he : ∀ a, e = some a → a.Fits K .load)
    (hM : σ.depth + Expr.needOrNone F e ≤ M) :
    Types K F M Γ σ (Stmt.steps o d frames n (.ret line e)) σ' := by
  have hplain : (Step.run (.unwind false false frames)).Types K F M Γ σ .empty :=
    hframes.unwind_all false (by simp; omega)
  cases e with
  | none =>
    rw [Expr.needOrNone] at hM
    exact .cons hplain (.cons (types_load (σ := .empty) rfl (by show 0 + 1 ≤ M; omega))
      (.cons types_return .nil))
  | some e =>
    rw [Expr.needOrNone] at hM
    have hfits := he e rfl
    have hpos := hfits.need_pos (by decide) F
    simp only [Stmt.steps]
    split
    · exact .cons hplain (.cons (types_value (σ := .empty) hfits (by show 0 + _ ≤ M; omega))
        (.cons types_return .nil))
    · exact .cons (types_value hfits hM)
        (.cons (hframes.unwind_all true (by rw [Bool.toNat_true]; omega))
          (.cons types_return .nil))

theorem expands_break {frames : List Frame} {line : UInt32} (hframes : Framed K F M Γ frames σ)
    (hM : σ.depth ≤ M) : Types K F M Γ σ (Stmt.steps o d frames n (.breakLoop line)) σ' := by
  obtain ⟨υ, hunwind, hdepth, hfind⟩ := hframes.unwind_loop hM
  refine .cons hunwind ?_
  split
  · next start exit h =>
    obtain ⟨τ, hτ⟩ := hfind _ h
    cases hτ with
    | whileLoop _ hexit => exact .cons (types_goto (.inr rfl) hexit hdepth) .nil
  · next start exit h =>
    obtain ⟨τ, hτ⟩ := hfind _ h
    cases hτ with
    | forLoop _ hexit =>
      have hdepth : τ.depth + 1 ≤ M := hdepth
      exact .cons (types_emit 1 0 rfl rfl (by omega))
        (.cons (types_goto (.inr rfl) hexit (by rw [Shape.depth_up]; omega)) .nil)
  · exact .cons types_refuse .nil

theorem expands_continue {frames : List Frame} {line : UInt32} (hframes : Framed K F M Γ frames σ)
    (hM : σ.depth ≤ M) : Types K F M Γ σ (Stmt.steps o d frames n (.continueLoop line)) σ' := by
  obtain ⟨υ, hunwind, hdepth, hfind⟩ := hframes.unwind_loop hM
  refine .cons hunwind ?_
  split
  · next start exit h =>
    obtain ⟨τ, hτ⟩ := hfind _ h
    cases hτ with
    | whileLoop hstart _ => exact .cons (types_goto (.inr rfl) hstart hdepth) .nil
  · next start exit h =>
    obtain ⟨τ, hτ⟩ := hfind _ h
    cases hτ with
    | forLoop hstart _ => exact .cons (types_goto (.inr rfl) hstart hdepth) .nil
  · exact .cons types_refuse .nil

theorem expands_for {frames : List Frame} {line : UInt32} {target iter : Expr}
    {body orelse : List Stmt} (hframes : Framed K F M Γ frames σ) (htarget : target.Fits K .store)
    (hiter : iter.Fits K .load) (hbody : ∀ s ∈ body, s.Fits K) (horelse : ∀ s ∈ orelse, s.Fits K)
    (hM : σ.depth + (Stmt.forLoop line target iter body orelse).need F ≤ M) :
    Expands K F M Γ n 3 σ (Stmt.steps o d frames n (.forLoop line target iter body orelse)) σ := by
  rw [Stmt.need] at hM
  have hpos := htarget.need_pos (by decide) F
  have hsub := List.subset_append_right [(n, σ.up 1), (n + 1, σ), (n + 2, σ)] Γ
  refine ⟨[(n, σ.up 1), (n + 1, σ), (n + 2, σ)], keyed_three n _ _ _, ?_⟩
  refine .cons (types_value hiter (by omega)) (.cons (types_emit 1 1 rfl rfl (by omega))
    (.cons (types_label (by simp)) (.cons (types_branch 1 0 2 rfl (by simp) rfl rfl ?_)
      (.cons (Task.Types.store (σ := σ.up 1) htarget (by rw [Shape.depth_up]; omega))
        (.cons (types_stmts (.enter (hframes.mono hsub) (.forLoop (by simp) (by simp))) hbody
          (by rw [Shape.depth_up]; omega))
          (.cons (types_goto (.inr rfl) (by simp) (by rw [Shape.depth_up]; omega))
            (.cons (types_label (σ := σ) (by simp))
              (.cons (types_stmts (hframes.mono hsub) horelse (by omega))
                (.cons (types_label (by simp)) .nil)))))))))
  show σ.depth + 2 ≤ M
  omega

theorem expands_while {frames : List Frame} {line : UInt32} {test : Expr}
    {body orelse : List Stmt} (hframes : Framed K F M Γ frames σ) (htest : test.Fits K .load)
    (hbody : ∀ s ∈ body, s.Fits K) (horelse : ∀ s ∈ orelse, s.Fits K)
    (hM : σ.depth + (Stmt.whileLoop line test body orelse).need F ≤ M) :
    Expands K F M Γ n 3 σ (Stmt.steps o d frames n (.whileLoop line test body orelse)) σ := by
  rw [Stmt.need] at hM
  have hsub := List.subset_append_right [(n, σ), (n + 1, σ), (n + 2, σ)] Γ
  exact ⟨[(n, σ), (n + 1, σ), (n + 2, σ)], keyed_three n _ _ _,
    .cons (types_label (by simp)) (.cons (types_branch_to false htest (by omega) (by simp))
      (.cons (types_stmts (.enter (hframes.mono hsub) (.whileLoop (by simp) (by simp))) hbody
        (by omega)) (.cons (types_goto (.inr rfl) (by simp) (by omega))
          (.cons (types_label (σ := σ) (by simp))
            (.cons (types_stmts (hframes.mono hsub) horelse (by omega))
              (.cons (types_label (by simp)) .nil))))))⟩

theorem expands_if {frames : List Frame} {line : UInt32} {test : Expr}
    {body orelse : List Stmt} (hframes : Framed K F M Γ frames σ) (htest : test.Fits K .load)
    (hbody : ∀ s ∈ body, s.Fits K) (horelse : ∀ s ∈ orelse, s.Fits K)
    (hM : σ.depth + (Stmt.ifElse line test body orelse).need F ≤ M) :
    Expands K F M Γ n ((Stmt.ifElse line test body orelse).labelCount o) σ
      (Stmt.steps o d frames n (.ifElse line test body orelse)) σ := by
  rw [Stmt.need] at hM
  cases orelse with
  | nil =>
    have hsub := List.subset_append_right [(n, σ)] Γ
    exact ⟨[(n, σ)], keyed_one n _, .cons (types_branch_to false htest (by omega) (by simp))
      (.cons (types_stmts (hframes.mono hsub) hbody (by omega)) (.cons (types_label (by simp)) .nil))⟩
  | cons s ss =>
    have hsub := List.subset_append_right [(n, σ), (n + 1, σ)] Γ
    exact ⟨[(n, σ), (n + 1, σ)], keyed_two n _ _,
      .cons (types_branch_to false htest (by omega) (by simp))
        (.cons (types_stmts (hframes.mono hsub) hbody (by omega))
          (.cons (types_goto (.inl rfl) (by simp) (by omega)) (.cons (types_label (σ := σ) (by simp))
            (.cons (types_stmts (hframes.mono hsub) horelse (by omega))
              (.cons (types_label (by simp)) .nil)))))⟩

theorem expands_finally {frames : List Frame} {line : UInt32} {body orelse finalbody : List Stmt}
    {handlers : List Handler} (hframes : Framed K F M Γ frames σ) (hbody : ∀ s ∈ body, s.Fits K)
    (htypes : ∀ h ∈ handlers, ∀ e, h.type = some e → e.Fits K .load)
    (hhandlers : ∀ h ∈ handlers, ∀ s ∈ h.body, s.Fits K) (horelse : ∀ s ∈ orelse, s.Fits K)
    (hfinal : ∀ s ∈ finalbody, s.Fits K)
    (hM : σ.depth + (Stmt.tryExcept line body handlers orelse finalbody).need F ≤ M) :
    Expands K F M Γ n ((Stmt.tryExcept line body handlers orelse finalbody).labelCount o) σ
      (Stmt.steps o d frames n (.tryExcept line body handlers orelse finalbody)) σ := by
  rw [Stmt.need] at hM
  cases finalbody with
  | nil =>
    exact .of_types (.cons (Task.Types.tryExcept hframes hbody htypes hhandlers horelse (by omega)
      (by omega) (by omega) (by omega)) .nil)
  | cons s ss =>
    have hsub := List.subset_append_right
      [(n, σ.guarded (n + 1)), (n + 1, σ.caught), (n + 2, σ)] Γ
    have hinner : Framed K F M ([(n, σ.guarded (n + 1)), (n + 1, σ.caught), (n + 2, σ)] ++ Γ)
        (.finallyTry (s :: ss) :: frames) (σ.guarded (n + 1)) :=
      .enter (hframes.mono hsub) (.finallyTry hfinal (by omega))
    have hdepth : (σ.guarded (n + 1)).depth = σ.depth := rfl
    have hcaught : σ.caught.depth = σ.depth + 6 := rfl
    refine ⟨[(n, σ.guarded (n + 1)), (n + 1, σ.caught), (n + 2, σ)], keyed_three n _ _ _, ?_⟩
    refine .cons (types_setup (by simp) (by omega)) (.cons (types_label (by simp))
      (.cons (τ := σ.guarded (n + 1)) ?_ (.cons (types_popBlock (σ := σ) (k := 0) (by omega))
        (.cons (types_stmts (hframes.mono hsub) hfinal (by rw [Shape.up_zero]; omega))
          (.cons (types_goto (.inl rfl) (by simp) (by rw [Shape.up_zero]; omega))
            (.cons (types_label (σ := σ.caught) (by simp))
            (.cons (types_stmts (.enter (hframes.mono hsub) .finallyEnd) hfinal (by omega))
              (.cons (types_reraise (σ := σ.handling) (by show σ.depth + 3 ≤ M; omega))
                (.cons (types_label (by simp)) .nil)))))))))
    split
    · exact types_stmts hinner hbody (by omega)
    · exact Task.Types.tryExcept hinner hbody htypes hhandlers horelse (by omega) (by omega)
        (by omega) (by omega)

theorem expands_tryExcept {frames : List Frame} {body orelse : List Stmt}
    {handlers : List Handler} (hframes : Framed K F M Γ frames σ) (hbody : ∀ s ∈ body, s.Fits K)
    (htypes : ∀ h ∈ handlers, ∀ e, h.type = some e → e.Fits K .load)
    (hhandlers : ∀ h ∈ handlers, ∀ s ∈ h.body, s.Fits K) (horelse : ∀ s ∈ orelse, s.Fits K)
    (h6 : σ.depth + 6 ≤ M) (h1 : σ.depth + Stmt.needOfAll F body ≤ M)
    (h2 : σ.depth + Handler.needOfAll F handlers ≤ M)
    (h3 : σ.depth + Stmt.needOfAll F orelse ≤ M) :
    Expands K F M Γ n 4 σ (Task.steps o d n (.tryExcept frames body handlers orelse)) σ := by
  have hsub := List.subset_append_right
    [(n, σ.guarded (n + 1)), (n + 1, σ.caught), (n + 2, σ), (n + 3, σ)] Γ
  exact ⟨[(n, σ.guarded (n + 1)), (n + 1, σ.caught), (n + 2, σ), (n + 3, σ)], keyed_four n _ _ _ _,
    .cons (types_setup (by simp) h6) (.cons (types_label (by simp))
      (.cons (types_stmts (.enter (hframes.mono hsub) .tryExcept) hbody h1)
        (.cons (types_popBlock (σ := σ) (k := 0) (by omega))
          (.cons (types_goto (.inl rfl) (by simp) (by rw [Shape.up_zero]; omega))
            (.cons (types_label (σ := σ.caught) (by simp))
              (.cons (Task.Types.handlers (hframes.mono hsub) htypes hhandlers h6 h2 (by simp))
                (.cons (types_reraise (σ := σ.handling) (by show σ.depth + 3 ≤ M; omega))
                  (.cons (types_label (σ := σ) (by simp))
                    (.cons (types_stmts (hframes.mono hsub) horelse h3)
                      (.cons (types_label (by simp)) .nil))))))))))⟩

theorem expands_handlers {frames : List Frame} {done : BlockId} {handlers : List Handler}
    (hframes : Framed K F M Γ frames σ)
    (htypes : ∀ h ∈ handlers, ∀ e, h.type = some e → e.Fits K .load)
    (hhandlers : ∀ h ∈ handlers, ∀ s ∈ h.body, s.Fits K) (h6 : σ.depth + 6 ≤ M)
    (hM : σ.depth + Handler.needOfAll F handlers ≤ M) (hdone : (done, σ) ∈ Γ) :
    Expands K F M Γ n (Task.labelCount o (.handlers (.exceptionHandler :: frames) done handlers))
      σ.caught (Task.steps o d n (.handlers (.exceptionHandler :: frames) done handlers))
      σ.caught := by
  match handlers with
  | [] => exact .of_types .nil
  | ⟨type, name, body, line⟩ :: rest =>
    rw [Handler.needOfAll] at hM
    have hdepth : σ.handling.depth = σ.depth + 3 := rfl
    have hsub := List.subset_append_right [(n, σ.caught)] Γ
    refine ⟨[(n, σ.caught)], keyed_one n _, .append (τ := σ.caught) ?_
      (.cons (types_emit (σ := σ.handling) 3 2 rfl rfl (by omega))
        (.cons (Task.Types.handler (τ := σ.caught) (hframes.mono hsub)
          (hhandlers _ List.mem_cons_self) (by omega) (by omega) (hsub hdone))
          (.cons (types_label (by simp)) (.cons (Task.Types.handlers (hframes.mono hsub)
            (fun h hh => htypes h (List.mem_cons_of_mem _ hh))
            (fun h hh => hhandlers h (List.mem_cons_of_mem _ hh)) h6 (by omega) (hsub hdone))
            .nil))))⟩
    cases type with
    | none => exact .nil
    | some t =>
      rw [Expr.needOrNone] at hM
      have ht : t.Fits K .load := htypes _ List.mem_cons_self t rfl
      have hpos := ht.need_pos (by decide) F
      refine .cons (types_emit (σ := σ.handling) 3 4 rfl rfl (by omega))
        (.cons (types_value (σ := σ.handling.up 4) ht (by rw [Shape.depth_up]; omega))
          (.cons (types_branch (σ := σ.handling) 5 3 3 rfl List.mem_cons_self rfl rfl ?_) .nil))
      show σ.depth + 3 + 3 ≤ M
      omega

theorem expands_handler {frames : List Frame} {done : BlockId} {name : Option String}
    {body : List Stmt} (hframes : Framed K F M Γ frames σ) (hbody : ∀ s ∈ body, s.Fits K)
    (hM : σ.depth + (if name.isSome then 10 else 6) ≤ M)
    (hneed : σ.depth + 3 + Stmt.needOfAll F body ≤ M) (hdone : (done, σ) ∈ Γ) :
    Expands K F M Γ n (Task.labelCount o (.handler (.exceptionHandler :: frames) done name body))
      (σ.handling.up 2)
      (Task.steps o d n (.handler (.exceptionHandler :: frames) done name body)) σ' := by
  have hdepth : σ.handling.depth = σ.depth + 3 := rfl
  cases name with
  | none =>
    have hM : σ.depth + 6 ≤ M := hM
    have hsub := List.subset_append_right [(n, σ.handling)] Γ
    exact ⟨[(n, σ.handling)], keyed_one n _,
      .cons (types_emit 2 1 rfl rfl (by omega)) (.cons (types_emit 1 0 rfl rfl (by omega))
        (.cons (types_label (σ := σ.handling) (by simp)) (.cons (types_stmts
          (.enter (.enter (hframes.mono hsub) .exceptionHandler) .handlerCleanup) hbody (by omega))
          (.cons (types_popExcept (k := 0) (by omega) (by omega))
            (.cons (types_goto (.inl rfl) (hsub hdone) (by rw [Shape.up_zero]; omega)) .nil)))))⟩
  | some x =>
    have hM : σ.depth + 10 ≤ M := hM
    have hsub := List.subset_append_right [(n, σ.handling.caught), (n + 1, σ.handling.guarded n)] Γ
    have hhead : Types K F M ([(n, σ.handling.caught), (n + 1, σ.handling.guarded n)] ++ Γ)
        (σ.handling.up 2) [Step.name d x .store, simple .popTop, .jump .setupFinally n,
          .label (n + 1), .run (.stmts (.handlerCleanup (some x) :: .exceptionHandler :: frames) body),
          simple .popBlock, simple .popExcept] σ :=
      .cons (types_name_store (σ := σ.handling.up 1) d x (by rw [Shape.depth_up]; omega))
        (.cons (types_emit (σ := σ.handling) 1 0 rfl rfl (by omega))
          (.cons (types_setup (σ := σ.handling) (by simp) (by omega))
            (.cons (types_label (by simp)) (.cons (types_stmts (.enter (.enter (hframes.mono hsub)
              .exceptionHandler) .namedCleanup) hbody (by show σ.depth + 3 + _ ≤ M; omega))
              (.cons (types_popBlock (σ := σ.handling) (k := 0) (by omega))
                (.cons (types_popExcept (k := 0) (by omega) (by omega)) .nil))))))
    have hjump : Types K F M ([(n, σ.handling.caught), (n + 1, σ.handling.guarded n)] ++ Γ) σ
        [.jump .jumpForward done, .label n] σ.handling.caught :=
      .cons (types_goto (.inl rfl) (hsub hdone) (by omega)) (.cons (types_label (by simp)) .nil)
    have hlast : Types K F M ([(n, σ.handling.caught), (n + 1, σ.handling.guarded n)] ++ Γ)
        σ.handling.caught (clearSteps d x ++ [simple .reraise]) σ' := by
      have hcaught : σ.handling.caught.depth = σ.depth + 9 := rfl
      refine (types_clear d x (by omega)).append
        (.cons (types_reraise (σ := σ.handling.handling) ?_) .nil)
      show σ.depth + 3 + 3 ≤ M
      omega
    refine ⟨[(n, σ.handling.caught), (n + 1, σ.handling.guarded n)], keyed_two n _ _, ?_⟩
    have hall := ((hhead.append (types_clear d x (by omega))).append hjump).append hlast
    rw [← List.append_assoc] at hall
    exact hall

/-- A statement. -/
theorem expands_stmt {frames : List Frame} {s : Stmt} (hframes : Framed K F M Γ frames σ)
    (h : s.Fits K) (hM : σ.depth + s.need F ≤ M) :
    Expands K F M Γ n (s.labelCount o) σ (s.steps o d frames n) σ := by
  cases h with
  | functionDef hdec hargs hparams hreturns hbody =>
    exact .of_types (types_functionDef hdec hargs hparams hreturns hbody hM)
  | classDef hdec hbases hkeywords hbody =>
    exact .of_types (types_classDef hdec hbases hkeywords hbody hM)
  | ret he => exact .of_types (expands_return hframes he hM)
  | delete ht => exact .of_types (.cons (Task.Types.dels ht hM) .nil)
  | assign hne ht hv =>
    rw [Stmt.need] at hM
    exact .of_types (.cons (types_value hv (by omega))
      (.cons (Task.Types.storeAll hne ht (by omega)) .nil))
  | augAssign ht hv => exact .of_types (types_augmented ht hv hM)
  | raise hexc hcause => exact .of_types (types_raiseStatement hexc hcause hM)
  | assert ht hmsg => exact expands_assert ht hmsg hM
  | importNames => exact .of_types (types_imports hM)
  | importFrom => exact .of_types (types_importFrom hM)
  | «global» | «nonlocal» | pass => exact .of_types .nil
  | expr he =>
    rw [Stmt.need_expr] at hM
    have hpos := he.need_pos (by decide) F
    simp only [Stmt.steps]
    split
    · exact .of_types (.cons (types_emit 0 0 rfl rfl (by omega)) .nil)
    · exact .of_types (.cons (types_value he hM) (.cons (types_emit 1 0 rfl rfl (by omega)) .nil))
  | breakLoop => exact .of_types (expands_break hframes hM)
  | continueLoop => exact .of_types (expands_continue hframes hM)
  | forLoop ht hi hb he => exact expands_for hframes ht hi hb he hM
  | whileLoop ht hb he => exact expands_while hframes ht hb he hM
  | ifElse ht hb he => exact expands_if hframes ht hb he hM
  | tryExcept hb ht hh he hf => exact expands_finally hframes hb ht hh he hf hM

/-- Every rule holds of the scheme it is about. -/
theorem Task.Types.expands {t : Task} (h : t.Types K F M Γ σ σ') (o : Options) (d : Draft) (n : Nat) :
    Expands K F M Γ n (t.labelCount o) σ (t.steps o d n) σ' := by
  cases h with
  | load h hM => exact expands_read .push d n h hM trivial
  | branch h hM hb => exact expands_read (.jump _ _) d n h hM hb
  | store h hM => exact expands_target d n _ h (by decide) hM
  | del h hM => exact expands_target d n _ h (by decide) hM
  | loads h hM => exact .of_types (expands_loads h hM)
  | stores h hM => exact .of_types (expands_stores h hM)
  | dels h hM => exact .of_types (expands_dels h hM)
  | operands hj h hM hb => exact .of_types (expands_operands hj h hM hb)
  | tests h hM hb hb' => exact .of_types (expands_tests h hM hb hb')
  | links hj hlen h hM hb => exact .of_types (expands_links hj hlen h hM hb)
  | chain hlen h hM => exact expands_chain hlen h hM
  | chainPush hM hb => exact expands_chainPush hM hb
  | chainJump hM hb hb' => exact expands_chainJump hM hb hb'
  | filters h hM hb => exact .of_types (expands_filters h hM hb)
  | loop hi ht hf he hgt hgi hgf h1 h2 h3 h4 => exact expands_loop hi ht hf he hgt hgi hgf h1 h2 h3 h4
  | inner he hgt hgi hgf hM => exact .of_types (expands_inner he hgt hgi hgf hM)
  | map h hM => exact .of_types (expands_map h hM)
  | extendMap h hk hM => exact .of_types (expands_extendMap h hk hM)
  | block => exact ⟨[(n, σ)], keyed_one n _, .cons (types_label List.mem_cons_self) .nil⟩
  | storeAll hne h hM => exact .of_types (expands_storeAll hne h hM)
  | stmt hf h hM => exact expands_stmt hf h hM
  | @stmts _ ss _ hf h hM =>
    cases ss with
    | nil => exact .of_types .nil
    | cons s ss =>
      rw [Stmt.needOfAll] at hM
      exact .of_types (.cons (Task.Types.stmt hf (h s List.mem_cons_self) (by omega))
        (.cons (types_stmts hf (fun s' hs' => h s' (List.mem_cons_of_mem _ hs')) (by omega)) .nil))
  | tryExcept hf hb ht hh ho h6 h1 h2 h3 => exact expands_tryExcept hf hb ht hh ho h6 h1 h2 h3
  | handlers hf ht hh h6 hM hb => exact expands_handlers hf ht hh h6 hM hb
  | handler hf hbody h10 hM hb => exact expands_handler hf hbody h10 hM hb
  | unwound => exact .of_types .nil
  | unwindLoop hf =>
    simp only [Task.steps, hf, Bool.and_self, if_true]
    exact .of_types .nil
  | unwind hloop henc hf hM hrest => exact .of_types (expands_unwind hloop henc hf hM hrest)

end Wordcode
