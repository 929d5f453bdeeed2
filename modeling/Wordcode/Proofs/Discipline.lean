import Mathlib.Algebra.Group.Nat.Defs
import Wordcode.Proofs.Labels
import Wordcode.Proofs.LowerStmt
import Wordcode.Proofs.TypedStmt

/-!
# Shapes of compiled code

Everything that a program in context is compiled to has shapes: what is written for steps that can
be typed, the return that closes a scope, and so the code object of each scope, however deep it is
nested.
-/

set_option autoImplicit false

namespace Wordcode

open Step (value simple)
open Build

variable {K : CodeObject → Prop} {F M : Nat} {Γ : Shapes} {σ σ' : Shape} {o : Options} {d : Draft}

/-- The shape in which a scope comes to its end: what is to be returned is there, unless that is
`None`. -/
def Shape.closing (addNone : Bool) : Shape := if addNone then .empty else Shape.empty.up 1

theorem needOfAll_withoutDocstring_le (body : List Stmt) :
    Stmt.needOfAll F (withoutDocstring o body) ≤ Stmt.needOfAll F body := by
  unfold withoutDocstring
  split
  · cases body with
    | nil => exact Nat.le_refl _
    | cons s ss => exact Nat.le_max_right _ _
  · exact Nat.le_refl _

theorem types_bodyStmts {body : List Stmt} (h : ∀ s ∈ body, s.Fits K)
    (hM : Stmt.needOfAll F body ≤ M) :
    (Step.run (.stmts [] (withoutDocstring o body))).Types K F M Γ .empty .empty := by
  refine types_stmts .base (fun s hs => h s (mem_of_mem_withoutDocstring hs)) ?_
  have := needOfAll_withoutDocstring_le (F := F) (o := o) body
  show 0 + _ ≤ M
  omega

theorem types_docSteps (body : List Stmt) (hM : σ.depth + 1 ≤ M) :
    Types K F M Γ σ (docSteps o d body) σ := by
  unfold docSteps
  split
  · exact .nil
  · exact .cons (types_load rfl hM) (.cons (types_name_store d _ (by omega)) .nil)

/-- The steps of a nested scope start with empty stacks and end as the scope is closed. -/
theorem types_body {body : Body} (h : body.Fits K F M) :
    1 ≤ M ∧ Types K F M Γ .empty (body.steps o d) (.closing (body.addNone d)) := by
  have hzero : Shape.empty.depth = 0 := rfl
  cases body with
  | lambda e =>
    obtain ⟨he, hM⟩ := h
    have hpos := he.need_pos (by decide) F
    refine ⟨by omega, .append (τ := Shape.empty.up 1)
      (.cons (types_intern rfl) (.cons (types_value he (by omega)) .nil)) ?_⟩
    simp only [Body.addNone]
    cases d.isGenerator with
    | true => exact .nil
    | false => exact .cons types_return .nil
  | comprehension target filters rest element =>
    obtain ⟨ht, hf, he, hgt, hgi, hgf, h2, hM1, hM2, hM3⟩ := h
    have hlist : (Step.emit .buildList 0).Types K F M Γ .empty (Shape.empty.up 1) :=
      types_emit (σ := .empty) 0 1 rfl (by decide) (by omega)
    have hloop : (Step.run (.loop none target filters rest element 1)).Types K F M Γ
        (Shape.empty.up 1) (Shape.empty.up 1) :=
      Task.Types.loop (fun e he => by cases he) ht hf he hgt hgi hgf (by exact h2) hM1 hM2 hM3
    exact ⟨by omega, .cons hlist (.cons hloop (.cons types_return .nil))⟩
  | function body =>
    obtain ⟨hbody, hM⟩ := h
    exact ⟨by omega, .cons (types_intern (by cases keptDocstring? o body <;> rfl))
      (.cons (types_bodyStmts hbody (by omega)) .nil)⟩
  | classBody body =>
    obtain ⟨hbody, hM⟩ := h
    have hmodule : Types K F M Γ .empty
        [Step.name d "__name__" .load, Step.name d "__module__" .store] .empty :=
      .cons (types_name_load d _ (by omega)) (.cons (types_name_store d _ (by omega)) .nil)
    have hqual : Types K F M Γ .empty
        [.load (.str d.qualname), Step.name d "__qualname__" .store] .empty :=
      .cons (types_load rfl (by omega)) (.cons (types_name_store d _ (by omega)) .nil)
    have hcell : Types K F M Γ .empty (if d.needsClassCell then
        [.named .loadClosure Draft.classCell, simple .dupTop, Step.name d "__classcell__" .store]
        else [.load .none]) (Shape.empty.up 1) := by
      split
      · exact .cons (types_named (σ := .empty) 0 1 rfl (fun _ => rfl) (by omega))
          (.cons (types_emit (σ := .empty) 1 2 rfl (by decide) (by omega))
            (.cons (types_name_store (σ := Shape.empty.up 1) d _ (by show 0 + 1 ≤ M; omega))
              .nil))
      · exact .cons (types_load rfl (by omega)) .nil
    have hdoc : Types K F M Γ .empty (docSteps o d body) .empty := types_docSteps body (by omega)
    have hstmts : (Step.run (.stmts [] (withoutDocstring o body))).Types K F M Γ .empty .empty :=
      types_bodyStmts hbody (by omega)
    exact ⟨by omega, (((hmodule.append hqual).append hdoc).append (.cons hstmts hcell)).append
      (.cons types_return .nil)⟩

/-- So do the steps of a program. -/
theorem types_program {p : Program} (h : p.Fits K) (hp : ∀ body, p ≠ .interactive body) :
    1 ≤ p.need F ∧
      Types K F (p.need F) Γ .empty (p.steps o d) (.closing p.addNone) := by
  have hzero : Shape.empty.depth = 0 := rfl
  cases p with
  | module body =>
    rw [Program.need]
    exact ⟨by omega, (types_docSteps body (by omega)).append
      (.cons (types_bodyStmts h (by omega)) .nil)⟩
  | expression e =>
    rw [Program.need]
    exact ⟨h.need_pos (by decide) F, .cons (types_value h (by omega)) .nil⟩
  | interactive body => exact absurd rfl (hp body)

theorem types_loadCells (names : List String) (hM : σ.depth + names.length ≤ M) :
    Types K F M Γ σ (names.map (Step.named .loadClosure)) (σ.up names.length) := by
  induction names generalizing σ with
  | nil => exact .nil
  | cons x names ih =>
    rw [List.length_cons] at hM
    have hrest := ih (σ := σ.up 1) (by rw [Shape.depth_up]; omega)
    rw [Shape.up_up, Nat.add_comm] at hrest
    exact .cons (types_named 0 1 rfl (fun _ => rfl) (by omega)) hrest

theorem types_makeFunction (p : FunctionParts) (hM : σ.depth + 1 ≤ M) :
    (Step.emit .makeFunction p.operand).Types K F M Γ (σ.up (p.count + p.closure.toNat + 2))
      (σ.up 1) := by
  refine types_emit _ 1 rfl ?_ hM
  obtain ⟨defaults, kwDefaults, annotations, closure⟩ := p
  revert defaults kwDefaults annotations closure
  decide

/-- What makes a function from a finished scope. -/
theorem types_closureSteps {code : CodeObject} {parts : FunctionParts} (qualname : String)
    (hcode : (Constant.code code).Known K) (hfree : code.freevars.length ≤ F)
    (hM : σ.depth + parts.count + max F 3 ≤ M) :
    Types K F M Γ (σ.up parts.count) (closureSteps code parts qualname) (σ.up 1) := by
  have hlast (closure : Bool) : Types K F M Γ (σ.up (parts.count + closure.toNat))
      [.load (.code code), .load (.str qualname),
        .emit .makeFunction { parts with closure := closure }.operand] (σ.up 1) := by
    have hle := Bool.toNat_le closure
    refine .cons ⟨hcode, rfl, by rw [Shape.depth_up]; omega⟩ (.cons (types_load rfl ?_)
      (.cons (types_makeFunction { parts with closure := closure } (by omega)) .nil))
    simp only [Shape.depth_up]
    omega
  unfold closureSteps
  by_cases hempty : code.freevars.isEmpty = true
  · simp only [hempty, if_true]
    exact hlast false
  · rw [Bool.not_eq_true] at hempty
    simp only [hempty, Bool.false_eq_true, if_false]
    have hcells : Types K F M Γ (σ.up parts.count) (code.freevars.map (Step.named .loadClosure))
        ((σ.up parts.count).up code.freevars.length) :=
      types_loadCells _ (by rw [Shape.depth_up]; omega)
    have hpack : (Step.emit .buildTuple (UInt32.ofNat code.freevars.length)).Types K F M Γ
        ((σ.up parts.count).up code.freevars.length) ((σ.up parts.count).up 1) :=
      types_build (.inl rfl) (by rw [Shape.depth_up]; omega)
    exact (hcells.append (.cons hpack .nil)).append (hlast true)

theorem Pool.length_ofList_le {α κ : Type} [Ord κ] [Std.TransOrd κ] [Std.LawfulEqOrd κ]
    {key : α → κ} (as : List α) : (Pool.ofList as : Pool key).toList.length ≤ as.length := by
  have hfold (as : List α) (p : Pool key) :
      (as.foldl (fun p a => (p.intern a).2) p).toList.length ≤ p.toList.length + as.length := by
    induction as generalizing p with
    | nil => exact Nat.le_refl _
    | cons a as ih =>
      have hgrow : (p.intern a).2.toList.length ≤ p.toList.length + 1 := by
        rw [Pool.toList_intern]
        split <;> simp
      have := ih (p.intern a).2
      rw [List.foldl_cons, List.length_cons]
      omega
  have := hfold as Pool.empty
  rwa [show (Pool.empty : Pool key).toList = [] from rfl, List.length_nil, Nat.zero_add] at this

theorem Keyed.append {n k m : Nat} {Δ Δ' : Shapes} (h : Keyed n k Δ) (h' : Keyed k m Δ')
    (hnk : n ≤ k) (hkm : k ≤ m) : Keyed n m (Δ' ++ Δ) := by
  refine ⟨?_, fun p hp => ?_⟩
  · rw [List.map_append, List.nodup_append]
    refine ⟨h'.nodup, h.nodup, ?_⟩
    rintro b hb c hc rfl
    obtain ⟨p, hp, rfl⟩ := List.mem_map.mp hb
    obtain ⟨q, hq, heq⟩ := List.mem_map.mp hc
    have hlt : q.1 < p.1 := Nat.lt_of_lt_of_le (h.range q hq).2 (h'.range p hp).1
    exact absurd heq (Nat.ne_of_lt hlt)
  · rcases List.mem_append.mp hp with hp | hp
    · obtain ⟨hlow, hhigh⟩ := h'.range p hp
      exact ⟨Nat.le_trans hnk hlow, hhigh⟩
    · obtain ⟨hlow, hhigh⟩ := h.range p hp
      exact ⟨hlow, Nat.lt_of_lt_of_le hhigh hkm⟩

theorem checks_closing {n : Nat} {addNone : Bool} (arg : UInt32) (hM : 1 ≤ M)
    (hn : (n, .closing addNone) ∈ Γ) :
    Checks M Γ (.closing addNone) (Script.closing n addNone arg) .empty := by
  cases addNone with
  | false => exact .cons .alloc (.cons (.label hn) (.cons .returnValue .nil))
  | true =>
    have hload : Checks M Γ .empty [.load arg .none] (Shape.empty.up 1) :=
      checks_plain (σ := .empty) (a := 0) rfl rfl rfl rfl (by show 0 + 1 ≤ M; omega)
    exact .cons .alloc (.cons (.label hn) (.cons .intern (hload.append (.cons .returnValue .nil))))

/-- The script of a scope has shapes, with the return that closes it. -/
theorem Checks.exists_shaped {n : Nat} {Δ : Shapes} {log tail : Script} {addNone : Bool}
    (h : Checks M Δ .empty log (.closing addNone)) (hΔ : Keyed 1 n Δ) (hn : 1 ≤ n) (hM : 1 ≤ M)
    (htail : tail = [] ∨ ∃ arg, tail = Script.closing n addNone arg) :
    ∃ Γ S, Script.Shaped M Γ (log ++ tail) S := by
  have hsub : Δ ⊆ (n, Shape.closing addNone) :: Δ := List.subset_cons_self _ _
  obtain ⟨σ', hall⟩ :
      ∃ σ', Checks M ((n, .closing addNone) :: Δ) .empty (log ++ tail) σ' := by
    rcases htail with rfl | ⟨arg, rfl⟩
    · exact ⟨_, (h.mono hsub).append .nil⟩
    · exact ⟨_, (h.mono hsub).append (checks_closing arg hM List.mem_cons_self)⟩
  obtain ⟨S, hstart, hflow⟩ := hall.exists_shapes
  refine ⟨_, S, hstart, hflow, ?_, ?_⟩
  · rw [List.map_cons, List.nodup_cons]
    refine ⟨fun hmem => ?_, hΔ.nodup⟩
    obtain ⟨p, hp, heq⟩ := List.mem_map.mp hmem
    have hlt := (hΔ.range p hp).2
    rw [heq] at hlt
    exact Nat.lt_irrefl _ hlt
  · intro p hp
    rcases List.mem_cons.mp hp with rfl | hp
    · exact Nat.ne_of_gt hn
    · exact Nat.ne_of_gt (hΔ.range p hp).1

theorem Draft.of_finish_ok {addNone : Bool} {filename : String} {c : CodeObject}
    (h : d.finish addNone filename = .ok c) : d.assemble addNone filename = .ok c := by
  unfold Draft.finish at h
  split at h
  · cases hassemble : d.assemble addNone filename with
    | error e =>
      rw [hassemble] at h
      cases h
    | ok c' =>
      rw [hassemble] at h
      cases h
      rfl
  · cases h

section Finished

variable {name qualname : String} {t : ScopeTable} {serial firstLine : UInt32} {nested : Bool}
  {log : Script} {addNone : Bool} {filename : String} {c : CodeObject}

/-- A scope that was written by a script with shapes has a code object with shapes. -/
theorem hasShapes_of_finish {Δ : Shapes}
    (hw : (Draft.ofTable name qualname t serial firstLine nested).Writes log d)
    (hsound : log.Sound d.blocks.size) (hΔ : Keyed 1 d.blocks.size Δ) (hM : 1 ≤ M)
    (hchecks : Checks M Δ .empty log (.closing addNone))
    (hc : d.finish addNone filename = .ok c) : c.HasShapes := by
  have hassemble := Draft.of_finish_ok hc
  obtain ⟨tail, code, pos, hw', hsound', hend, htail, hdecode, hrenders, hcovers⟩ :=
    hw.exists_renders hsound hassemble
  have hsize : 1 ≤ d.blocks.size := by
    rw [hw.size_blocks]
    exact Nat.le_add_right _ _
  obtain ⟨Γ, S, hS⟩ := hchecks.exists_shaped hΔ hsize hM htail
  obtain ⟨_, _, _, _, depth, _, _, _, hdepth, _, _, hstack, _⟩ := Draft.assemble_eq_ok hassemble
  exact ⟨M, Γ, d.close addNone, log ++ tail, S, code, pos, hw'.traces hsound'.fresh,
    (hw'.sound hsound').graph, hsound', hend, hS, hdecode, hrenders, hcovers, hstack ▸ hdepth⟩

/-- Its constants are those that the script interns. -/
theorem mem_constants_of_finish
    (hw : (Draft.ofTable name qualname t serial firstLine nested).Writes log d)
    (hc : d.finish addNone filename = .ok c) {k : CodeObject} (hk : .code k ∈ c.constants) :
    Item.intern (.code k) ∈ log := by
  obtain ⟨_, _, _, _, _, _, _, _, _, _, _, _, hconstants, _⟩ :=
    Draft.assemble_eq_ok (Draft.of_finish_ok hc)
  rw [hconstants] at hk
  rcases hw.close addNone with ⟨_, hw'⟩ | ⟨_, arg, hw'⟩
  · rcases hw'.mem_constants hk with hk | hk
    · cases hk
    · exact hk
  · rcases hw'.mem_constants hk with hk | hk
    · cases hk
    · rcases List.mem_append.mp hk with hk | hk
      · exact hk
      · cases addNone <;> simp [Script.closing] at hk

/-- It captures no more names than its table says. -/
theorem length_freevars_of_finish
    (hw : (Draft.ofTable name qualname t serial firstLine nested).Writes log d)
    (hc : d.finish addNone filename = .ok c) : c.freevars.length ≤ t.widest := by
  obtain ⟨_, _, _, _, _, _, _, _, _, _, _, _, _, _, _, _, hfree, _⟩ :=
    Draft.assemble_eq_ok (Draft.of_finish_ok hc)
  have hkeeps : (d.close addNone).freevars = .ofList t.freevars := by
    rcases hw.close addNone with ⟨_, hw'⟩ | ⟨_, _, hw'⟩ <;>
      exact hw'.evolves.keeps Draft.freevars fun _ => rfl
  rw [hfree, hkeeps]
  exact Nat.le_trans (Pool.length_ofList_le _) t.length_freevars_le

end Finished

theorem CodeObject.HasShapes.of_yields {c c' : CodeObject} (h : c.HasShapes)
    (hconstants : ∀ k, .code k ∈ c.constants → (Constant.code k).Known K) (hc' : c.Yields K c') :
    c'.HasShapes := by
  cases hc' with
  | root => exact h
  | nested hmem hnot hrest =>
    obtain ⟨k, hk, hcode⟩ := List.mem_filterMap.mp hmem
    cases k <;> cases hcode
    exact (hconstants _ hk _ rfl).resolve_left hnot _ hrest

theorem Step.Puts.checks {x : Step} {out : Script} (h : x.Puts out)
    (hx : x.Types K F M Γ σ σ') :
    Checks M Γ σ out σ' ∧ ∀ c, Item.intern c ∈ out → c.Known K := by
  cases h with
  | emit | named | jump | label => exact ⟨hx _ (by constructor), by simp⟩
  | load arg c =>
    obtain ⟨hc, rfl, hM⟩ := hx
    exact ⟨.cons .intern (checks_plain (a := 0) rfl rfl rfl rfl hM), by simpa using hc⟩
  | intern c =>
    obtain ⟨hc, rfl⟩ := hx
    exact ⟨.cons .intern .nil, by simpa using hc⟩

/-- What is written for typed steps goes through the shapes that their types say, once the labels
made on the way are given shapes. -/
theorem Emits.checks {steps : List Step} {n m : Nat} {log : Script}
    (h : Emits o d steps n log m) (hF : ∀ t ∈ d.children, t.widest ≤ F)
    (htypes : Types K F M Γ σ steps σ') : ∃ Δ, Keyed n m Δ ∧ Checks M (Δ ++ Γ) σ log σ' ∧
      ∀ c, Item.intern c ∈ log → c.Known K := by
  induction h generalizing Γ σ σ' with
  | nil =>
    cases htypes
    exact ⟨[], ⟨List.nodup_nil, by simp⟩, .nil, by simp⟩
  | put hx _ ih =>
    cases htypes with
    | cons hfirst hrest =>
      obtain ⟨Δ, hΔ, hchecks, hknown⟩ := ih hF hrest
      obtain ⟨hout, hintern⟩ := hx.checks hfirst
      refine ⟨Δ, hΔ, (hout.mono (List.subset_append_right _ _)).append hchecks, fun c hc => ?_⟩
      exact (List.mem_append.mp hc).elim (hintern c) (hknown c)
  | @closure d d' body name line serial parts qualname table code steps n m k inner log
      htable _ hinner hbuilt hfinish _ ihinner ih =>
    have hw := hbuilt.writes
    cases htypes with
    | cons hfirst hrest =>
      obtain ⟨hbody, τ, rfl, rfl, hdepth⟩ := hfirst
      -- the nested scope starts from scratch
      obtain ⟨hM, hsteps⟩ := types_body (o := o) (Γ := [])
        (d := d.child name table serial line) hbody
      have hchildren : ∀ t ∈ (d.child name table serial line).children, t.widest ≤ F :=
        fun t ht => Nat.le_trans (ScopeTable.widest_child ht) (hF table htable)
      obtain ⟨Δ, hΔ, hchecks, hknown⟩ := ihinner hchildren hsteps
      have hsound := hinner.sound (closed_bodySteps o _ body) hw rfl
      have hsize : d'.blocks.size = k := hw.size_blocks.trans hinner.labelled.size.symm
      rw [List.append_nil] at hchecks
      have hshapes := hasShapes_of_finish hw hsound (hsize ▸ hΔ) hM hchecks hfinish
      have hcode : (Constant.code code).Known K := by
        rintro _ ⟨⟩
        exact .inr fun _ => hshapes.of_yields fun c hc =>
          hknown _ (mem_constants_of_finish hw hfinish hc)
      have hfree : code.freevars.length ≤ F :=
        Nat.le_trans (length_freevars_of_finish hw hfinish) (hF table htable)
      exact ih hF ((types_closureSteps _ hcode hfree hdepth).append hrest)
  | @run d t steps n k m log log' hsub _ hlater ihsub ih =>
    cases htypes with
    | cons hfirst hrest =>
      obtain ⟨Δ₀, hΔ₀, hsteps⟩ := Task.Types.expands hfirst o d n
      obtain ⟨Δ₁, hΔ₁, hchecks₁, hknown₁⟩ := ihsub hF hsteps
      obtain ⟨Δ₂, hΔ₂, hchecks₂, hknown₂⟩ := ih hF hrest
      have hn := hsub.le
      have hle := hlater.le
      refine ⟨Δ₂ ++ (Δ₁ ++ Δ₀), (hΔ₀.append hΔ₁ (Nat.le_add_right _ _) hn).append hΔ₂ (by omega) hle,
        ?_, fun c hc => ?_⟩
      · refine ((checks_replicate_alloc _ _).append (hchecks₁.mono ?_)).append (hchecks₂.mono ?_)
        · simp only [List.append_assoc]
          exact List.subset_append_right _ _
        · simp only [List.append_assoc]
          exact List.append_subset.mpr ⟨List.subset_append_left _ _,
            fun p hp => by simp [hp]⟩
      · rcases List.mem_append.mp hc with hc | hc
        · refine hknown₁ c ((List.mem_append.mp hc).resolve_left fun hc => ?_)
          cases (List.mem_replicate.mp hc).2
        · exact hknown₂ c hc

theorem closed_programSteps (o : Options) (d : Draft) (p : Program) : Closed (p.steps o d) := by
  cases p with
  | module body => exact (closed_docSteps o d body).append ⟨rfl, rfl, rfl⟩
  | expression e => exact closed_value e
  | interactive body => exact closed_nil

theorem not_interactive_of_compile {p : Program} {t : ScopeTable} {c : CodeObject}
    (h : compile p t o = .ok c) (body : List Stmt) : p ≠ .interactive body := by
  rintro rfl
  cases h

/-- Every code object that a program in context is compiled to has shapes. -/
theorem hasShapes_of_compile {p : Program} (hp : p.Fits K) {t : ScopeTable} {c c' : CodeObject}
    (hc : compile p t o = .ok c) (hc' : c.Yields K c') : c'.HasShapes := by
  obtain ⟨log, d, k, _, hemits, ⟨hw, _⟩, hfinish⟩ := of_compile_ok hc
  obtain ⟨hM, htypes⟩ := types_program (F := t.widest) (Γ := []) (o := o) (d := .ofModule t) hp
    (not_interactive_of_compile hc)
  obtain ⟨Δ, hΔ, hchecks, hknown⟩ := hemits.checks (fun _ ht => ScopeTable.widest_child ht) htypes
  rw [List.append_nil] at hchecks
  have hsound := hemits.sound (closed_programSteps o _ p) hw rfl
  have hsize : d.blocks.size = k := hw.size_blocks.trans hemits.labelled.size.symm
  have hshapes := hasShapes_of_finish hw hsound (hsize ▸ hΔ) hM hchecks hfinish
  exact hshapes.of_yields (fun k hk => hknown _ (mem_constants_of_finish hw hfinish hk)) hc'

def CompileError.isUnderflow (e : CompileError) : Bool :=
  match e.fault? with
  | some (.stackUnderflow ..) => true
  | _ => false

theorem CompileError.isUnderflow_withContext (e : CompileError) (scope : String) (line : UInt32) :
    (e.withContext scope line).isUnderflow = e.isUnderflow := by
  unfold isUnderflow
  rw [fault?_withContext]

/-- Only the walk for the depth finds underflow. -/
theorem Draft.of_assemble_underflow {addNone : Bool} {filename : String} {e : CompileError}
    (h : d.assemble addNone filename = .error e) (he : e.isUnderflow = true) :
    maxStackDepth (d.close addNone).blocks entry = .error e := by
  rcases Draft.of_assemble_error h with hlayout | hdepth
  · cases hlayout with
    | overflow => cases he
    | @fault f hf =>
      have hother : f.ofLayout = false := by cases f <;> first | rfl | cases he
      rw [hf] at hother
      cases hother
  · exact hdepth

theorem word_nonneg {n : Nat} (h : n < 2 ^ 31) : 0 ≤ Int32.ofNat n := by
  rw [Int32.le_iff_toInt_le, Int32.toInt_ofNat_of_lt h]
  exact Int.natCast_nonneg n

/-- Where no shape is too deep for a machine word, no depth is negative. -/
theorem not_underflow_of_shaped {log : Script} {S : Nat → Shape} (hS : log.Shaped M Γ S)
    (ht : d.Traces log) (hg : Graph.Sound d.blocks) (hlog : log.Sound d.blocks.size)
    (hend : log.place = none) (hentry : Draft.entry < d.blocks.size) (hlt : M < 2 ^ 31)
    {e : CompileError} (h : maxStackDepth d.blocks Draft.entry = .error e) :
    e.isUnderflow = false := by
  rcases maxStackDepth_of_levels hg.inside hentry (hS.levels ht hg hlog hend) with
    ⟨m, hok, _⟩ | ⟨b, _, _, _, _, hsinks⟩ | ⟨_, _, hover, _⟩
  · rw [hok] at h
    cases h
  · obtain ⟨x, hx, hneg⟩ := hsinks.exists_mem
    obtain ⟨m, item, i, k, hitem, hi, _, hx⟩ := (hS.mem_depths ht).mp hx
    have hflow := hS.flow m item hitem
    rcases hx with hx | ⟨htarget, hx⟩
    · obtain ⟨n, hn, heq, _⟩ := hflow.after hi
      rw [hx, ← heq] at hneg
      exact absurd (word_nonneg (Nat.lt_of_le_of_lt hn hlt)) (Int32.not_le.mpr hneg)
    · obtain ⟨c, hc⟩ := Option.isSome_iff_exists.mp htarget
      obtain ⟨τ, _, hn, heq⟩ := hflow.there hi hc
      rw [hx, ← heq] at hneg
      exact absurd (word_nonneg (Nat.lt_of_le_of_lt hn hlt)) (Int32.not_le.mpr hneg)
  · rw [hover] at h
    cases h
    rfl

theorem not_underflow_of_finish {name qualname : String} {t : ScopeTable}
    {serial firstLine : UInt32} {nested : Bool} {log : Script} {addNone : Bool} {filename : String}
    {Δ : Shapes} {e : CompileError}
    (hw : (Draft.ofTable name qualname t serial firstLine nested).Writes log d)
    (hsound : log.Sound d.blocks.size) (hΔ : Keyed 1 d.blocks.size Δ) (hM : 1 ≤ M)
    (hchecks : Checks M Δ .empty log (.closing addNone)) (hlt : M < 2 ^ 31)
    (h : d.finish addNone filename = .error e) : e.isUnderflow = false := by
  rw [← Bool.not_eq_true]
  intro he
  obtain ⟨e', hassemble, he'⟩ :
      ∃ e', d.assemble addNone filename = .error e' ∧ e'.isUnderflow = true := by
    unfold Draft.finish at h
    split at h
    · cases hassemble : d.assemble addNone filename with
      | ok c =>
        rw [hassemble] at h
        cases h
      | error e' =>
        rw [hassemble] at h
        cases h
        rw [CompileError.isUnderflow_withContext] at he
        exact ⟨e', rfl, he⟩
    · cases h
      cases he
  obtain ⟨tail, hw', hsound', hend, htail⟩ := hw.exists_closed hsound addNone
  have hsize : 1 ≤ d.blocks.size := by
    rw [hw.size_blocks]
    exact Nat.le_add_right _ _
  obtain ⟨Γ, S, hS⟩ := hchecks.exists_shaped hΔ hsize hM htail
  have hentry : Draft.entry < (d.close addNone).blocks.size := by
    rw [hw'.size_blocks]
    exact Nat.lt_of_lt_of_le Nat.zero_lt_one (Nat.le_add_right _ _)
  have hnot := not_underflow_of_shaped hS (hw'.traces hsound'.fresh) (hw'.sound hsound').graph
    hsound' hend hentry hlt (Draft.of_assemble_underflow hassemble he')
  rw [hnot] at he'
  cases he'

/-- If a nested scope of typed steps cannot be assembled, this is not due to the depth. -/
theorem Fails.not_underflow {steps : List Step} {f : Fault} (h : Fails o d steps f)
    (hF : ∀ t ∈ d.children, t.widest ≤ F) (htypes : Types K F M Γ σ steps σ')
    (hlt : M < 2 ^ 31) (b k : Nat) (op : Opcode) : f ≠ .stackUnderflow b k op := by
  have hchild {d : Draft} {t : ScopeTable} (name : String) (serial line : UInt32)
      (hF : ∀ t ∈ d.children, t.widest ≤ F) (ht : t ∈ d.children) :
      ∀ t' ∈ (d.child name t serial line).children, t'.widest ≤ F :=
    fun t' ht' => Nat.le_trans (ScopeTable.widest_child ht') (hF t ht)
  induction h generalizing Γ σ σ' with
  | later _ ih =>
    cases htypes with
    | cons _ hrest => exact ih hF hrest
  | @run d t steps n f _ ih =>
    cases htypes with
    | cons hfirst _ =>
      obtain ⟨_, _, hsteps⟩ := Task.Types.expands hfirst o d n
      exact ih hF hsteps
  | inner htable _ _ ih =>
    cases htypes with
    | cons hfirst _ => exact ih (hchild _ _ _ hF htable) (types_body (Γ := []) hfirst.1).2
  | @finish d d' body name line serial parts qualname table steps k inner e f htable _ hinner hw
      hfinish hfault =>
    cases htypes with
    | cons hfirst _ =>
      obtain ⟨hM, hsteps⟩ := types_body (o := o) (Γ := [])
        (d := d.child name table serial line) hfirst.1
      obtain ⟨Δ, hΔ, hchecks, _⟩ := hinner.checks (hchild _ _ _ hF htable) hsteps
      have hsound := hinner.sound (closed_bodySteps o _ body) hw rfl
      have hsize : d'.blocks.size = k := hw.size_blocks.trans hinner.labelled.size.symm
      rw [List.append_nil] at hchecks
      have hnot := not_underflow_of_finish hw hsound (hsize ▸ hΔ) hM hchecks hlt hfinish
      rintro rfl
      simp [CompileError.isUnderflow, hfault] at hnot

/-- Assembly finds no underflow in a program in context whose need is a machine word. -/
theorem not_underflow_of_compile {p : Program} (hp : p.Fits K) {t : ScopeTable}
    (hlt : p.need t.widest < 2 ^ 31) {e : CompileError} (h : compile p t o = .error e) :
    e.isUnderflow = false := by
  rw [← Bool.not_eq_true]
  intro he
  obtain ⟨b, k, op, hf⟩ : ∃ b k op, e.fault? = some (.stackUnderflow b k op) := by
    unfold CompileError.isUnderflow at he
    split at he
    · next hf => exact ⟨_, _, _, hf⟩
    · cases he
  have hmode (body : List Stmt) : p ≠ .interactive body := by
    rintro rfl
    cases h
    cases hf
  obtain ⟨hM, htypes⟩ := types_program (F := t.widest) (Γ := []) (o := o) (d := .ofModule t) hp hmode
  have hF : ∀ t' ∈ (Draft.ofModule t).children, t'.widest ≤ t.widest :=
    fun _ ht => ScopeTable.widest_child ht
  rcases of_compile_error h hf rfl with hfails | ⟨log, d, k', hemits, hw, hfinish⟩
  · exact hfails.not_underflow hF htypes hlt b k op rfl
  · obtain ⟨Δ, hΔ, hchecks, _⟩ := hemits.checks hF htypes
    rw [List.append_nil] at hchecks
    have hsound := hemits.sound (closed_programSteps o _ p) hw rfl
    have hsize : d.blocks.size = k' := hw.size_blocks.trans hemits.labelled.size.symm
    have hnot := not_underflow_of_finish hw hsound (hsize ▸ hΔ) hM hchecks hlt hfinish
    rw [hnot] at he
    cases he

end Wordcode
