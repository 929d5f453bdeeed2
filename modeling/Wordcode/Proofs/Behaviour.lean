import Wordcode.Proofs.Keys
import Wordcode.Proofs.Operands
import Wordcode.Proofs.Unwinding

/-!
# What functions do

The wordcode of a function whose body is made of control flow does what the statements do: it
evaluates the same expressions, one after the other, and returns the same. Where a loop does not end,
this is so of all that is evaluated as far as one looks.
-/

set_option autoImplicit false

namespace Wordcode

section

variable {Pt V : Type} {M : Meaning V} {F : Course Pt} {c c' : Config Pt V}

theorem Moves.trace_prefix (h : Moves M F c c') : c.trace <+: c'.trace := by
  cases h with
  | silent | next | jump => exact List.prefix_rfl
  | value => exact List.prefix_append _ _

theorem Runs.trace_prefix (h : Runs M F c c') : c.trace <+: c'.trace := by
  induction h with
  | refl => exact List.prefix_rfl
  | tail _ hmove ih => exact ih.trans hmove.trace_prefix

theorem Runs.eq_of_stuck (h : Runs M F c c') (hc : ∀ c', ¬ Moves M F c c') : c = c' := by
  cases Relation.ReflTransGen.cases_head h with
  | inl heq => exact heq
  | inr hmove =>
    obtain ⟨c₁, hmove, _⟩ := hmove
    exact (hc c₁ hmove).elim

end

/-- What a function returns if its body ends so. -/
def Outcome.result? {V : Type} : Outcome V → Option (Result V)
  | .normal => some (.constant .none)
  | .returns r => some r
  | _ => none

/-- The cell holds what is returned. A constant is held by its number in the table, where the entry
has the key of the constant: it is the constant itself if no code object is part of it. -/
def CodeObject.Holds {V : Type} (c : CodeObject) : Result V → Cell V → Prop
  | .value v, x => x = .value v
  | .constant k, x => ∃ i k', x = .constant (UInt32.ofNat i) ∧ c.constants[i]? = some k' ∧
    k'.Alike k ∧ (k.CodeFree → k' = k)

/-- A code object that is run from its first instruction does what `f` tells, of which the number is
how many turns each loop may take: it evaluates what is evaluated before `f` is broken off, it
returns what `f` returns, and it does not do anything else. -/
structure CodeObject.Behaves {V : Type} (c : CodeObject) (M : Meaning V) (F : Course Nat)
    (f : Nat → Outcome V × List Expr) : Prop where
  broken : ∀ n tr, f n = (.timeout, tr) → n ≤ tr.length ∧
    ∃ cfg, Runs M F ⟨0, [], []⟩ cfg ∧ cfg.trace = tr
  returned : ∀ n out tr, f n = (out, tr) → out ≠ .timeout → ∃ r cfg x, out.result? = some r ∧
    Runs M F ⟨0, [], []⟩ cfg ∧ cfg.trace = tr ∧ F.Returns cfg x ∧ c.Holds r x
  only : ∀ cfg, Runs M F ⟨0, [], []⟩ cfg → ∃ n, cfg.trace <+: (f n).2 ∧
    ∀ x, F.Returns cfg x → ∃ r, (f n).1.result? = some r ∧ cfg.trace = (f n).2 ∧ c.Holds r x

/-- As the machine does not have a choice, it does not do anything else. -/
theorem CodeObject.behaves_of_deterministic {V : Type} {c : CodeObject} {M : Meaning V}
    {F : Course Nat} {f : Nat → Outcome V × List Expr}
    (hunique : ∀ {cfg c₁ c₂ : Config Nat V}, Moves M F cfg c₁ → Moves M F cfg c₂ → c₁ = c₂)
    (hstuck : ∀ {cfg cfg' : Config Nat V} {x : Cell V}, F.Returns cfg x → ¬ Moves M F cfg cfg')
    (hbroken : ∀ n tr, f n = (.timeout, tr) → n ≤ tr.length ∧
      ∃ cfg, Runs M F ⟨0, [], []⟩ cfg ∧ cfg.trace = tr)
    (hreturned : ∀ n out tr, f n = (out, tr) → out ≠ .timeout → ∃ r cfg x, out.result? = some r ∧
      Runs M F ⟨0, [], []⟩ cfg ∧ cfg.trace = tr ∧ F.Returns cfg x ∧ c.Holds r x) :
    c.Behaves M F f := by
  refine ⟨hbroken, hreturned, fun cfg hruns => ?_⟩
  have htotal {c₁ : Config Nat V} (h : Runs M F ⟨0, [], []⟩ c₁) :
      Runs M F cfg c₁ ∨ Runs M F c₁ cfg :=
    Relation.ReflTransGen.total_of_right_unique (fun _ _ _ h₁ h₂ => hunique h₁ h₂) hruns h
  -- more turns than what has been evaluated: what is broken off then is further on
  obtain ⟨⟨out, tr⟩, hf⟩ : ∃ r, f (cfg.trace.length + 1) = r := ⟨_, rfl⟩
  refine ⟨cfg.trace.length + 1, ?_⟩
  rw [hf]
  by_cases hout : out = .timeout
  · subst hout
    obtain ⟨hlt, c₁, hc₁, rfl⟩ := hbroken _ _ hf
    have hbefore : Runs M F cfg c₁ := by
      refine (htotal hc₁).resolve_right fun hafter => ?_
      exact absurd (Runs.trace_prefix hafter).length_le (Nat.not_le.mpr hlt)
    refine ⟨Runs.trace_prefix hbefore, fun x hx => ?_⟩
    rw [Runs.eq_of_stuck hbefore fun _ => hstuck hx] at hlt
    exact absurd hlt (Nat.not_succ_le_self _)
  · obtain ⟨r, c₁, x₁, hr, hc₁, rfl, hx₁, hholds⟩ := hreturned _ _ _ hf hout
    have hbefore : Runs M F cfg c₁ := by
      rcases htotal hc₁ with h | h
      · exact h
      · rw [Runs.eq_of_stuck h fun _ => hstuck hx₁]
    refine ⟨Runs.trace_prefix hbefore, fun x hx => ?_⟩
    obtain rfl := Runs.eq_of_stuck hbefore fun _ => hstuck hx
    have heq : x = x₁ := Option.some.inj (hx.2.symm.trans hx₁.2)
    exact ⟨r, hr, rfl, heq ▸ hholds⟩

/-- A body that is made of control flow does not begin with a docstring. -/
theorem keptDocstring?_of_flow {o : Options} {body : List Stmt} (h : ∀ s ∈ body, s.IsFlow) :
    Build.keptDocstring? o body = none := by
  unfold Build.keptDocstring?
  split
  · rfl
  · unfold docstring?
    split
    · have hflow := h _ List.mem_cons_self
      cases hflow with
      | expr hconst => cases hconst
    · rfl

theorem withoutDocstring_of_flow {o : Options} {body : List Stmt} (h : ∀ s ∈ body, s.IsFlow) :
    Build.withoutDocstring o body = body := by
  unfold Build.withoutDocstring
  rw [keptDocstring?_of_flow h]
  rfl

section

variable {o : Options} {name qualname : String} {t : ScopeTable} {serial firstLine : UInt32}
  {nested addNone : Bool} {filename : String} {log : Script} {d : Draft} {c : CodeObject}

/-- What is returned is in the table of the finished scope. -/
theorem Result.Shown.holds {V : Type} {P : Plot} {r : Result V} {x : Cell V} (h : r.Shown P x)
    (hw : (Draft.ofTable name qualname t serial firstLine nested).Writes P.script (d.close addNone))
    (hc : d.finish addNone filename = .ok c) : c.Holds r x := by
  cases r with
  | value v => exact h
  | constant k =>
    obtain ⟨arg, rfl, hload⟩ := h
    have hmem : Item.load arg k ∈ P.script :=
      List.mem_flatMap.mpr ⟨_, hload, List.mem_singleton_self _⟩
    obtain ⟨i, rfl, hi⟩ : (d.close addNone).Resolves (.load arg k) := hw.resolves hmem
    obtain ⟨k', hk', hkey⟩ := Option.map_eq_some_iff.mp hi
    obtain ⟨_, _, _, _, _, _, _, _, _, _, _, _, hconstants, _⟩ :=
      Draft.assemble_eq_ok (Draft.of_finish_ok hc)
    have halike := Constant.key_inj.mp hkey
    exact ⟨i, k', rfl, hconstants ▸ hk', halike, fun hfree => hfree.eq_of_alike halike⟩

end

/-- Control that gets to the end of a function returns `None`. -/
theorem Plot.lands_of_end {V : Type} {P : Plot} {M : Meaning V} {n : Nat} {tail : Script}
    {code : List Decoded} {pos : Nat → Nat} {tr : List Expr} {j : Nat}
    (hP : tail.map Piece.item <:+ P) (hj : P.script.At code pos tail j)
    (htail : tail = [] ∨ ∃ arg, tail = Script.closing n true arg) :
    P.Lands M ⟨tail.map Piece.item, [], tr⟩ (.return (.constant .none) tr) := by
  rcases htail with rfl | ⟨arg, rfl⟩
  · -- control does not get behind the last instruction
    obtain ⟨x, i, hx, -⟩ := hj.2.instruction
    have hle := hj.2.le
    rw [List.length_nil, Nat.sub_zero] at hle
    exact absurd (List.getElem?_eq_some_iff.mp hx).1 (Nat.not_lt.mpr hle)
  · have hshown : Result.Shown P (.constant .none) (.constant arg : Cell V) :=
      ⟨arg, rfl, hP.subset (by simp [Script.closing])⟩
    exact (run_returns hshown).of_runs ((run_allocs 1).trans ((run_label n).trans
      ((run_intern .none).trans (run_load arg .none))))

section

variable {o : Options} {name qualname : String} {t : ScopeTable} {serial firstLine : UInt32}
  {nested : Bool} {filename : String} {d : Draft} {c : CodeObject} {P : Plot}

/-- A scope whose script does what `f` does, and which returns `None` at its end, does so when it is
finished. -/
theorem Plot.exists_behaves
    (hw : (Draft.ofTable name qualname t serial firstLine nested).Writes P.script d)
    (hsound : P.script.Sound d.blocks.size) (htakes : P.Takes o TakesAll)
    (hc : d.finish true filename = .ok c) (f : ∀ {V : Type}, Meaning V → Nat → Effect V)
    (hlasts : ∀ {V : Type} (M : Meaning V) (n : Nat), (f M n).Lasts n)
    (hP : ∀ {V : Type} (M : Meaning V) (n : Nat), P.Performs M n [] (f M n)) :
    ∃ (P' : Plot) (code : List Decoded) (pos : Nat → Nat), decode c.code = .ok code ∧
      P'.Rendered o code pos ∧ ∀ {V : Type} (M : Meaning V),
        c.Behaves M (P'.wordcourse code pos) fun n => f M n [] := by
  obtain ⟨tail, code, pos, hdecode, hrendered, hclose, htail⟩ := exists_rendered hw hsound htakes hc
  have hscript : script (P ++ tail.map Piece.item) = P.script ++ tail := by
    rw [script_append, script_map_item]
  rw [← hscript] at hclose
  refine ⟨_, code, pos, hdecode, hrendered, ?_⟩
  intro V M
  have hstart := hrendered.renders.at_start
  have hends (n : Nat) :=
    hP M n (P ++ tail.map Piece.item) (tail.map Piece.item) [] [] List.suffix_rfl trivial
  refine CodeObject.behaves_of_deterministic hrendered.moves_unique not_moves_of_returns ?_ ?_
  · intro n tr hf
    have h := hends n
    rw [hf] at h
    obtain ⟨c', hruns, rfl⟩ := ends_timeout.mp h
    obtain ⟨_, j, _, hword⟩ := hrendered.runs hruns List.suffix_rfl hstart
    refine ⟨?_, _, hword, rfl⟩
    have hturns := (hlasts M n []).2 (congrArg Prod.fst hf)
    rw [hf] at hturns
    simpa using hturns
  · intro n out tr hf hout
    have h := hends n
    rw [hf] at h
    have hlands : ∃ r, out.result? = some r ∧
        (P ++ tail.map Piece.item).Lands M ⟨P ++ tail.map Piece.item, [], []⟩ (.return r tr) := by
      cases out with
      | normal =>
        obtain ⟨_, j, hj, _⟩ := hrendered.runs h List.suffix_rfl hstart
        rw [script_map_item] at hj
        exact ⟨_, rfl, (lands_of_end (List.suffix_append _ _) hj htail).of_runs h⟩
      | returns r => exact ⟨r, rfl, h⟩
      | breaks | continues => exact h.elim
      | timeout => exact (hout rfl).elim
    obtain ⟨r, hr, c', x, hruns, hreturns, rfl, hshown⟩ := hlands
    obtain ⟨hc', j, hj, hword⟩ := hrendered.runs hruns List.suffix_rfl hstart
    exact ⟨r, _, x, hr, hword, rfl, hrendered.returns hreturns hc' hj, hshown.holds hclose hc⟩

end

/-- A search that a `break` ends as well as a `return`, out of the protected part of a `try`
statement. The test of the loop is a condition with two operands. -/
def searchBody : List Stmt :=
  [.whileLoop 2 (.boolOp 2 .and [.name 2 "more" .load, .unaryOp 2 .not (.name 2 "stopped" .load)])
    [.tryExcept 3
      [.ifElse 4 (.name 4 "found" .load) [.ret 5 (some (.name 5 "x" .load))] [.breakLoop 6]]
      [] [] [.expr 7 (.name 7 "step" .load)]]
    [.ret 8 (some (.constant 8 (.int 0)))]]

theorem isFlow_searchBody : ∀ s ∈ searchBody, s.IsFlow := by
  have hif : Stmt.IsFlow (.ifElse 4 (.name 4 "found" .load) [.ret 5 (some (.name 5 "x" .load))]
      [.breakLoop 6]) := by
    refine .ifElse (.operand rfl .name) ?_ ?_
    · simp only [List.mem_singleton, forall_eq]
      exact .ret fun e he => by
        cases he
        exact .name
    · simp only [List.mem_singleton, forall_eq]
      exact .breakLoop
  have htest : Expr.IsCondition (.boolOp 2 .and [.name 2 "more" .load,
      .unaryOp 2 .not (.name 2 "stopped" .load)]) := by
    refine .boolOp nofun ?_
    simp only [List.forall_mem_cons]
    exact ⟨.operand rfl .name, .not (.operand rfl .name), nofun⟩
  simp only [searchBody, List.mem_singleton, forall_eq]
  refine .whileLoop htest ?_ ?_
  · simp only [List.mem_singleton, forall_eq]
    refine .tryExcept (fun _ => rfl) ?_ nofun ?_
    · simpa only [List.mem_singleton, forall_eq] using hif
    · simp only [List.mem_singleton, forall_eq]
      exact .expr rfl .name
  · simp only [List.mem_singleton, forall_eq]
    exact .ret fun e he => by
      cases he
      exact .constant nofun

def searchScope : Build CodeObject :=
  Build.inScope "<string>" "search" .function 1 do
    let _ ← Build.internConstant ((Build.keptDocstring? {} searchBody).elim .none .str)
    Stmt.lowerAll {} [] (Build.withoutDocstring {} searchBody)
    return true

end Wordcode
