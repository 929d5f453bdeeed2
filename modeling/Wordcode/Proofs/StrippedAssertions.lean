import Wordcode.Proofs.StmtTables

/-!
# Stripped assertions

An assertion that is not compiled passes over the tables that its test and message would have
taken, so that the scopes behind it find the tables they find when assertions are kept.
-/

set_option autoImplicit false

namespace Wordcode

open Build

/-- The session with other tables of nested scopes still to come. -/
def Session.withTables (s : Session) (tables : List ScopeTable) : Session :=
  { s with draft := { s.draft with children := tables } }

@[simp] theorem Session.withTables_self (s : Session) : s.withTables s.draft.children = s := rfl

/-- A run that succeeds takes the next `n` tables, and passing over `n` tables succeeds there and
leaves the same ones. -/
def Build.TakesAsSkipped (n : Nat) (b : Build Unit) : Prop :=
  ∀ s s', b s = .ok () s' →
    n ≤ s.draft.children.length ∧ s'.draft.children = s.draft.children.drop n ∧
      skipChildren n s = .ok () (s.withTables s'.draft.children)

theorem skipChildren_run {s : Session} {taken rest : List ScopeTable}
    (h : s.draft.children = taken ++ rest) :
    skipChildren taken.length s = .ok () (s.withTables rest) := by
  induction taken generalizing s with
  | nil =>
    rw [show rest = s.draft.children from h.symm, Session.withTables_self]
    rfl
  | cons t taken ih =>
    have hnext : nextChild s = .ok t (s.withTables (taken ++ rest)) := by
      rw [nextChild_run, h]
      rfl
    have hskip : skipChildren (taken.length + 1) s =
        skipChildren taken.length (s.withTables (taken ++ rest)) := by
      change EStateM.bind nextChild _ s = _
      rw [EStateM.bind, hnext]
    exact hskip.trans (ih rfl)

theorem Build.Takes.asSkipped {n : Nat} {b : Build Unit} (h : Takes n b) : b.TakesAsSkipped n := by
  intro s s' hrun
  obtain ⟨taken, rfl, hs⟩ := h s () s' hrun
  exact ⟨by simp [hs], by simp [hs], skipChildren_run hs⟩

theorem assertStatement_stripped {o : Options} (ho : o.stripsAsserts = true) (test : Expr)
    (msg : Option Expr) :
    assertStatement o test msg = skipChildren (Expr.scopesOf (test :: msg.toList)) := by
  rw [assertStatement, if_pos ho]
  cases msg <;> simp

theorem Stmt.lower_assert (o : Options) (frames : List Frame) (line : UInt32) (test : Expr)
    (msg : Option Expr) :
    Stmt.lower o frames (.assert line test msg) = inStatement line (assertStatement o test msg) := by
  rw [Stmt.lower]
  rfl

theorem inStatement_run_ok {line : UInt32} {b : Build Unit} {s s' : Session} :
    inStatement line b s = .ok () s' ↔ b ⟨s.draft.setLine line, s.nextSerial⟩ = .ok () s' := by
  change (tryCatch b fun e => do throw (e.withContext (← ask (·.qualname)) line))
    ⟨s.draft.setLine line, s.nextSerial⟩ = _ ↔ _
  rw [tryCatch_run]
  cases b ⟨s.draft.setLine line, s.nextSerial⟩ with
  | ok => rfl
  | error => exact ⟨nofun, nofun⟩

/-- An expression takes the tables that are counted for it, whatever becomes of its value. A
stripped assertion passes over those that its test and message would have taken, and does nothing
else but go to its line. -/
theorem assertion_takes_as_skipped {test : Expr} (htest : test.Regular) {o o' : Options}
    (hstrips : o'.stripsAsserts = true) :
    (∀ dest, (test.lower o.filename dest).TakesAsSkipped test.scopeCount) ∧
      ∀ frames line (msg : Option Expr) s s', (∀ m ∈ msg, m.Regular) →
        Stmt.lower o frames (.assert line test msg) s = .ok () s' →
          Stmt.lower o' frames (.assert line test msg) s =
            .ok () (Session.withTables ⟨s.draft.setLine line, s.nextSerial⟩ s'.draft.children) := by
  refine ⟨fun dest => (Expr.takesOwn htest dest).asSkipped,
    fun frames line msg s s' hmsg hrun => ?_⟩
  have htakes := takes_assertStatement (o := o) (Expr.takesOwn htest)
    fun m hm => Expr.takesOwn (hmsg m (Option.mem_toList.mp hm))
  rw [Stmt.lower_assert, inStatement_run_ok] at hrun ⊢
  rw [assertStatement_stripped hstrips]
  exact (htakes.asSkipped _ _ hrun).2.2

/-- The statement `assert lambda: 0, lambda: 0` takes both tables, compiled or not. -/
theorem zeroLambdas_skipped : ∃ l s', Expr.Regular l ∧ l.scopeCount = 1 ∧
    Stmt.lower {} [] (.assert 4 l (some l)) twoLambdas = .ok () s' ∧ s'.draft.children = [] ∧
      Stmt.lower { optimize := 1 } [] (.assert 4 l (some l)) twoLambdas =
        .ok () (Session.withTables ⟨twoLambdas.draft.setLine 4, 1⟩ []) := by
  let l : Expr := .lambda 4 ⟨[], [], none, [], [], none, []⟩ (.constant 4 (.int 0))
  have hl : l.Regular := .intro (Nat.le_refl 0) nofun
  have hleft : (Stmt.lower {} [] (.assert 4 l (some l))).left? twoLambdas = some 0 := by
    decide +kernel
  obtain ⟨s', hrun, hlength⟩ := Build.of_left? hleft
  have hnil := List.length_eq_zero_iff.mp hlength
  have hstrips : Options.stripsAsserts { optimize := 1 } = true := rfl
  have hskip := (assertion_takes_as_skipped hl hstrips).2 [] 4 (some l) twoLambdas s'
    (fun m hm => Option.some.inj hm ▸ hl) hrun
  rw [hnil] at hskip
  exact ⟨l, s', hl, by decide, hrun, hnil, hskip⟩

end Wordcode
