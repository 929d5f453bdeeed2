import Wordcode.Proofs.Execution
import Wordcode.Proofs.Labels
import Wordcode.Proofs.LowerExpr

/-!
# Conditions and their values

Conditions are built from boolean operators, negation, conditional expressions and comparison chains
over operands. The code that pushes the value of a condition and the code that goes by its truth
evaluate the same operands and agree with each other, and with the value that short-circuiting gives.
-/

set_option autoImplicit false

namespace Wordcode

namespace Expr

/-- What conditions are built over. -/
def isOperand : Expr → Bool
  | .boolOp .. | .ifExp .. | .compare .. | .unaryOp _ .not _ => false
  | _ => true

inductive IsCondition : Expr → Prop where
  | boolOp {line : UInt32} {op : BoolOp} {values : List Expr} : values ≠ [] →
      (∀ e ∈ values, IsCondition e) → IsCondition (.boolOp line op values)
  | not {line : UInt32} {operand : Expr} : IsCondition operand →
      IsCondition (.unaryOp line .not operand)
  | ifExp {line : UInt32} {test body orelse : Expr} : IsCondition test → IsCondition body →
      IsCondition orelse → IsCondition (.ifExp line test body orelse)
  | compare {line : UInt32} {left : Expr} {ops : List CmpOp} {comparators : List Expr} : ops ≠ [] →
      ops.length = comparators.length → IsCondition left → (∀ e ∈ comparators, IsCondition e) →
      IsCondition (.compare line left ops comparators)
  | operand {e : Expr} : e.isOperand = true → e.Fits (fun _ => True) .load → IsCondition e

variable {V : Type} (M : Meaning V)

mutual

/-- The value of a condition, and the operands that have been evaluated when it is known. -/
def evaluate : Expr → List Expr → V × List Expr
  | .boolOp _ op values, tr => evaluateOperands op values tr
  | .unaryOp _ .not operand, tr =>
    let (v, tr) := evaluate operand tr
    (M.ofBool (!M.truth v), tr)
  | .ifExp _ test body orelse, tr =>
    let (v, tr) := evaluate test tr
    if M.truth v then evaluate body tr else evaluate orelse tr
  | .compare _ left ops comparators, tr =>
    let (v, tr) := evaluate left tr
    evaluateLinks v ops comparators tr
  | e, tr => (M.value tr e, tr ++ [e])

/-- The first value that decides a boolean operation, or else the last. -/
def evaluateOperands (op : BoolOp) : List Expr → List Expr → V × List Expr
  | [], tr => (M.ofBool (decide (op = .and)), tr)
  | [e], tr => evaluate e tr
  | e :: es, tr =>
    let (v, tr) := evaluate e tr
    if M.truth v = decide (op = .or) then (v, tr) else evaluateOperands op es tr

/-- The first comparison of a chain that does not hold, or else the last; `v` is on the left of the
first one. -/
def evaluateLinks (v : V) : List CmpOp → List Expr → List Expr → V × List Expr
  | op :: ops, e :: es, tr =>
    let (w, tr) := evaluate e tr
    if es.isEmpty || !M.truth (M.compare op v w) then (M.compare op v w, tr)
    else evaluateLinks w ops es tr
  | _, _, tr => (v, tr)

end

mutual

/-- The operands of a condition, in the order in which they are evaluated. -/
def leaves : Expr → List Expr
  | .boolOp _ _ values => leavesOf values
  | .unaryOp _ .not operand => leaves operand
  | .ifExp _ test body orelse => leaves test ++ leaves body ++ leaves orelse
  | .compare _ left _ comparators => leaves left ++ leavesOf comparators
  | e => [e]

def leavesOf : List Expr → List Expr
  | [] => []
  | e :: es => leaves e ++ leavesOf es

end

variable {M}

theorem evaluate_operand {e : Expr} (h : e.isOperand = true) (tr : List Expr) :
    e.evaluate M tr = (M.value tr e, tr ++ [e]) := by
  cases e with
  | unaryOp line op operand => cases op <;> first | rfl | cases h
  | boolOp | ifExp | compare => cases h
  | _ => rfl

theorem leaves_operand {e : Expr} (h : e.isOperand = true) : e.leaves = [e] := by
  cases e with
  | unaryOp line op operand => cases op <;> first | rfl | cases h
  | boolOp | ifExp | compare => cases h
  | _ => rfl

theorem steps_operand {e : Expr} (h : e.isOperand = true) (d : Draft) (n : Nat) (dest : Dest) :
    e.steps d n dest = e.valueSteps d ++ dest.testSteps := by
  cases e with
  | unaryOp line op operand => cases op <;> first | rfl | cases h
  | boolOp | ifExp | compare => cases h
  | _ => rfl

theorem labelCount_operand {e : Expr} (h : e.isOperand = true) (dest : Dest) :
    e.labelCount dest = 0 := by
  cases e with
  | boolOp | ifExp | compare => cases h
  | _ => rfl

/-- From one list of evaluated operands to another, some of `es` are evaluated, each at most once and
in this order. -/
def Evaluates (es tr tr' : List Expr) : Prop := ∃ new, new.Sublist es ∧ tr' = tr ++ new

theorem Evaluates.refl (es tr : List Expr) : Evaluates es tr tr :=
  ⟨[], List.nil_sublist _, (List.append_nil _).symm⟩

theorem Evaluates.append {es es' tr tr' tr'' : List Expr} (h : Evaluates es tr tr')
    (h' : Evaluates es' tr' tr'') : Evaluates (es ++ es') tr tr'' := by
  obtain ⟨new, hnew, rfl⟩ := h
  obtain ⟨new', hnew', rfl⟩ := h'
  exact ⟨new ++ new', hnew.append hnew', List.append_assoc ..⟩

theorem Evaluates.length_le {es tr tr' : List Expr} (h : Evaluates es tr tr') :
    tr.length ≤ tr'.length := by
  obtain ⟨new, _, rfl⟩ := h
  exact (List.prefix_append tr new).length_le

theorem Evaluates.mono {es es' tr tr' : List Expr} (h : Evaluates es tr tr')
    (hsub : es.Sublist es') : Evaluates es' tr tr' := by
  obtain ⟨new, hnew, rfl⟩ := h
  exact ⟨new, hnew.trans hsub, rfl⟩

mutual

theorem evaluates_leaves (e : Expr) (tr : List Expr) :
    Evaluates e.leaves tr (e.evaluate M tr).2 := by
  by_cases hop : e.isOperand = true
  · rw [evaluate_operand hop, leaves_operand hop]
    exact ⟨[e], List.Sublist.refl _, rfl⟩
  · match e with
    | .boolOp _ op values => exact evaluates_leavesOf op values tr
    | .unaryOp _ .not operand => exact evaluates_leaves operand tr
    | .ifExp _ test body orelse =>
      have htest := evaluates_leaves test tr
      simp only [evaluate, leaves]
      split
      · exact (htest.append (evaluates_leaves body _)).mono (List.sublist_append_left _ _)
      · rw [List.append_assoc]
        refine htest.append ((evaluates_leaves orelse _).mono ?_)
        exact List.sublist_append_right _ _
    | .compare _ left ops comparators =>
      exact (evaluates_leaves left tr).append (evaluates_links _ ops comparators _)

theorem evaluates_leavesOf (op : BoolOp) (es tr : List Expr) :
    Evaluates (leavesOf es) tr (evaluateOperands M op es tr).2 := by
  match es with
  | [] => exact .refl _ _
  | [e] => exact (evaluates_leaves e tr).mono (List.sublist_append_left _ _)
  | e :: e' :: es =>
    have he := evaluates_leaves e tr
    simp only [evaluateOperands]
    split
    · exact he.mono (List.sublist_append_left _ _)
    · exact he.append (evaluates_leavesOf op (e' :: es) _)

theorem evaluates_links (v : V) (ops : List CmpOp) (es tr : List Expr) :
    Evaluates (leavesOf es) tr (evaluateLinks M v ops es tr).2 := by
  match ops, es with
  | [], [] | [], _ :: _ | _ :: _, [] => exact .refl _ _
  | op :: ops, e :: es =>
    have he := evaluates_leaves e tr
    simp only [evaluateLinks]
    split
    · exact he.mono (List.sublist_append_left _ _)
    · exact he.append (evaluates_links _ ops es _)

end

/-- At least one operand is evaluated before the value of a condition is known. -/
theorem IsCondition.length_lt {e : Expr} (h : e.IsCondition) (tr : List Expr) :
    tr.length < (e.evaluate M tr).2.length := by
  induction h generalizing tr with
  | @boolOp line op values hne _ ih =>
    match values with
    | [] => exact absurd rfl hne
    | [e] => exact ih e List.mem_cons_self tr
    | e :: e' :: es =>
      have hfirst := ih e List.mem_cons_self tr
      simp only [evaluate, evaluateOperands]
      split
      · exact hfirst
      · exact Nat.lt_of_lt_of_le hfirst (evaluates_leavesOf op (e' :: es) _).length_le
  | not _ ih => exact ih tr
  | ifExp _ _ _ iht ihb ihe =>
    simp only [evaluate]
    split
    · exact Nat.lt_trans (iht tr) (ihb _)
    · exact Nat.lt_trans (iht tr) (ihe _)
  | @compare line left ops comparators _ _ _ _ ihl _ =>
    exact Nat.lt_of_lt_of_le (ihl tr) (evaluates_links _ ops comparators _).length_le
  | operand hop _ =>
    rw [evaluate_operand hop, List.length_append]
    exact Nat.lt_succ_self _

end Expr

open Wordcode.Expr (evaluateOperands evaluateLinks)

/-- The operands of a condition are what its code is taken to be made of. -/
def TakesOperands (e : Expr) : Prop := e.isOperand = true

/-- A destination that was made before the labels from `n` on. -/
def Dest.Before (n : Nat) : Dest → Prop
  | .push => True
  | .jump b _ => b < n

theorem Dest.Before.mono {dest : Dest} {n m : Nat} (h : dest.Before n) (hnm : n ≤ m) :
    dest.Before m := by
  cases dest with
  | push => trivial
  | jump => exact Nat.lt_of_lt_of_le h hnm

/-- From `c` on a plot, control brings the value `r.1` to its destination and leaves the stack `st`
otherwise. It comes to `rest`, or behind the label of the destination if that is where the value
leads. Then `r.2` has been evaluated. -/
def Plot.Delivers {V : Type} (P : Plot) (M : Meaning V) (dest : Dest) (c : Config Plot V)
    (rest : Plot) (st : List (Cell V)) (r : V × List Expr) : Prop :=
  match dest with
  | .push => Runs M P.course c ⟨rest, .value r.1 :: st, r.2⟩
  | .jump b sense => ∀ taken : Plot, .item (.label b) :: taken <:+ P →
    Runs M P.course c ⟨if M.truth r.1 = sense then taken else rest, st, r.2⟩

/-- Control that goes through a part of a plot brings a value to its destination. -/
def Plot.Brings {V : Type} (pl : Plot) (M : Meaning V) (dest : Dest)
    (f : List Expr → V × List Expr) : Prop :=
  ∀ (P rest : Plot) (st : List (Cell V)) (tr : List Expr), pl ++ rest <:+ P →
    P.Delivers M dest ⟨pl ++ rest, st, tr⟩ rest st (f tr)

/-- The jump to the end of a comparison chain whose value has the destination. -/
def Dest.linkOpcode : Dest → Opcode
  | .push => .jumpIfFalseOrPop
  | .jump .. => .popJumpIfFalse

/-- The stack when a comparison of a chain has failed with the result `v`. -/
def Dest.kept {V : Type} (dest : Dest) (v : V) (st : List (Cell V)) : List (Cell V) :=
  match dest with
  | .push => .value v :: st
  | .jump .. => st

/-- The code of a condition brings its value to where it is to be. -/
def Expr.Computes (o : Options) (e : Expr) : Prop :=
  ∀ {d : Draft} {n m : Nat} {log : Script} {dest : Dest}, Emits o d [.run (.expr e dest)] n log m →
    dest.Before n → ∃ pl : Plot, pl.Shows o TakesOperands log ∧
      ∀ {V : Type} (M : Meaning V), pl.Brings M dest (e.evaluate M)

section

variable {V : Type} {M : Meaning V} {P rest taken : Plot} {st : List (Cell V)} {tr : List Expr}
  {dest : Dest} {c c' : Config Plot V} {r : V × List Expr}

theorem Plot.Delivers.of_runs (h : P.Delivers M dest c' rest st r) (hc : Runs M P.course c c') :
    P.Delivers M dest c rest st r := by
  cases dest with
  | push => exact hc.trans h
  | jump b sense => exact fun taken hb => hc.trans (h taken hb)

/-- What is behind may be passed. -/
theorem Plot.Delivers.and_past {mid : Plot} (h : P.Delivers M dest c mid st r)
    (hmid : ∀ st tr, Runs M P.course ⟨mid, st, tr⟩ ⟨rest, st, tr⟩) :
    P.Delivers M dest c rest st r := by
  cases dest with
  | push => exact .trans h (hmid _ _)
  | jump b sense =>
    intro taken hb
    have hruns := h taken hb
    by_cases hr : M.truth r.1 = sense
    · rw [if_pos hr] at hruns ⊢
      exact hruns
    · rw [if_neg hr] at hruns ⊢
      exact hruns.trans (hmid _ _)

/-- A value on top of the stack is tested if the destination asks for it. -/
theorem Plot.delivers_test {o : Options} {d : Draft} {n m : Nat} {log : Script} {v : V}
    (h : Emits o d dest.testSteps n log m) :
    P.Delivers M dest ⟨log.map .item ++ rest, .value v :: st, tr⟩ rest st (v, tr) := by
  cases dest with
  | push =>
    obtain ⟨rfl, -⟩ := h.of_nil
    exact .refl
  | jump b sense =>
    obtain ⟨_, rfl, hblock⟩ := h.of_jump
    obtain ⟨_, _, rfl, hnil⟩ := hblock.of_block
    obtain ⟨rfl, -⟩ := hnil.of_nil
    intro taken hb
    dsimp only
    by_cases hv : M.truth v = sense
    · rw [if_pos hv]
      refine run_jump ?_ hb
      cases sense <;> simp [popJumpOpcode, Meaning.jumps, hv]
    · have hfalls : M.falls (popJumpOpcode sense) 0 (.value v :: st) = some st := by
        cases sense <;> simp_all [popJumpOpcode, Meaning.falls]
      rw [if_neg hv]
      exact (run_past hfalls).trans ((run_allocs 1).trans (run_label n))

theorem Dest.falls_link {v : V} (dest : Dest) (hv : M.truth v = true) (st : List (Cell V)) :
    M.falls dest.linkOpcode 0 (.value v :: st) = some st := by
  cases dest <;> simp [linkOpcode, Meaning.falls, hv]

theorem Dest.jumps_link {v : V} (dest : Dest) (hv : M.truth v = false) (st : List (Cell V)) :
    M.jumps dest.linkOpcode (.value v :: st) = some (dest.kept v st) := by
  cases dest <;> simp [linkOpcode, kept, Meaning.jumps, hv]

/-- The result of a comparison that failed is brought to its destination once the right operand has
been dropped. -/
theorem Plot.delivers_cleanup {o : Options} {d : Draft} {n m : Nat} {log : Script} {w : V}
    (h : Emits o d dest.cleanupSteps n log m) (hr : M.truth r.1 = false) :
    P.Delivers M dest ⟨log.map .item ++ rest, dest.kept r.1 (.value w :: st), r.2⟩ rest st r := by
  match dest with
  | .push =>
    obtain ⟨_, rfl, hpop⟩ := h.of_emit
    obtain ⟨_, rfl, hnil⟩ := hpop.of_emit
    obtain ⟨rfl, -⟩ := hnil.of_nil
    exact .trans (run_emit rfl) (run_emit rfl)
  | .jump b true =>
    obtain ⟨_, rfl, hnil⟩ := h.of_emit
    obtain ⟨rfl, -⟩ := hnil.of_nil
    intro taken _
    rw [if_neg (by rw [hr]; nofun)]
    exact run_emit rfl
  | .jump b false =>
    obtain ⟨_, rfl, hjump⟩ := h.of_emit
    obtain ⟨_, rfl, hnil⟩ := hjump.of_jump
    obtain ⟨rfl, -⟩ := hnil.of_nil
    intro taken hb
    rw [if_pos hr]
    exact (run_emit rfl).trans (run_jump rfl hb)

end

section

variable {o : Options}

theorem Expr.computes_operand {e : Expr} (hop : e.isOperand = true)
    (hfits : e.Fits (fun _ => True) .load) : e.Computes o := by
  intro d n m log dest h _
  obtain ⟨_, rfl, hsteps⟩ := h.of_task
  simp only [Task.labelCount, labelCount_operand hop, List.replicate_zero, List.nil_append,
    Task.steps, steps_operand hop] at hsteps ⊢
  obtain ⟨first, tests, k, rfl, hvalue, htests⟩ := hsteps.of_append
  have hcodes : e.Codes o first := by
    refine ⟨d, n, n, k, ?_⟩
    rw [steps_operand hop]
    exact (List.append_nil (e.valueSteps d)).symm ▸ hvalue
  have hshows : Plot.Shows o TakesOperands [.whole e first] first :=
    Plot.shows_whole hop hfits hcodes
  refine ⟨_, hshows.append (Plot.shows_items o tests), fun M P rest st tr _ => ?_⟩
  rw [evaluate_operand hop]
  exact (Plot.delivers_test htests).of_runs (Plot.run_value e first)

theorem Expr.computes_not {line : UInt32} {operand : Expr} (h : operand.Computes o) :
    (Expr.unaryOp line .not operand).Computes o := by
  intro d n m log dest hemits hdest
  obtain ⟨_, rfl, hsteps⟩ := hemits.of_task
  cases dest with
  | push =>
    obtain ⟨_, _, _, rfl, hoperand, hnot⟩ := hsteps.of_run
    obtain ⟨_, rfl, hnil⟩ := hnot.of_emit
    obtain ⟨rfl, -⟩ := hnil.of_nil
    obtain ⟨pl, hshows, hbrings⟩ := h hoperand trivial
    refine ⟨_, hshows.append (Plot.shows_items o _), fun M P rest st tr hP => ?_⟩
    rw [List.append_assoc] at hP ⊢
    exact .trans (hbrings M P _ st tr hP) (Plot.run_emit rfl)
  | jump b sense =>
    obtain ⟨pl, hshows, hbrings⟩ := h hsteps hdest
    refine ⟨pl, hshows, fun M P rest st tr hP taken hb => ?_⟩
    have hrun := hbrings M P rest st tr hP taken hb
    simp only [Expr.evaluate, M.truth_ofBool]
    cases hv : M.truth (operand.evaluate M tr).1 <;> cases sense <;> simpa [hv] using hrun

theorem Expr.computes_ifExp {line : UInt32} {test body orelse : Expr} (ht : test.Computes o)
    (hb : body.Computes o) (he : orelse.Computes o) :
    (Expr.ifExp line test body orelse).Computes o := by
  intro d n m log dest hemits hdest
  obtain ⟨_, rfl, hsteps⟩ := hemits.of_task
  obtain ⟨_, _, k, rfl, htest, hthen⟩ := hsteps.of_run
  obtain ⟨_, _, k', rfl, hbody, hjump⟩ := hthen.of_run
  obtain ⟨_, rfl, hnext⟩ := hjump.of_jump
  obtain ⟨_, rfl, helse⟩ := hnext.of_label
  obtain ⟨_, _, _, rfl, horelse, hdone⟩ := helse.of_run
  obtain ⟨_, rfl, hnil⟩ := hdone.of_label
  obtain ⟨rfl, -⟩ := hnil.of_nil
  have hk : n + 2 ≤ k := htest.le
  have hk' := hbody.le
  obtain ⟨plt, hshowst, hbringst⟩ := ht htest (Nat.lt_succ_self (n + 1))
  obtain ⟨plb, hshowsb, hbringsb⟩ := hb hbody (hdest.mono (by omega))
  obtain ⟨ple, hshowse, hbringse⟩ := he horelse (hdest.mono (by omega))
  refine ⟨_, (Plot.shows_items o _).append (hshowst.append (hshowsb.append
    ((Plot.shows_items o [_, _]).append (hshowse.append (Plot.shows_items o [_]))))), ?_⟩
  intro V M P rest st tr hP
  simp only [List.append_assoc, List.map_cons, List.map_nil, List.cons_append,
    List.nil_append] at hP ⊢
  have htestP := (List.suffix_append _ _).trans hP
  have hbodyP := (List.suffix_append _ _).trans htestP
  have hnextP := (List.suffix_cons _ _).trans ((List.suffix_append _ _).trans hbodyP)
  have helseP := (List.suffix_cons _ _).trans hnextP
  have hdoneP := (List.suffix_append _ _).trans helseP
  refine .of_runs ?_ ((Plot.run_allocs _).trans (hbringst M P _ st tr htestP _ hnextP))
  simp only [Expr.evaluate]
  cases hv : M.truth (test.evaluate M tr).1 with
  | true =>
    exact (hbringsb M P _ st _ hbodyP).and_past fun st tr => Plot.run_jump rfl hdoneP
  | false =>
    exact (hbringse M P _ st _ helseP).and_past fun st tr => Plot.run_label n

/-- The operands of a boolean operation that is to be pushed: the value of the one that decides is on
the stack behind the label `done`. -/
theorem exists_plot_operands {op : BoolOp} {done : BlockId} {es : List Expr} (hes : es ≠ [])
    (h : ∀ e ∈ es, e.Computes o) {d : Draft} {n m : Nat} {log : Script}
    (hemits : Emits o d [.run (.operands op.jumpOpcode done es)] n log m) :
    ∃ pl : Plot, pl.Shows o TakesOperands log ∧ ∀ {V : Type} (M : Meaning V) (P rest : Plot)
      (st : List (Cell V)) (tr : List Expr), pl ++ .item (.label done) :: rest <:+ P →
      P.Delivers M .push ⟨pl ++ .item (.label done) :: rest, st, tr⟩ rest st
        (evaluateOperands M op es tr) := by
  induction es generalizing n m log with
  | nil => exact absurd rfl hes
  | cons e es ih =>
    have he : e.Computes o := h e List.mem_cons_self
    obtain ⟨_, rfl, hsteps⟩ := hemits.of_task
    cases es with
    | nil =>
      obtain ⟨pl, hshows, hbrings⟩ := he hsteps trivial
      refine ⟨pl, hshows, fun M P rest st tr hP => ?_⟩
      exact (hbrings M P _ st tr hP).and_past fun st tr => Plot.run_label done
    | cons e' es =>
      obtain ⟨_, _, _, rfl, hvalue, hjump⟩ := hsteps.of_run
      obtain ⟨_, rfl, hblock⟩ := hjump.of_jump
      obtain ⟨_, _, rfl, hrest⟩ := hblock.of_block
      obtain ⟨ple, hshowse, hbringse⟩ := he hvalue trivial
      obtain ⟨pl, hshows, hbrings⟩ :=
        ih nofun (fun e he => h e (List.mem_cons_of_mem _ he)) hrest
      refine ⟨_, hshowse.append ((Plot.shows_items o [_, _, _]).append hshows), ?_⟩
      intro V M P rest st tr hP
      simp only [List.append_assoc, List.map_cons, List.map_nil, List.cons_append,
        List.nil_append] at hP ⊢
      have hrestP := (List.suffix_append [_, _, _] _).trans ((List.suffix_append _ _).trans hP)
      have hdoneP := (List.suffix_append _ _).trans hrestP
      refine .of_runs ?_ (hbringse M P _ st tr hP)
      simp only [evaluateOperands]
      by_cases hv : M.truth (e.evaluate M tr).1 = decide (op = .or)
      · rw [if_pos hv]
        refine Plot.run_jump ?_ hdoneP
        cases op <;> simp_all [BoolOp.jumpOpcode, Meaning.jumps]
      · have hfalls : M.falls op.jumpOpcode 0 (.value (e.evaluate M tr).1 :: st) = some st := by
          cases op <;> simp_all [BoolOp.jumpOpcode, Meaning.falls]
        rw [if_neg hv]
        refine .of_runs (hbrings M P rest st _ hrestP) ?_
        exact (Plot.run_past hfalls).trans ((Plot.run_allocs 1).trans (Plot.run_label _))

/-- The operands of a boolean operation that is a condition. Where an operand decides it control goes
behind the label `decided`, which is where the condition leads if it is decided so. -/
theorem exists_plot_tests {op : BoolOp} {decided target : BlockId} {sense : Bool} {es : List Expr}
    (hes : es ≠ []) (h : ∀ e ∈ es, e.Computes o) {d : Draft} {n m : Nat} {log : Script}
    (hemits : Emits o d [.run (.tests decided (decide (op = .or)) target sense es)] n log m)
    (hdecided : decided < n) (htarget : target < n) :
    ∃ pl : Plot, pl.Shows o TakesOperands log ∧ ∀ {V : Type} (M : Meaning V)
      (P rest past taken early : Plot) (st : List (Cell V)) (tr : List Expr), pl ++ rest <:+ P → .item (.label target) :: taken <:+ P →
      .item (.label decided) :: early <:+ P →
      early = (if decide (op = .or) = sense then taken else past) →
      (∀ st tr, Runs M P.course ⟨rest, st, tr⟩ ⟨past, st, tr⟩) →
      Runs M P.course ⟨pl ++ rest, st, tr⟩
        ⟨if M.truth (evaluateOperands M op es tr).1 = sense then taken else past, st,
          (evaluateOperands M op es tr).2⟩ := by
  induction es generalizing n m log with
  | nil => exact absurd rfl hes
  | cons e es ih =>
    have he : e.Computes o := h e List.mem_cons_self
    obtain ⟨_, rfl, hsteps⟩ := hemits.of_task
    cases es with
    | nil =>
      obtain ⟨pl, hshows, hbrings⟩ := he hsteps htarget
      refine ⟨pl, hshows, fun M P rest past taken early st tr hP hb _ _ hpast => ?_⟩
      exact (hbrings M P rest st tr hP).and_past hpast taken hb
    | cons e' es =>
      obtain ⟨_, _, _, rfl, htest, hrest⟩ := hsteps.of_run
      have hle := htest.le
      obtain ⟨ple, hshowse, hbringse⟩ := he htest hdecided
      obtain ⟨pl, hshows, hbrings⟩ := ih nofun (fun e he => h e (List.mem_cons_of_mem _ he)) hrest
        (Nat.lt_of_lt_of_le hdecided hle) (Nat.lt_of_lt_of_le htarget hle)
      refine ⟨_, hshowse.append hshows, ?_⟩
      intro V M P rest past taken early st tr hP hb hd hearly hpast
      simp only [List.append_assoc] at hP ⊢
      have hrestP := (List.suffix_append _ _).trans hP
      refine .trans (hbringse M P _ st tr hP early hd) ?_
      by_cases hv : M.truth (e.evaluate M tr).1 = decide (op = .or)
      · have heval : evaluateOperands M op (e :: e' :: es) tr = e.evaluate M tr := if_pos hv
        rw [heval, if_pos hv, hv, hearly]
      · have heval : evaluateOperands M op (e :: e' :: es) tr =
            evaluateOperands M op (e' :: es) (e.evaluate M tr).2 := if_neg hv
        rw [heval, if_neg hv]
        exact hbrings M P rest past taken early st _ hrestP hb hd hearly hpast

theorem Expr.computes_boolOp {line : UInt32} {op : BoolOp} {values : List Expr} (hne : values ≠ [])
    (h : ∀ e ∈ values, e.Computes o) : (Expr.boolOp line op values).Computes o := by
  intro d n m log dest hemits hdest
  obtain ⟨_, rfl, hsteps⟩ := hemits.of_task
  cases dest with
  | push =>
    obtain ⟨_, _, _, rfl, hoperands, hdone⟩ := hsteps.of_run
    obtain ⟨_, rfl, hnil⟩ := hdone.of_label
    obtain ⟨rfl, -⟩ := hnil.of_nil
    obtain ⟨pl, hshows, hbrings⟩ := exists_plot_operands hne h hoperands
    refine ⟨_, (Plot.shows_items o _).append (hshows.append (Plot.shows_items o [_])), ?_⟩
    intro V M P rest st tr hP
    simp only [List.append_assoc, List.map_cons, List.map_nil, List.cons_append,
      List.nil_append] at hP ⊢
    exact (hbrings M P rest st tr ((List.suffix_append _ _).trans hP)).of_runs (Plot.run_allocs _)
  | jump b sense =>
    by_cases hsense : decide (op = .or) = sense
    · simp only [Task.labelCount, Expr.labelCount, Task.steps, Expr.steps, if_pos hsense] at hsteps ⊢
      obtain ⟨pl, hshows, hbrings⟩ := exists_plot_tests hne h hsteps hdest hdest
      refine ⟨pl, hshows, fun M P rest st tr hP taken hb => ?_⟩
      exact hbrings M P rest rest taken taken st tr hP hb hb (if_pos hsense).symm fun _ _ => .refl
    · have hb : n ≠ b := Nat.ne_of_gt hdest
      simp only [Task.labelCount, Expr.labelCount, Task.steps, Expr.steps, if_neg hsense,
        if_neg hb] at hsteps ⊢
      obtain ⟨_, _, _, rfl, htests, hlabel⟩ := hsteps.of_run
      obtain ⟨_, rfl, hnil⟩ := hlabel.of_label
      obtain ⟨rfl, -⟩ := hnil.of_nil
      obtain ⟨pl, hshows, hbrings⟩ := exists_plot_tests hne h htests (Nat.lt_succ_self n)
        (Nat.lt_succ_of_lt hdest)
      refine ⟨_, (Plot.shows_items o _).append (hshows.append (Plot.shows_items o [_])), ?_⟩
      intro V M P rest st tr hP taken hb
      simp only [List.append_assoc, List.map_cons, List.map_nil, List.cons_append,
        List.nil_append] at hP ⊢
      have hplP := (List.suffix_append _ _).trans hP
      have hlabelP := (List.suffix_append _ _).trans hplP
      refine (Plot.run_allocs _).trans ?_
      exact hbrings M P _ rest taken rest st tr hplP hb hlabelP (if_neg hsense).symm fun _ _ =>
        Plot.run_label n

/-- The operands of a comparison chain behind `v`. Either the last comparison is come to and its
result stands on the stack, or one before it fails and control goes behind the label `cleanup`, with
its right operand on the stack and its result if that is to be pushed. -/
theorem exists_plot_links {dest : Dest} {cleanup : BlockId} {last : CmpOp} {ops : List CmpOp}
    {es : List Expr} (hlen : ops.length + 1 = es.length) (h : ∀ e ∈ es, e.Computes o) {d : Draft}
    {n m : Nat} {log : Script}
    (hemits : Emits o d [.run (.links dest.linkOpcode cleanup last ops es)] n log m) :
    ∃ pl : Plot, pl.Shows o TakesOperands log ∧ ∀ {V : Type} (M : Meaning V) (P rest past : Plot)
      (st : List (Cell V)) (tr : List Expr) (v : V) (r : V × List Expr), pl ++ rest <:+ P →
      .item (.label cleanup) :: past <:+ P → r = evaluateLinks M v (ops ++ [last]) es tr →
      Runs M P.course ⟨pl ++ rest, .value v :: st, tr⟩ ⟨rest, .value r.1 :: st, r.2⟩ ∨
      M.truth r.1 = false ∧ ∃ w, Runs M P.course ⟨pl ++ rest, .value v :: st, tr⟩
        ⟨past, dest.kept r.1 (.value w :: st), r.2⟩ := by
  induction es generalizing ops n m log with
  | nil => cases hlen
  | cons e es ih =>
    have he : e.Computes o := h e List.mem_cons_self
    obtain ⟨_, rfl, hsteps⟩ := hemits.of_task
    cases es with
    | nil =>
      obtain rfl : ops = [] := List.length_eq_zero_iff.mp (Nat.succ.inj hlen)
      obtain ⟨_, _, _, rfl, hvalue, hcompare⟩ := hsteps.of_run
      obtain ⟨_, rfl, hnil⟩ := hcompare.of_emit
      obtain ⟨rfl, -⟩ := hnil.of_nil
      obtain ⟨ple, hshows, hbrings⟩ := he hvalue trivial
      refine ⟨_, hshows.append (Plot.shows_items o _), ?_⟩
      rintro V M P rest past st tr v r hP - rfl
      rw [List.append_assoc] at hP ⊢
      exact .inl (.trans (hbrings M P _ _ tr hP) (Plot.run_emit (M.falls_compare last _ _ _)))
    | cons e' es =>
      cases ops with
      | nil => cases Nat.succ.inj hlen
      | cons op ops =>
        obtain ⟨_, _, _, rfl, hvalue, hdup⟩ := hsteps.of_run
        obtain ⟨_, rfl, hrot⟩ := hdup.of_emit
        obtain ⟨_, rfl, hcompare⟩ := hrot.of_emit
        obtain ⟨_, rfl, hleave⟩ := hcompare.of_emit
        obtain ⟨_, rfl, hblock⟩ := hleave.of_jump
        obtain ⟨_, _, rfl, hrest⟩ := hblock.of_block
        obtain ⟨ple, hshowse, hbringse⟩ := he hvalue trivial
        obtain ⟨pl, hshows, hbrings⟩ := ih (Nat.succ.inj hlen)
          (fun e he => h e (List.mem_cons_of_mem _ he)) hrest
        refine ⟨_, hshowse.append ((Plot.shows_items o [_, _, _, _, _, _]).append hshows), ?_⟩
        intro V M P rest past st tr v r hP hpast hr
        simp only [List.append_assoc, List.map_cons, List.map_nil, List.cons_append,
          List.nil_append] at hP ⊢
        have hrestP := (List.suffix_append [_, _, _, _, _, _] _).trans
          ((List.suffix_append _ _).trans hP)
        have hstart := (hbringse M P _ (.value v :: st) tr hP).trans ((Plot.run_emit rfl).trans
          ((Plot.run_emit rfl).trans (Plot.run_emit (M.falls_compare op _ _ _))))
        by_cases hv : M.truth (M.compare op v (e.evaluate M tr).1) = true
        · have heval : r = evaluateLinks M (e.evaluate M tr).1 (ops ++ [last]) (e' :: es)
              (e.evaluate M tr).2 := by
            rw [hr]
            exact if_neg (by simp [hv])
          have hpass := hstart.trans ((Plot.run_past (dest.falls_link hv _)).trans
            ((Plot.run_allocs 1).trans (Plot.run_label _)))
          rcases hbrings M P rest past st _ _ r hrestP hpast heval with hruns | ⟨hfalse, w, hruns⟩
          · exact .inl (hpass.trans hruns)
          · exact .inr ⟨hfalse, w, hpass.trans hruns⟩
        · have heval : r = (M.compare op v (e.evaluate M tr).1, (e.evaluate M tr).2) := by
            rw [hr]
            exact if_pos (by simp [hv])
          have hfalse := Bool.eq_false_iff.mpr hv
          subst heval
          exact .inr ⟨hfalse, _, hstart.trans (Plot.run_jump (dest.jumps_link hfalse _) hpast)⟩

/-- A comparison chain behind its first operand, with its end: control comes to what is behind from
the last comparison, and by way of the label `cleanup` from one that failed before. -/
theorem exists_plot_chain (dest : Dest) {cleanup : BlockId} {last : CmpOp} {ops all : List CmpOp}
    {es : List Expr} (hall : ops ++ [last] = all) (hlen : all.length = es.length)
    (h : ∀ e ∈ es, e.Computes o) {d : Draft} {n m : Nat} {log : Script}
    (hemits : Emits o d (.run (.links dest.linkOpcode cleanup last ops es) ::
      (dest.testSteps ++ [.run (.chainEnd cleanup dest)])) n log m) :
    ∃ pl : Plot, pl.Shows o TakesOperands log ∧ ∀ {V : Type} (M : Meaning V) (P rest : Plot)
      (st : List (Cell V)) (tr : List Expr) (v : V), pl ++ rest <:+ P →
      P.Delivers M dest ⟨pl ++ rest, .value v :: st, tr⟩ rest st (evaluateLinks M v all es tr) := by
  subst hall
  have hlen : ops.length + 1 = es.length := by
    rw [← hlen, List.length_append, List.length_singleton]
  obtain ⟨_, _, _, rfl, hlinks, htail⟩ := hemits.of_run
  obtain ⟨tests, _, _, rfl, htests, hend⟩ := htail.of_append
  obtain ⟨_, rfl, hsteps⟩ := hend.of_task
  obtain ⟨_, rfl, hcleanup⟩ := hsteps.of_jump
  obtain ⟨_, rfl, hjoin⟩ := hcleanup.of_label
  obtain ⟨drops, _, _, rfl, hdrops, hdone⟩ := Emits.of_append hjoin
  obtain ⟨_, rfl, hnil⟩ := hdone.of_label
  obtain ⟨rfl, -⟩ := hnil.of_nil
  obtain ⟨pl, hshows, hbrings⟩ := exists_plot_links hlen h hlinks
  refine ⟨_, hshows.append ((Plot.shows_items o tests).append ((Plot.shows_items o _).append
    ((Plot.shows_items o [_, _]).append ((Plot.shows_items o drops).append
      (Plot.shows_items o [_]))))), ?_⟩
  intro V M P rest st tr v hP
  simp only [List.append_assoc, List.map_cons, List.map_nil, List.cons_append,
    List.nil_append] at hP ⊢
  have htestsP := (List.suffix_append _ _).trans hP
  have hendP := (List.suffix_append _ _).trans htestsP
  have hcleanupP := (List.suffix_cons _ _).trans ((List.suffix_append _ _).trans hendP)
  have hdoneP := (List.suffix_append _ _).trans ((List.suffix_cons _ _).trans hcleanupP)
  rcases hbrings M P _ _ st tr v _ hP hcleanupP rfl with hruns | ⟨hfalse, w, hruns⟩
  · refine ((Plot.delivers_test htests).of_runs hruns).and_past fun st tr => ?_
    exact (Plot.run_allocs _).trans (Plot.run_jump rfl hdoneP)
  · refine ((Plot.delivers_cleanup hdrops hfalse).of_runs hruns).and_past fun st tr => ?_
    exact Plot.run_label _

theorem Expr.computes_compare {line : UInt32} {left : Expr} {ops : List CmpOp}
    {comparators : List Expr} (hne : ops ≠ []) (hlen : ops.length = comparators.length)
    (hleft : left.Computes o) (h : ∀ e ∈ comparators, e.Computes o) :
    (Expr.compare line left ops comparators).Computes o := by
  intro d n m log dest hemits hdest
  obtain ⟨log, rfl, hsteps⟩ := hemits.of_task
  match ops, comparators with
  | [op], [e] =>
    have hsteps : Emits o d ([Step.value left, Step.value e, compareStep op] ++ dest.testSteps) n
        log m := by
      cases dest <;> exact hsteps
    obtain ⟨_, _, _, rfl, hvalue, hright⟩ := hsteps.of_run
    obtain ⟨_, _, _, rfl, hvalue', hcompare⟩ := hright.of_run
    obtain ⟨tests, rfl, htests⟩ := hcompare.of_emit
    obtain ⟨pl, hshows, hbrings⟩ := hleft hvalue trivial
    obtain ⟨pl', hshows', hbrings'⟩ := h e List.mem_cons_self hvalue' trivial
    refine ⟨_, hshows.append (hshows'.append ((Plot.shows_items o [_]).append
      (Plot.shows_items o tests))), ?_⟩
    intro V M P rest st tr hP
    simp only [List.append_assoc, List.map_cons, List.map_nil, List.cons_append,
      List.nil_append] at hP ⊢
    refine (Plot.delivers_test htests).of_runs ((hbrings M P _ st tr hP).trans
      ((hbrings' M P _ _ _ ((List.suffix_append _ _).trans hP)).trans (Plot.run_emit ?_)))
    exact M.falls_compare op _ _ _
  | op :: op' :: ops, comparators =>
    have hchain : (op :: (op' :: ops).dropLast) ++ [(op' :: ops).getLast (List.cons_ne_nil _ _)] =
        op :: op' :: ops := congrArg (op :: ·) (List.dropLast_append_getLast _)
    cases dest with
    | push =>
      have hsteps : Emits o d [Step.value left, .run (.chain ((op' :: ops).getLast
          (List.cons_ne_nil _ _)) (op :: (op' :: ops).dropLast) comparators)] n log m := by
        simpa [Task.steps, Expr.steps, Expr.valueSteps, Task.labelCount, Expr.labelCount,
          Dest.testSteps, List.getLast?_eq_some_getLast] using hsteps
      obtain ⟨_, _, _, rfl, hvalue, hrun⟩ := hsteps.of_run
      obtain ⟨_, rfl, hrest⟩ := hrun.of_task
      obtain ⟨pl, hshows, hbrings⟩ := hleft hvalue trivial
      obtain ⟨pl', hshows', hbrings'⟩ := exists_plot_chain .push hchain hlen h hrest
      refine ⟨_, hshows.append ((Plot.shows_items o _).append hshows'), ?_⟩
      intro V M P rest st tr hP
      rw [List.append_assoc, List.append_assoc] at hP ⊢
      have hrestP := (List.suffix_append _ _).trans ((List.suffix_append _ _).trans hP)
      exact (hbrings' M P rest st _ _ hrestP).of_runs
        ((hbrings M P _ st tr hP).trans (Plot.run_allocs _))
    | jump b sense =>
      obtain ⟨_, _, _, rfl, hvalue, hrest⟩ := hsteps.of_run
      obtain ⟨pl, hshows, hbrings⟩ := hleft hvalue trivial
      obtain ⟨pl', hshows', hbrings'⟩ := exists_plot_chain (.jump b sense) hchain hlen h hrest
      refine ⟨_, (Plot.shows_items o _).append (hshows.append hshows'), ?_⟩
      intro V M P rest st tr hP
      rw [List.append_assoc, List.append_assoc] at hP ⊢
      have hleftP := (List.suffix_append _ _).trans hP
      have hrestP := (List.suffix_append _ _).trans hleftP
      exact (hbrings' M P rest st _ _ hrestP).of_runs
        ((Plot.run_allocs _).trans (hbrings M P _ st tr hleftP))

/-- The code of every condition brings its value to where it is to be. -/
theorem Expr.IsCondition.computes {e : Expr} (h : e.IsCondition) : e.Computes o := by
  induction h with
  | boolOp hne _ ih => exact computes_boolOp hne ih
  | not _ ih => exact computes_not ih
  | ifExp _ _ _ iht ihb ihe => exact computes_ifExp iht ihb ihe
  | compare hne hlen _ _ ihl ih => exact computes_compare hne hlen ihl ih
  | operand hop hfits => exact computes_operand hop hfits

end

/-- Wordcode of the plot `P` that is run from where control comes to from `pt` brings a value to its
destination. It gets to where control comes to from `rest`, or from behind the label of the
destination if that is where the value leads. -/
def Plot.Executes {V : Type} (P : Plot) (code : List Decoded) (pos : Nat → Nat) (M : Meaning V)
    (dest : Dest) (pt rest : Plot) (f : List Expr → V × List Expr) : Prop :=
  ∀ (j : Nat) (st : List (Cell V)) (tr : List Expr), P.script.At code pos (script pt) j →
    match dest with
    | .push => ∃ j', P.script.At code pos (script rest) j' ∧
      Runs M (P.wordcourse code pos) ⟨j, st, tr⟩ ⟨j', .value (f tr).1 :: st, (f tr).2⟩
    | .jump b sense => ∀ taken : Plot, .item (.label b) :: taken <:+ P → ∃ j',
      P.script.At code pos (script (if M.truth (f tr).1 = sense then taken else rest)) j' ∧
      Runs M (P.wordcourse code pos) ⟨j, st, tr⟩ ⟨j', st, (f tr).2⟩

theorem Plot.Brings.executes {V : Type} {M : Meaning V} {pl P rest : Plot} {dest : Dest}
    {f : List Expr → V × List Expr} (h : pl.Brings M dest f) {o : Options} {code : List Decoded}
    {pos : Nat → Nat} (hP : P.Rendered o code pos) (hpl : pl ++ rest <:+ P) :
    P.Executes code pos M dest (pl ++ rest) rest f := by
  intro j st tr hj
  cases dest with
  | push =>
    obtain ⟨_, j', hj', hruns⟩ := hP.runs (h P rest st tr hpl) hpl hj
    exact ⟨j', hj', hruns⟩
  | jump b sense =>
    intro taken hb
    obtain ⟨_, j', hj', hruns⟩ := hP.runs (h P rest st tr hpl taken hb) hpl hj
    exact ⟨j', hj', hruns⟩

/-- The code of a condition, in whatever scope it is written and wherever its value is to be, brings
the value that short-circuiting gives to its destination; the operands are taken as they are. This is
so of the script and of the wordcode of every scope that goes on with it. The operands are evaluated
from left to right, each at most once. -/
theorem lower_condition {o : Options} {e : Expr} (he : e.IsCondition) {dest : Dest} {s s' : Session}
    (hlower : e.lower o.filename dest s = .ok () s') (hdest : dest.Before s.draft.blocks.size) :
    ∃ pl : Plot, s.draft.Writes pl.script s'.draft ∧ pl.Takes o TakesOperands ∧
      Emits o s.draft [.run (.expr e dest)] s.draft.blocks.size pl.script s'.draft.blocks.size ∧
      (∀ {V : Type} (M : Meaning V), pl.Brings M dest (e.evaluate M) ∧
        ∀ tr, Expr.Evaluates e.leaves tr (e.evaluate M tr).2) ∧
      ∀ {name qualname : String} {t : ScopeTable} {serial firstLine : UInt32}
        {nested addNone : Bool} {before after : Script} {d : Draft} {c : CodeObject},
        (Draft.ofTable name qualname t serial firstLine nested).Writes before s.draft →
        s'.draft.Writes after d → Script.Sound d.blocks.size (before ++ pl.script ++ after) →
        d.finish addNone o.filename = .ok c →
        ∃ (P rest : Plot) (tail : Script) (code : List Decoded) (pos : Nat → Nat),
          P = before.map .item ++ (pl ++ rest) ∧ rest.script = after ++ tail ∧
          decode c.code = .ok code ∧ P.Rendered o code pos ∧
          ∀ {V : Type} (M : Meaning V),
            P.Executes code pos M dest (pl ++ rest) rest (e.evaluate M) := by
  obtain ⟨-, log, hemits, hruns⟩ := (Expr.lowers o e s.draft dest).ok (.refl _) hlower
  have hw := hruns.writes
  obtain ⟨pl, ⟨rfl, htakes⟩, hbrings⟩ := he.computes hemits hdest
  refine ⟨pl, hw, htakes, hemits, fun M => ⟨hbrings M, Expr.evaluates_leaves e⟩, ?_⟩
  intro name qualname t serial firstLine nested addNone before after d c hbefore hafter hsound hc
  have hscript : Plot.script (before.map .item ++ pl ++ after.map .item) =
      before ++ pl.script ++ after := by
    simp only [Plot.script_append, Plot.script_map_item]
  have hall := ((Plot.takes_map_item before).append htakes).append (Plot.takes_map_item after)
  obtain ⟨tail, code, pos, hdecode, hP, -⟩ :=
    Plot.exists_rendered (hscript ▸ (hbefore.trans hw).trans hafter) (hscript ▸ hsound) hall hc
  have hplot : before.map .item ++ pl ++ after.map .item ++ tail.map .item =
      before.map .item ++ (pl ++ (after ++ tail).map Piece.item) := by
    simp only [List.append_assoc, List.map_append]
  rw [hplot] at hP
  exact ⟨_, _, tail, code, pos, rfl, Plot.script_map_item _, hdecode, hP,
    fun M => (hbrings M).executes hP (List.suffix_append _ _)⟩

/-- A comparison chain that is negated, as in `if not a < b < c`. -/
def negatedChain : Expr :=
  .unaryOp 1 .not (.compare 1 (.name 1 "a" .load) [.lt, .lt]
    [.name 1 "b" .load, .name 1 "c" .load])

theorem isCondition_negatedChain : negatedChain.IsCondition := by
  refine .not (.compare nofun rfl (.operand rfl .name) ?_)
  simp only [List.forall_mem_cons]
  exact ⟨.operand rfl .name, .operand rfl .name, nofun⟩

/-- The chain as the value of a program: its wordcode pushes the value. -/
theorem negatedChain_executes :
    ∃ c, compile (.expression negatedChain) .module {} = .ok c ∧
      ∃ (P rest : Plot) (code : List Decoded) (pos : Nat → Nat), decode c.code = .ok code ∧
        P.Rendered {} code pos ∧
        ∀ {V : Type} (M : Meaning V), P.Executes code pos M .push P rest (negatedChain.evaluate M) := by
  have hok : (compile (.expression negatedChain) .module {}).isOk = true := by decide +kernel
  cases hc : compile (.expression negatedChain) .module {} with
  | error e =>
    rw [hc] at hok
    cases hok
  | ok c =>
    obtain ⟨-, s, hrun, hfinish⟩ := of_compile_run hc
    obtain ⟨pl, hw, -, hemits, -, hunit⟩ := lower_condition isCondition_negatedChain hrun trivial
    have hsound : Script.Sound s.draft.blocks.size ([] ++ pl.script ++ []) := by
      rw [List.nil_append, List.append_nil]
      exact hemits.sound (closed_value _) hw rfl
    obtain ⟨P, rest, tail, code, pos, hP, _, hdecode, hrendered, hexec⟩ :=
      hunit .nil .nil hsound hfinish
    refine ⟨c, rfl, P, rest, code, pos, hdecode, hrendered, fun M => ?_⟩
    exact hP ▸ hexec M

end Wordcode
