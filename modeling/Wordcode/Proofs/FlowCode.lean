import Wordcode.Proofs.Execution
import Wordcode.Proofs.Flow

/-!
# Code of control flow

Where control gets that leaves frames, and the code of branches, loops and `try` statements: it does
what the statement does if the code of its parts does so.
-/

set_option autoImplicit false

namespace Wordcode

/-- A stack that has what the frames keep on it. There is no handler that runs among them. -/
def Frame.Stacked {V : Type} : List Frame → List (Cell V) → Prop
  | [], _ => True
  | .forLoop .. :: fs, _ :: st | .popValue :: fs, _ :: st => Stacked fs st
  | .whileLoop .. :: fs, st | .tryExcept :: fs, st | .finallyTry _ :: fs, st => Stacked fs st
  | _, _ => False

/-- Where control gets when it leaves frames, and what has been evaluated by then. -/
inductive Landing (V : Type) where
  /-- Behind a label, with a stack. -/
  | label (b : BlockId) (st : List (Cell V)) (tr : List Expr)
  | return (r : Result V) (tr : List Expr)
  /-- A final body on the way is broken off. -/
  | timeout (tr : List Expr)
  | nowhere

/-- Where control gets that leaves frames, which have the stack `st`, with an outcome. On the way it
runs final bodies, which may have another outcome. -/
def Frame.landing {V : Type} (M : Meaning V) (fuel : Nat) :
    List Frame → List (Cell V) → Outcome V → List Expr → Landing V
  | _, _, .timeout, tr => .timeout tr
  | [], _, .returns r, tr => .return r tr
  | .whileLoop start _ :: _, st, .continues, tr | .forLoop start _ :: _, st, .continues, tr =>
    .label start st tr
  | .whileLoop _ exit :: _, st, .breaks, tr | .forLoop _ exit :: _, _ :: st, .breaks, tr =>
    .label exit st tr
  | .whileLoop .. :: fs, st, out, tr | .tryExcept :: fs, st, out, tr
  | .forLoop .. :: fs, _ :: st, out, tr | .popValue :: fs, _ :: st, out, tr =>
    landing M fuel fs st out tr
  | .finallyTry body :: fs, st, out, tr =>
    let (out, tr) := Effect.finish (Stmt.execAll M fuel body) out tr
    landing M fuel fs st out tr
  | _, _, _, _ => .nowhere

/-- The cell stands for what a function returns. -/
def Result.Shown {V : Type} (P : Plot) : Result V → Cell V → Prop
  | .value v, x => x = .value v
  | .constant c, x => ∃ arg, x = .constant arg ∧ .item (.load arg c) ∈ P

section

variable {V : Type} (P : Plot) (M : Meaning V)

/-- Control gets from `c` to where it is to. -/
def Plot.Lands (c : Config Plot V) : Landing V → Prop
  | .label b st tr => ∀ pt : Plot, .item (.label b) :: pt <:+ P → Runs M P.course c ⟨pt, st, tr⟩
  | .return r tr =>
    ∃ c' x, Runs M P.course c c' ∧ P.course.Returns c' x ∧ c'.trace = tr ∧ r.Shown P x
  | .timeout tr => ∃ c', Runs M P.course c c' ∧ c'.trace = tr
  | .nowhere => False

/-- Control gets from `c` to `rest`, or leaves the frames if it is to end otherwise. -/
def Plot.Ends (fuel : Nat) (frames : List Frame) (st : List (Cell V)) (rest : Plot)
    (c : Config Plot V) (r : Outcome V × List Expr) : Prop :=
  match r with
  | (.normal, tr) => Runs M P.course c ⟨rest, st, tr⟩
  | (out, tr) => P.Lands M c (Frame.landing M fuel frames st out tr)

/-- Control that goes through a part of a plot, written within the frames, does what `f` does. -/
def Plot.Performs (pl : Plot) (fuel : Nat) (frames : List Frame) (f : Effect V) : Prop :=
  ∀ (P rest : Plot) (st : List (Cell V)) (tr : List Expr), pl ++ rest <:+ P →
    Frame.Stacked frames st → P.Ends M fuel frames st rest ⟨pl ++ rest, st, tr⟩ (f tr)

end

section

variable {V : Type} {P rest : Plot} {M : Meaning V} {fuel : Nat} {frames : List Frame}
  {st : List (Cell V)} {out : Outcome V} {tr : List Expr} {c c' : Config Plot V}
  {r : Outcome V × List Expr}

theorem Plot.ends_timeout : P.Ends M fuel frames st rest c (.timeout, tr) ↔
    ∃ c', Runs M P.course c c' ∧ c'.trace = tr := by
  cases frames <;> rfl

theorem Plot.Lands.of_runs {l : Landing V} (h : P.Lands M c' l) (hc : Runs M P.course c c') :
    P.Lands M c l := by
  cases l with
  | label b st tr => exact fun pt hb => hc.trans (h pt hb)
  | «return» r tr =>
    obtain ⟨c₁, x, hruns, hrest⟩ := h
    exact ⟨c₁, x, hc.trans hruns, hrest⟩
  | timeout tr =>
    obtain ⟨c₁, hruns, htr⟩ := h
    exact ⟨c₁, hc.trans hruns, htr⟩
  | nowhere => exact h.elim

theorem Plot.Ends.of_runs (h : P.Ends M fuel frames st rest c' r) (hc : Runs M P.course c c') :
    P.Ends M fuel frames st rest c r := by
  obtain ⟨out, tr⟩ := r
  cases out with
  | normal => exact hc.trans h
  | _ => exact Lands.of_runs h hc

/-- What is behind may be passed. -/
theorem Plot.Ends.and_past {mid : Plot} (h : P.Ends M fuel frames st mid c r)
    (hmid : ∀ tr, Runs M P.course ⟨mid, st, tr⟩ ⟨rest, st, tr⟩) :
    P.Ends M fuel frames st rest c r := by
  obtain ⟨out, tr⟩ := r
  cases out with
  | normal => exact .trans h (hmid tr)
  | _ => exact h

/-- What comes next is done if control gets to it. -/
theorem Plot.Ends.seq {mid : Plot} {a b : Effect V} (h : P.Ends M fuel frames st mid c (a tr))
    (hb : ∀ tr, P.Ends M fuel frames st rest ⟨mid, st, tr⟩ (b tr)) :
    P.Ends M fuel frames st rest c (Effect.seq a b tr) := by
  unfold Effect.seq
  split
  · next tr' heq =>
    rw [heq] at h
    exact (hb tr').of_runs h
  · next hout =>
    generalize a tr = r at h hout
    obtain ⟨out, tr'⟩ := r
    cases out with
    | normal => exact (hout tr' rfl).elim
    | _ => exact h

theorem Plot.ends_of_ne_normal (h : P.Lands M c (Frame.landing M fuel frames st r.1 r.2))
    (hr : r.1 ≠ .normal) : P.Ends M fuel frames st rest c r := by
  obtain ⟨out, tr⟩ := r
  cases out with
  | normal => exact (hr rfl).elim
  | _ => exact h

/-- Nothing happens on the way out of the body of a `try` statement that has handlers. -/
theorem Plot.Ends.of_tryExcept (h : P.Ends M fuel (.tryExcept :: frames) st rest c r) :
    P.Ends M fuel frames st rest c r := by
  obtain ⟨out, tr⟩ := r
  cases out with
  | timeout => exact ends_timeout.mpr (ends_timeout.mp h)
  | _ => exact h

/-- However the body of a `try` statement ends, the final body runs. -/
theorem Plot.Ends.guarded {body : List Stmt} {mid : Plot} {a : Effect V}
    (h : P.Ends M fuel (.finallyTry body :: frames) st mid c (a tr))
    (hfinal : ∀ tr, P.Ends M fuel frames st rest ⟨mid, st, tr⟩ (Stmt.execAll M fuel body tr)) :
    P.Ends M fuel frames st rest c (Effect.guarded a (Stmt.execAll M fuel body) tr) := by
  unfold Effect.guarded
  generalize a tr = r at h
  obtain ⟨out, tr'⟩ := r
  cases out with
  | normal =>
    change P.Ends M fuel frames st rest c (Effect.finish _ .normal tr')
    rw [Effect.finish_normal]
    exact (hfinal tr').of_runs h
  | timeout => exact ends_timeout.mpr (ends_timeout.mp h)
  | breaks | continues | returns =>
    exact ends_of_ne_normal h (Effect.finish_ne_normal (by nofun) tr')

/-- The frame of a loop, with the stack that its body has and the one that is left behind it. -/
inductive Frame.Loops : Frame → BlockId → BlockId → List (Cell V) → List (Cell V) → Prop where
  | whileLoop {start exit : BlockId} {st : List (Cell V)} :
      Loops (.whileLoop start exit) start exit st st
  | forLoop {start exit : BlockId} {x : Cell V} {st : List (Cell V)} :
      Loops (.forLoop start exit) start exit (x :: st) st

/-- The body of a loop has been run. If it ends normally, or goes on with the loop, control gets to
where the next turn begins. -/
theorem Plot.Ends.turn {f : Frame} {start exit : BlockId} {inner : List (Cell V)} {mid begin : Plot}
    {a again : Effect V} (hf : f.Loops start exit inner st)
    (h : P.Ends M fuel (f :: frames) inner mid c (a tr))
    (hback : ∀ tr, Runs M P.course ⟨mid, inner, tr⟩ ⟨begin, inner, tr⟩)
    (hstart : .item (.label start) :: begin <:+ P) (hexit : .item (.label exit) :: rest <:+ P)
    (hagain : ∀ tr, P.Ends M fuel frames st rest ⟨begin, inner, tr⟩ (again tr)) :
    P.Ends M fuel frames st rest c (Effect.turn a again tr) := by
  unfold Effect.turn
  generalize a tr = r at h
  obtain ⟨out, tr'⟩ := r
  cases out with
  | normal => exact (hagain tr').of_runs (.trans h (hback tr'))
  | continues =>
    refine (hagain tr').of_runs ?_
    cases hf with
    | whileLoop => exact h begin hstart
    | forLoop => exact h begin hstart
  | breaks =>
    cases hf with
    | whileLoop => exact h rest hexit
    | forLoop => exact h rest hexit
  | returns r =>
    cases hf with
    | whileLoop => exact h
    | forLoop => exact h
  | timeout => exact ends_timeout.mpr (ends_timeout.mp h)

end

/-- Any expression may be taken as a whole. -/
abbrev TakesAll : Expr → Prop := fun _ => True

section

variable {o : Options} {d : Draft} {n m : Nat} {log : Script}

theorem exists_plot_value {e : Expr} (he : e.Fits (fun _ => True) .load)
    (h : Emits o d [.run (.expr e .push)] n log m) : ∃ pl : Plot, pl.Shows o TakesAll log ∧
      ∀ {V : Type} (M : Meaning V) (P rest : Plot) (st : List (Cell V)) (tr : List Expr),
        Runs M P.course ⟨pl ++ rest, st, tr⟩
          ⟨rest, .value (M.value tr e) :: st, tr ++ [e]⟩ := by
  obtain ⟨out, rfl, hsteps⟩ := h.of_task
  refine ⟨_, (Plot.shows_items o _).append (Plot.shows_whole trivial he ⟨_, _, _, _, hsteps⟩), ?_⟩
  intro V M P rest st tr
  rw [List.append_assoc]
  exact (Plot.run_allocs _).trans (Plot.run_value e out)

/-- The code of a test: its operands are evaluated, and the jumps among them lead where its truth
tells. -/
theorem exists_plot_branch {e : Expr} {b : BlockId} {sense : Bool} (he : e.IsCondition)
    (h : Emits o d [Step.branch e b sense] n log m) (hb : b < n) :
    ∃ pl : Plot, pl.Shows o TakesAll log ∧
      ∀ {V : Type} (M : Meaning V) (P rest taken : Plot) (st : List (Cell V)) (tr : List Expr),
        pl ++ rest <:+ P → .item (.label b) :: taken <:+ P → Runs M P.course ⟨pl ++ rest, st, tr⟩
          ⟨if M.truth (e.evaluate M tr).1 = sense then taken else rest, st,
            (e.evaluate M tr).2⟩ := by
  obtain ⟨pl, ⟨hscript, htakes⟩, hbrings⟩ := he.computes h hb
  refine ⟨pl, ⟨hscript, htakes.mono fun _ _ => trivial⟩, ?_⟩
  intro V M P rest taken st tr hP htaken
  exact hbrings M P rest st tr hP taken htaken

theorem falls_storeName {V : Type} {M : Meaning V} (d : Draft) (x : String) (arg : UInt32)
    (a : Cell V) (st : List (Cell V)) :
    M.falls (d.nameOpcode x .store) arg (a :: st) = some st := by
  unfold Draft.nameOpcode
  split <;> rfl

theorem exists_plot_store {line : UInt32} {id : String}
    (h : Emits o d [.run (.expr (.name line id .store) .push)] n log m) :
    ∃ pl : Plot, pl.Shows o TakesAll log ∧
      ∀ {V : Type} (M : Meaning V) (P rest : Plot) (x : Cell V) (st : List (Cell V))
        (tr : List Expr), Runs M P.course ⟨pl ++ rest, x :: st, tr⟩ ⟨rest, st, tr⟩ := by
  obtain ⟨_, rfl, hsteps⟩ := h.of_task
  obtain ⟨arg, _, rfl, hnil⟩ := hsteps.of_named
  obtain ⟨rfl, -⟩ := hnil.of_nil
  exact ⟨_, Plot.shows_items o _, fun M P rest x st tr =>
    Plot.run_named (falls_storeName d id arg x st)⟩

/-- The code of a construct, if it is written within the frames, does what `f` does. -/
def Task.Performs (o : Options) (t : Task) (frames : List Frame)
    (f : ∀ {V : Type}, Meaning V → Nat → Effect V) : Prop :=
  ∀ ⦃d : Draft⦄ ⦃n m : Nat⦄ ⦃log : Script⦄, Emits o d [.run t] n log m →
    ∃ pl : Plot, pl.Shows o TakesAll log ∧
      ∀ {V : Type} (M : Meaning V) (fuel : Nat), pl.Performs M fuel frames (f M fuel)

def Stmt.Performs (o : Options) (frames : List Frame) (s : Stmt) : Prop :=
  (Task.stmt frames s).Performs o frames fun M fuel => s.exec M fuel

def Stmt.AllPerform (o : Options) (frames : List Frame) (ss : List Stmt) : Prop :=
  (Task.stmts frames ss).Performs o frames fun M fuel => Stmt.execAll M fuel ss

theorem Stmt.allPerform_nil (frames : List Frame) : AllPerform o frames [] := by
  intro d n m log h
  obtain ⟨_, rfl, hsteps⟩ := h.of_task
  obtain ⟨rfl, -⟩ := hsteps.of_nil
  exact ⟨_, Plot.shows_items o _, fun M fuel P rest st tr _ _ => Plot.run_allocs 0⟩

theorem Stmt.AllPerform.cons {frames : List Frame} {s : Stmt} {ss : List Stmt}
    (hs : s.Performs o frames) (hss : AllPerform o frames ss) : AllPerform o frames (s :: ss) := by
  intro d n m log h
  obtain ⟨_, rfl, hsteps⟩ := h.of_task
  obtain ⟨_, _, _, rfl, hfirst, hrest⟩ := hsteps.of_run
  obtain ⟨pl, hshows, hpl⟩ := hs hfirst
  obtain ⟨pl', hshows', hpl'⟩ := hss hrest
  refine ⟨_, hshows.append hshows', fun M fuel P rest st tr hP hst => ?_⟩
  rw [List.append_assoc] at hP ⊢
  refine (hpl M fuel P _ st tr hP hst).seq fun tr => ?_
  exact hpl' M fuel P rest st tr ((List.suffix_append _ _).trans hP) hst

theorem Stmt.performs_pass {frames : List Frame} {line : UInt32} :
    (Stmt.pass line).Performs o frames := by
  intro d n m log h
  obtain ⟨_, rfl, hsteps⟩ := h.of_task
  obtain ⟨rfl, -⟩ := hsteps.of_nil
  exact ⟨_, Plot.shows_items o _, fun M fuel P rest st tr _ _ => Plot.run_allocs 0⟩

theorem Stmt.performs_expr {frames : List Frame} {line : UInt32} {e : Expr}
    (hconst : e.isConstant = false) (he : e.Fits (fun _ => True) .load) :
    (Stmt.expr line e).Performs o frames := by
  intro d n m log h
  obtain ⟨log, rfl, hsteps⟩ := h.of_task
  have hsteps : Emits o d [Step.value e, .simple .popTop] n log m := by
    simpa [Task.steps, Stmt.steps, Task.labelCount, Stmt.labelCount, hconst] using hsteps
  obtain ⟨_, _, _, rfl, hvalue, hpop⟩ := hsteps.of_run
  obtain ⟨_, rfl, hnil⟩ := hpop.of_emit
  obtain ⟨rfl, -⟩ := hnil.of_nil
  obtain ⟨pl, hshows, hpl⟩ := exists_plot_value he hvalue
  refine ⟨_, hshows.append (Plot.shows_items o [_]), fun M fuel P rest st tr _ _ => ?_⟩
  rw [List.append_assoc]
  exact (hpl M P _ st tr).trans (Plot.run_emit rfl)

theorem Stmt.performs_ifElse {frames : List Frame} {line : UInt32} {test : Expr}
    {body orelse : List Stmt} (ht : test.IsCondition) (hbody : AllPerform o frames body)
    (horelse : AllPerform o frames orelse) :
    (Stmt.ifElse line test body orelse).Performs o frames := by
  intro d n m log h
  obtain ⟨log, rfl, hsteps⟩ := h.of_task
  cases orelse with
  | nil =>
    obtain ⟨_, _, _, rfl, htest, hrest⟩ := hsteps.of_run
    obtain ⟨_, _, _, rfl, hthen, hdone⟩ := hrest.of_run
    obtain ⟨_, rfl, hnil⟩ := hdone.of_label
    obtain ⟨rfl, -⟩ := hnil.of_nil
    obtain ⟨plt, hshowst, hplt⟩ := exists_plot_branch ht htest (Nat.lt_succ_self n)
    obtain ⟨plb, hshowsb, hplb⟩ := hbody hthen
    refine ⟨_, (Plot.shows_items o _).append (hshowst.append (hshowsb.append
      (Plot.shows_items o [_]))), fun M fuel P rest st tr hP hst => ?_⟩
    simp only [List.append_assoc, List.map_cons, List.map_nil, List.cons_append,
      List.nil_append] at hP ⊢
    have htestP := (List.suffix_append _ _).trans hP
    have hbodyP := (List.suffix_append _ _).trans htestP
    have hdoneP := (List.suffix_append _ _).trans hbodyP
    refine .of_runs ?_ ((Plot.run_allocs _).trans (hplt M P _ _ st tr htestP hdoneP))
    simp only [Stmt.exec, Effect.branch]
    cases M.truth (test.evaluate M tr).1 with
    | true => exact (hplb M fuel P _ st _ hbodyP hst).and_past fun tr => Plot.run_label _
    | false => exact Relation.ReflTransGen.refl
  | cons s ss =>
    obtain ⟨_, _, _, rfl, htest, hrest⟩ := hsteps.of_run
    obtain ⟨_, _, _, rfl, hthen, hjump⟩ := hrest.of_run
    obtain ⟨_, rfl, hnext⟩ := hjump.of_jump
    obtain ⟨_, rfl, hother⟩ := hnext.of_label
    obtain ⟨_, _, _, rfl, helse, hdone⟩ := hother.of_run
    obtain ⟨_, rfl, hnil⟩ := hdone.of_label
    obtain ⟨rfl, -⟩ := hnil.of_nil
    obtain ⟨plt, hshowst, hplt⟩ := exists_plot_branch ht htest (Nat.lt_succ_self (n + 1))
    obtain ⟨plb, hshowsb, hplb⟩ := hbody hthen
    obtain ⟨ple, hshowse, hple⟩ := horelse helse
    refine ⟨_, (Plot.shows_items o _).append (hshowst.append (hshowsb.append
      ((Plot.shows_items o [_, _]).append (hshowse.append (Plot.shows_items o [_]))))),
      fun M fuel P rest st tr hP hst => ?_⟩
    simp only [List.append_assoc, List.map_cons, List.map_nil, List.cons_append,
      List.nil_append] at hP ⊢
    have htestP := (List.suffix_append _ _).trans hP
    have hbodyP := (List.suffix_append _ _).trans htestP
    have hnextP := (List.suffix_cons _ _).trans ((List.suffix_append _ _).trans hbodyP)
    have helseP := (List.suffix_cons _ _).trans hnextP
    have hdoneP := (List.suffix_append _ _).trans helseP
    refine .of_runs ?_ ((Plot.run_allocs _).trans (hplt M P _ _ st tr htestP hnextP))
    simp only [Stmt.exec, Effect.branch]
    cases M.truth (test.evaluate M tr).1 with
    | true => exact (hplb M fuel P _ st _ hbodyP hst).and_past fun tr => Plot.run_jump rfl hdoneP
    | false => exact (hple M fuel P _ st _ helseP hst).and_past fun tr => Plot.run_label _

theorem Stmt.performs_whileLoop {frames : List Frame} {line : UInt32} {test : Expr}
    {body orelse : List Stmt} (ht : test.IsCondition)
    (hbody : ∀ start exit, AllPerform o (.whileLoop start exit :: frames) body)
    (horelse : AllPerform o frames orelse) :
    (Stmt.whileLoop line test body orelse).Performs o frames := by
  intro d n m log h
  obtain ⟨log, rfl, hsteps⟩ := h.of_task
  obtain ⟨_, rfl, hstart⟩ := hsteps.of_label
  obtain ⟨_, _, _, rfl, htest, hthen⟩ := hstart.of_run
  obtain ⟨_, _, _, rfl, hturn, hback⟩ := hthen.of_run
  obtain ⟨_, rfl, hanchor⟩ := hback.of_jump
  obtain ⟨_, rfl, hother⟩ := hanchor.of_label
  obtain ⟨_, _, _, rfl, helse, hdone⟩ := hother.of_run
  obtain ⟨_, rfl, hnil⟩ := hdone.of_label
  obtain ⟨rfl, -⟩ := hnil.of_nil
  obtain ⟨plt, hshowst, hplt⟩ := exists_plot_branch ht htest (Nat.lt_succ_self _)
  obtain ⟨plb, hshowsb, hplb⟩ := hbody _ _ hturn
  obtain ⟨ple, hshowse, hple⟩ := horelse helse
  refine ⟨_, (Plot.shows_items o _).append ((Plot.shows_items o [_]).append (hshowst.append
    (hshowsb.append ((Plot.shows_items o [_, _]).append (hshowse.append
      (Plot.shows_items o [_])))))), fun M fuel P rest st tr hP hst => ?_⟩
  simp only [List.append_assoc, List.map_cons, List.map_nil, List.cons_append,
    List.nil_append] at hP ⊢
  have hstartP := (List.suffix_append _ _).trans hP
  have htestP := (List.suffix_cons _ _).trans hstartP
  have hbodyP := (List.suffix_append _ _).trans htestP
  have hanchorP := (List.suffix_cons _ _).trans ((List.suffix_append _ _).trans hbodyP)
  have helseP := (List.suffix_cons _ _).trans hanchorP
  have hdoneP := (List.suffix_append _ _).trans helseP
  refine .of_runs ?_ ((Plot.run_allocs _).trans (Plot.run_label n))
  change P.Ends M fuel frames st rest _ (Effect.loop M test _ _ fuel tr)
  -- the turns that are left go down, not those that loops inside may take
  suffices hloop : ∀ (turns : Nat) (tr : List Expr), P.Ends M fuel frames st rest ⟨_, st, tr⟩
      (Effect.loop M test _ _ turns tr) from hloop fuel tr
  intro turns
  induction turns with
  | zero =>
    exact fun tr => Plot.ends_timeout.mpr ⟨_, .refl, rfl⟩
  | succ turns ih =>
    intro tr
    refine .of_runs ?_ (hplt M P _ _ st tr htestP hanchorP)
    simp only [Effect.loop, Effect.branch]
    cases M.truth (test.evaluate M tr).1 with
    | true =>
      exact (hplb M fuel P _ st _ hbodyP hst).turn .whileLoop
        (fun tr => Plot.run_jump rfl hstartP) hstartP hdoneP ih
    | false => exact (hple M fuel P _ st _ helseP hst).and_past fun tr => Plot.run_label _

theorem Stmt.performs_forLoop {frames : List Frame} {line line' : UInt32} {id : String}
    {iter : Expr} {body orelse : List Stmt} (hi : iter.Fits (fun _ => True) .load)
    (hbody : ∀ start exit, AllPerform o (.forLoop start exit :: frames) body)
    (horelse : AllPerform o frames orelse) :
    (Stmt.forLoop line (.name line' id .store) iter body orelse).Performs o frames := by
  intro d n m log h
  obtain ⟨log, rfl, hsteps⟩ := h.of_task
  obtain ⟨_, _, _, rfl, hiter, hget⟩ := hsteps.of_run
  obtain ⟨_, rfl, hstart⟩ := hget.of_emit
  obtain ⟨_, rfl, hfor⟩ := hstart.of_label
  obtain ⟨_, rfl, htarget⟩ := hfor.of_jump
  obtain ⟨_, _, _, rfl, hstore, hthen⟩ := htarget.of_run
  obtain ⟨_, _, _, rfl, hturn, hback⟩ := hthen.of_run
  obtain ⟨_, rfl, hcleanup⟩ := hback.of_jump
  obtain ⟨_, rfl, hother⟩ := hcleanup.of_label
  obtain ⟨_, _, _, rfl, helse, hdone⟩ := hother.of_run
  obtain ⟨_, rfl, hnil⟩ := hdone.of_label
  obtain ⟨rfl, -⟩ := hnil.of_nil
  obtain ⟨pli, hshowsi, hpli⟩ := exists_plot_value hi hiter
  obtain ⟨pls, hshowss, hpls⟩ := exists_plot_store hstore
  obtain ⟨plb, hshowsb, hplb⟩ := hbody _ _ hturn
  obtain ⟨ple, hshowse, hple⟩ := horelse helse
  refine ⟨_, (Plot.shows_items o _).append (hshowsi.append ((Plot.shows_items o [_, _, _]).append
    (hshowss.append (hshowsb.append ((Plot.shows_items o [_, _]).append
      (hshowse.append (Plot.shows_items o [_]))))))), fun M fuel P rest st tr hP hst => ?_⟩
  simp only [List.append_assoc, List.map_cons, List.map_nil, List.cons_append,
    List.nil_append] at hP ⊢
  have hstartP := (List.suffix_cons _ _).trans
    ((List.suffix_append _ _).trans ((List.suffix_append _ _).trans hP))
  have hstoreP := (List.suffix_append [_, _] _).trans hstartP
  have hbodyP := (List.suffix_append _ _).trans hstoreP
  have hcleanupP := (List.suffix_cons _ _).trans ((List.suffix_append _ _).trans hbodyP)
  have helseP := (List.suffix_cons _ _).trans hcleanupP
  have hdoneP := (List.suffix_append _ _).trans helseP
  refine .of_runs ?_ ((Plot.run_allocs _).trans ((hpli M P _ st tr).trans
    ((Plot.run_emit rfl).trans (Plot.run_label n))))
  -- by induction on the items that are left, from behind the label of the loop
  change P.Ends M fuel frames st rest _ (Effect.each _ _ (M.items (M.value tr iter)) (tr ++ [iter]))
  generalize tr ++ [iter] = tr₁
  induction M.items (M.value tr iter) generalizing tr₁ with
  | nil =>
    refine ((hple M fuel P _ st tr₁ helseP hst).of_runs (Plot.run_jump rfl hcleanupP)).and_past ?_
    exact fun tr => Plot.run_label _
  | cons x xs ih =>
    have hturn := hplb M fuel P _ (.iterator xs :: st) tr₁ hbodyP hst
    exact (hturn.of_runs ((Plot.run_past rfl).trans (hpls M P _ _ _ _))).turn .forLoop
      (fun tr => Plot.run_jump rfl hstartP) hstartP hdoneP ih

/-- The part of a `try` statement that has handlers: its body and, if that ends normally, its `else`
part. -/
theorem Task.performs_tryExcept {frames : List Frame} {body orelse : List Stmt}
    {handlers : List Handler} (hbody : Stmt.AllPerform o (.tryExcept :: frames) body)
    (horelse : Stmt.AllPerform o frames orelse) :
    (Task.tryExcept frames body handlers orelse).Performs o frames fun M fuel =>
      .seq (Stmt.execAll M fuel body) (Stmt.execAll M fuel orelse) := by
  intro d n m log h
  obtain ⟨log, rfl, hsteps⟩ := h.of_task
  obtain ⟨_, rfl, hinside⟩ := hsteps.of_jump
  obtain ⟨_, rfl, hstart⟩ := hinside.of_label
  obtain ⟨_, _, _, rfl, htried, hpop⟩ := hstart.of_run
  obtain ⟨_, rfl, hjump⟩ := hpop.of_emit
  obtain ⟨_, rfl, hexcept⟩ := hjump.of_jump
  obtain ⟨_, rfl, hhandlers⟩ := hexcept.of_label
  obtain ⟨_, _, _, rfl, -, hraise⟩ := hhandlers.of_run
  obtain ⟨_, rfl, hother⟩ := hraise.of_emit
  obtain ⟨_, rfl, hrest⟩ := hother.of_label
  obtain ⟨_, _, _, rfl, helse, hdone⟩ := hrest.of_run
  obtain ⟨_, rfl, hnil⟩ := hdone.of_label
  obtain ⟨rfl, -⟩ := hnil.of_nil
  obtain ⟨plb, hshowsb, hplb⟩ := hbody htried
  obtain ⟨ple, hshowse, hple⟩ := horelse helse
  refine ⟨_, (Plot.shows_items o _).append ((Plot.shows_items o [_, _]).append (hshowsb.append
    ((Plot.shows_items o [_, _, _]).append ((Plot.shows_items o _).append
      ((Plot.shows_items o [_, _]).append (hshowse.append (Plot.shows_items o [_]))))))),
    fun M fuel P rest st tr hP hst => ?_⟩
  simp only [List.append_assoc, List.map_cons, List.map_nil, List.cons_append,
    List.nil_append] at hP ⊢
  have hbodyP := (List.suffix_append [_, _] _).trans ((List.suffix_append _ _).trans hP)
  have hraiseP := (List.suffix_append _ _).trans
    ((List.suffix_append [_, _, _] _).trans ((List.suffix_append _ _).trans hbodyP))
  have hotherP := (List.suffix_cons _ _).trans hraiseP
  have helseP := (List.suffix_cons _ _).trans hotherP
  have hdoneP := (List.suffix_append _ _).trans helseP
  refine .of_runs ?_ ((Plot.run_allocs _).trans ((Plot.run_past rfl).trans (Plot.run_label n)))
  refine (hplb M fuel P _ st tr hbodyP hst).of_tryExcept.seq fun tr => ?_
  refine .of_runs ?_ ((Plot.run_emit rfl).trans (Plot.run_jump rfl hotherP))
  exact (hple M fuel P _ st tr helseP hst).and_past fun tr => Plot.run_label _

/-- What a `try` statement does before its final body. -/
def Task.tried (frames : List Frame) (body : List Stmt) (handlers : List Handler)
    (orelse : List Stmt) : Task :=
  if handlers.isEmpty then .stmts frames body else .tryExcept frames body handlers orelse

theorem Stmt.performs_finally {frames : List Frame} {line : UInt32} {body orelse : List Stmt}
    {handlers : List Handler} {s : Stmt} {finalbody : List Stmt}
    (htried : (Task.tried (.finallyTry (s :: finalbody) :: frames) body handlers orelse).Performs o
      (.finallyTry (s :: finalbody) :: frames) fun M fuel =>
        .seq (Stmt.execAll M fuel body) (Stmt.execAll M fuel orelse))
    (hfinal : AllPerform o frames (s :: finalbody)) :
    (Stmt.tryExcept line body handlers orelse (s :: finalbody)).Performs o frames := by
  intro d n m log h
  obtain ⟨log, rfl, hsteps⟩ := h.of_task
  obtain ⟨_, rfl, hinside⟩ := hsteps.of_jump
  obtain ⟨_, rfl, hstart⟩ := hinside.of_label
  obtain ⟨_, _, _, rfl, hbody, hpop⟩ := hstart.of_run
  obtain ⟨_, rfl, hnormal⟩ := hpop.of_emit
  obtain ⟨_, _, _, rfl, hfinally, hjump⟩ := hnormal.of_run
  obtain ⟨_, rfl, hexcept⟩ := hjump.of_jump
  obtain ⟨_, rfl, hcopy⟩ := hexcept.of_label
  obtain ⟨_, _, _, rfl, -, hraise⟩ := hcopy.of_run
  obtain ⟨_, rfl, hdone⟩ := hraise.of_emit
  obtain ⟨_, rfl, hnil⟩ := hdone.of_label
  obtain ⟨rfl, -⟩ := hnil.of_nil
  obtain ⟨plb, hshowsb, hplb⟩ := htried hbody
  obtain ⟨plf, hshowsf, hplf⟩ := hfinal hfinally
  refine ⟨_, (Plot.shows_items o _).append ((Plot.shows_items o [_, _]).append (hshowsb.append
    ((Plot.shows_items o [_]).append (hshowsf.append ((Plot.shows_items o [_, _]).append
      ((Plot.shows_items o _).append (Plot.shows_items o [_, _]))))))),
    fun M fuel P rest st tr hP hst => ?_⟩
  simp only [List.append_assoc, List.map_cons, List.map_nil, List.cons_append,
    List.nil_append] at hP ⊢
  have hbodyP := (List.suffix_append [_, _] _).trans ((List.suffix_append _ _).trans hP)
  have hfinalP := (List.suffix_cons _ _).trans ((List.suffix_append _ _).trans hbodyP)
  have hraiseP := (List.suffix_append _ _).trans
    ((List.suffix_append [_, _] _).trans ((List.suffix_append _ _).trans hfinalP))
  have hdoneP := (List.suffix_cons _ _).trans hraiseP
  refine .of_runs ?_ ((Plot.run_allocs _).trans ((Plot.run_past rfl).trans (Plot.run_label n)))
  refine (hplb M fuel P _ st tr hbodyP hst).guarded fun tr => ?_
  refine .of_runs ?_ (Plot.run_emit rfl)
  exact (hplf M fuel P _ st tr hfinalP hst).and_past fun tr => Plot.run_jump rfl hdoneP

end

end Wordcode
