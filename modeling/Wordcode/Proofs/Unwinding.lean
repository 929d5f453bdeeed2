import Wordcode.Proofs.FlowCode

/-!
# Unwinding

A statement that does not end normally leaves frames. What is to be undone for them, and the final
bodies that run on the way, is code of its own, behind which control gets to the loop that is meant
or returns. So the code of all statements of control flow does what they do.
-/

set_option autoImplicit false

namespace Wordcode

/-- The frames that are left once control has unwound them: those from the innermost loop on, or
none. -/
def Frame.unwound (toLoop : Bool) : List Frame → List Frame
  | [] => []
  | f :: fs => if toLoop && f.isLoop then f :: fs else unwound toLoop fs

theorem Frame.head?_unwound (frames : List Frame) :
    (unwound true frames).head? = frames.find? Frame.isLoop := by
  induction frames with
  | nil => rfl
  | cons f fs ih =>
    by_cases hf : f.isLoop = true
    · rw [List.find?_cons_of_pos hf, unwound, if_pos (by rw [hf]; rfl)]
      rfl
    · rw [List.find?_cons_of_neg hf, unwound, if_neg (by simpa using hf), ih]

/-- What is done to get to the innermost loop, and what is done to return. -/
def Outcome.Unwinds {V : Type} : Bool → Outcome V → Prop
  | true, .breaks | true, .continues | false, .returns _ => True
  | _, _ => False

/-- What leaving a frame takes off the stack, or off what is below a value that is to stay. -/
inductive Frame.Drops {V : Type} : Frame → List (Cell V) → List (Cell V) → Prop where
  | whileLoop {start exit : BlockId} {st : List (Cell V)} : Drops (.whileLoop start exit) st st
  | tryExcept {st : List (Cell V)} : Drops .tryExcept st st
  | finallyTry {body : List Stmt} {st : List (Cell V)} : Drops (.finallyTry body) st st
  | forLoop {start exit : BlockId} {x : Cell V} {st : List (Cell V)} :
      Drops (.forLoop start exit) (x :: st) st
  | popValue {x : Cell V} {st : List (Cell V)} : Drops .popValue (x :: st) st

theorem Frame.exists_drops {V : Type} {f : Frame} {fs : List Frame} {st : List (Cell V)}
    (h : Stacked (f :: fs) st) : ∃ st', f.Drops st st' ∧ Stacked fs st' := by
  cases f with
  | whileLoop => exact ⟨st, .whileLoop, h⟩
  | tryExcept => exact ⟨st, .tryExcept, h⟩
  | finallyTry => exact ⟨st, .finallyTry, h⟩
  | forLoop =>
    cases st with
    | nil => exact h.elim
    | cons x st => exact ⟨st, .forLoop, h⟩
  | popValue =>
    cases st with
    | nil => exact h.elim
    | cons x st => exact ⟨st, .popValue, h⟩
  | _ => exact h.elim

/-- The final body that runs when a frame is left. -/
def Frame.finalSteps (keep : Bool) (outer : List Frame) : Frame → List Step
  | .finallyTry body => [.run (.stmts (if keep then .popValue :: outer else outer) body)]
  | _ => []

theorem Task.steps_unwind_cons (o : Options) (d : Draft) (n : Nat) (keep toLoop : Bool) (f : Frame)
    (outer : List Frame) : (Task.unwind keep toLoop (f :: outer)).steps o d n =
      if toLoop && f.isLoop then []
      else leaveSteps d keep f ++ f.finalSteps keep outer ++ [.run (.unwind keep toLoop outer)] := by
  cases f <;> rfl

section

variable {o : Options} {d : Draft} {n m : Nat} {log : Script} {V : Type} {M : Meaning V}
  {P rest : Plot} {st st' kept : List (Cell V)} {out : Outcome V} {tr : List Expr} {f : Frame}
  {outer : List Frame} {keep toLoop : Bool}

/-- Leaving a frame does not take off the value that is to be kept. -/
theorem Plot.run_leave (h : Emits o d (leaveSteps d keep f) n log m) (hf : f.Drops st st')
    (hkept : kept.length = keep.toNat) :
    Runs M P.course ⟨log.map .item ++ rest, kept ++ st, tr⟩ ⟨rest, kept ++ st', tr⟩ := by
  cases hf with
  | whileLoop =>
    obtain ⟨rfl, -⟩ := h.of_nil
    exact .refl
  | tryExcept | finallyTry =>
    obtain ⟨_, rfl, hnil⟩ := h.of_emit
    obtain ⟨rfl, -⟩ := hnil.of_nil
    exact run_emit rfl
  | forLoop | popValue =>
    cases keep with
    | false =>
      obtain rfl := List.length_eq_zero_iff.mp hkept
      obtain ⟨_, rfl, hnil⟩ := h.of_emit
      obtain ⟨rfl, -⟩ := hnil.of_nil
      exact run_emit rfl
    | true =>
      obtain ⟨x, rfl⟩ := List.length_eq_one_iff.mp hkept
      obtain ⟨_, rfl, hpop⟩ := h.of_emit
      obtain ⟨_, rfl, hnil⟩ := hpop.of_emit
      obtain ⟨rfl, -⟩ := hnil.of_nil
      exact (run_emit rfl).trans (run_emit rfl)

/-- A frame that has no final body is left for those further out. -/
theorem Frame.landing_cons {fuel : Nat} (hf : f.Drops st st') (hfinal : ∀ body, f ≠ .finallyTry body)
    (hstop : (toLoop && f.isLoop) = false) (hout : out.Unwinds toLoop) :
    landing M fuel (f :: outer) st out tr = landing M fuel outer st' out tr := by
  cases hf with
  | finallyTry => exact (hfinal _ rfl).elim
  | whileLoop | forLoop =>
    obtain rfl : toLoop = false := by simpa [isLoop, loopTargets?] using hstop
    cases out with
    | returns => rfl
    | _ => exact hout.elim
  | tryExcept | popValue =>
    cases out with
    | timeout => cases toLoop <;> exact hout.elim
    | _ => rfl

/-- A final body on the way has been run, within frames and with a stack that are no different from
what is further out. -/
theorem Plot.Ends.lands_finish {fuel : Nat} {frames : List Frame} {inner : List (Cell V)}
    {b : Effect V} {c : Config Plot V} (h : P.Ends M fuel frames inner rest c (b tr))
    (hsame : ∀ out tr,
      Frame.landing M fuel frames inner out tr = Frame.landing M fuel outer st out tr)
    (hnext : ∀ tr, P.Lands M ⟨rest, inner, tr⟩ (Frame.landing M fuel outer st out tr)) :
    P.Lands M c
      (Frame.landing M fuel outer st (b.finish out tr).1 (b.finish out tr).2) := by
  unfold Effect.finish
  generalize b tr = r at h
  obtain ⟨out', tr'⟩ := r
  cases out' with
  | normal => exact (hnext tr').of_runs h
  | _ => exact hsame _ tr' ▸ h

/-- The final body of a frame that is being left, within the frames further out. -/
theorem exists_plot_final (hbody : ∀ body, f = .finallyTry body →
      Stmt.AllPerform o outer body ∧ Stmt.AllPerform o (.popValue :: outer) body)
    (hstop : (toLoop && f.isLoop) = false) (h : Emits o d (f.finalSteps keep outer) n log m) :
    ∃ pl : Plot, pl.Shows o TakesAll log ∧
      ∀ {V : Type} (M : Meaning V) (fuel : Nat) (P rest : Plot) (kept st st' : List (Cell V))
        (out : Outcome V) (tr : List Expr), pl ++ rest <:+ P → kept.length = keep.toNat →
        f.Drops st st' → Frame.Stacked outer st' → out.Unwinds toLoop →
        (∀ tr, P.Lands M ⟨rest, kept ++ st', tr⟩ (Frame.landing M fuel outer st' out tr)) →
        P.Lands M ⟨pl ++ rest, kept ++ st', tr⟩ (Frame.landing M fuel (f :: outer) st out tr) := by
  by_cases hfinal : ∃ body, f = .finallyTry body
  · obtain ⟨body, rfl⟩ := hfinal
    have hlanding {V : Type} {M : Meaning V} {fuel : Nat} {st st' : List (Cell V)} {out : Outcome V}
        {tr : List Expr} (hf : (Frame.finallyTry body).Drops st st') (hout : out.Unwinds toLoop) :
        Frame.landing M fuel (.finallyTry body :: outer) st out tr =
          Frame.landing M fuel outer st' ((Stmt.execAll M fuel body).finish out tr).1
            ((Stmt.execAll M fuel body).finish out tr).2 := by
      cases hf
      cases out with
      | timeout => cases toLoop <;> exact hout.elim
      | _ => rfl
    obtain ⟨houter, hkeeping⟩ := hbody body rfl
    cases keep with
    | false =>
      obtain ⟨pl, hshows, hpl⟩ := houter h
      refine ⟨pl, hshows, fun M fuel P rest kept st st' out tr hP hkept hf hst hout hnext => ?_⟩
      obtain rfl := List.length_eq_zero_iff.mp hkept
      rw [hlanding hf hout]
      exact (hpl M fuel P rest st' tr hP hst).lands_finish (fun _ _ => rfl) hnext
    | true =>
      obtain ⟨pl, hshows, hpl⟩ := hkeeping h
      refine ⟨pl, hshows, fun M fuel P rest kept st st' out tr hP hkept hf hst hout hnext => ?_⟩
      obtain ⟨x, rfl⟩ := List.length_eq_one_iff.mp hkept
      rw [hlanding hf hout]
      refine (hpl M fuel P rest (x :: st') tr hP hst).lands_finish (fun out tr => ?_) hnext
      cases out with
      | timeout => cases outer <;> rfl
      | _ => rfl
  · have hnil : f.finalSteps keep outer = [] := by
      cases f with
      | finallyTry body => exact (hfinal ⟨body, rfl⟩).elim
      | _ => rfl
    rw [hnil] at h
    obtain ⟨rfl, -⟩ := h.of_nil
    refine ⟨[], Plot.shows_items o [], fun M fuel P rest kept st st' out tr _ _ hf _ hout hnext => ?_⟩
    rw [Frame.landing_cons hf (fun body heq => hfinal ⟨body, heq⟩) hstop hout]
    exact hnext tr

end

/-- Control that unwinds frames lands where they are left for, if it does so from behind, where only
the frames that it does not unwind are left. -/
def Frame.Unwinds (o : Options) (frames : List Frame) : Prop :=
  ∀ (keep toLoop : Bool) ⦃d : Draft⦄ ⦃n m : Nat⦄ ⦃log : Script⦄,
    Emits o d [.run (.unwind keep toLoop frames)] n log m →
    ∃ pl : Plot, pl.Shows o TakesAll log ∧
      ∀ {V : Type} (M : Meaning V) (fuel : Nat) (P rest : Plot) (kept st : List (Cell V))
        (out : Outcome V) (tr : List Expr), pl ++ rest <:+ P → kept.length = keep.toNat →
        Stacked frames st → out.Unwinds toLoop →
        (∀ st' tr', Stacked (unwound toLoop frames) st' → P.Lands M ⟨rest, kept ++ st', tr'⟩
          (landing M fuel (unwound toLoop frames) st' out tr')) →
        P.Lands M ⟨pl ++ rest, kept ++ st, tr⟩ (landing M fuel frames st out tr)

section

variable {o : Options}

theorem Frame.unwinds_nil : Unwinds o [] := by
  intro keep toLoop d n m log h
  obtain ⟨_, rfl, hsteps⟩ := h.of_task
  obtain ⟨rfl, -⟩ := hsteps.of_nil
  exact ⟨_, Plot.shows_items o _, fun M fuel P rest kept st out tr _ _ hst _ hend => hend st tr hst⟩

theorem Frame.Unwinds.cons {f : Frame} {outer : List Frame} (h : Unwinds o outer)
    (hbody : ∀ body, f = .finallyTry body →
      Stmt.AllPerform o outer body ∧ Stmt.AllPerform o (.popValue :: outer) body) :
    Unwinds o (f :: outer) := by
  intro keep toLoop d n m log hemits
  obtain ⟨log, rfl, hsteps⟩ := hemits.of_task
  rw [Task.steps_unwind_cons] at hsteps
  by_cases hstop : (toLoop && f.isLoop) = true
  · rw [if_pos hstop] at hsteps
    obtain ⟨rfl, -⟩ := hsteps.of_nil
    refine ⟨_, Plot.shows_items o _, fun M fuel P rest kept st out tr _ _ hst _ hend => ?_⟩
    rw [unwound, if_pos hstop] at hend
    exact hend st tr hst
  · rw [if_neg hstop] at hsteps
    obtain ⟨_, _, _, rfl, hleft, hunwind⟩ := hsteps.of_append
    obtain ⟨left, _, _, rfl, hleave, hfinal⟩ := hleft.of_append
    rw [Bool.not_eq_true] at hstop
    obtain ⟨plf, hshowsf, hplf⟩ := exists_plot_final hbody hstop hfinal
    obtain ⟨pl, hshows, hpl⟩ := h keep toLoop hunwind
    refine ⟨_, ((Plot.shows_items o left).append hshowsf).append hshows,
      fun M fuel P rest kept st out tr hP hkept hst hout hend => ?_⟩
    rw [unwound, hstop] at hend
    obtain ⟨st', hdrops, hst'⟩ := exists_drops hst
    simp only [List.append_assoc] at hP ⊢
    have hfinalP := (List.suffix_append _ _).trans hP
    have hrestP := (List.suffix_append _ _).trans hfinalP
    refine .of_runs ?_ (Plot.run_leave hleave hdrops hkept)
    refine hplf M fuel P _ kept st st' out tr hfinalP hkept hdrops hst' hout fun tr => ?_
    exact hpl M fuel P rest kept st' out tr hrestP hkept hst' hout hend

theorem Frame.unwound_false (frames : List Frame) : unwound false frames = [] := by
  induction frames with
  | nil => rfl
  | cons f fs ih => exact ih

theorem Plot.run_returns {V : Type} {P rest : Plot} {M : Meaning V} {x : Cell V}
    {st : List (Cell V)} {tr : List Expr} {r : Result V} (hr : r.Shown P x) :
    P.Lands M ⟨.item (.emit .returnValue 0) :: rest, x :: st, tr⟩ (.return r tr) :=
  ⟨_, x, .refl, ⟨⟨0, _, _, _, rfl, rfl, rfl, rfl⟩, rfl⟩, rfl, hr⟩

theorem Emits.load_of_value {d : Draft} {line : UInt32} {c : Constant} {steps : List Step}
    {n m : Nat} {log : Script} (h : Emits o d (Step.value (.constant line c) :: steps) n log m) :
    Emits o d (.load c :: steps) n log m := by
  obtain ⟨_, _, _, rfl, hvalue, hrest⟩ := h.of_run
  obtain ⟨_, rfl, hload⟩ := hvalue.of_task
  obtain ⟨arg, _, rfl, hnil⟩ := hload.of_load
  obtain ⟨rfl, rfl⟩ := hnil.of_nil
  exact .put (.load arg c) hrest

/-- The code that returns a constant: the frames are unwound before it is loaded. -/
theorem Frame.Unwinds.exists_plot_constant {frames : List Frame} (hframes : Unwinds o frames)
    {c : Constant} {d : Draft} {n k m : Nat} {log log' : Script}
    (hunwind : Emits o d [.run (.unwind false false frames)] n log k)
    (hload : Emits o d [.load c, .simple .returnValue] k log' m) :
    ∃ pl : Plot, pl.Shows o TakesAll (log ++ log') ∧ ∀ {V : Type} (M : Meaning V) (fuel : Nat),
      pl.Performs M fuel frames fun tr => (.returns (.constant c), tr) := by
  obtain ⟨arg, _, rfl, hreturn⟩ := hload.of_load
  obtain ⟨_, rfl, hnil⟩ := hreturn.of_emit
  obtain ⟨rfl, -⟩ := hnil.of_nil
  obtain ⟨pl, hshows, hpl⟩ := hframes false false hunwind
  refine ⟨_, hshows.append (Plot.shows_items o [_, _, _]), ?_⟩
  intro V M fuel P rest st tr hP hst
  rw [List.append_assoc] at hP ⊢
  have hshown : Result.Shown P (.constant c) (.constant arg : Cell V) :=
    ⟨arg, rfl, hP.subset (List.mem_append_right _ (List.mem_cons_of_mem _ List.mem_cons_self))⟩
  refine hpl M fuel P _ [] st (.returns (.constant c)) tr hP rfl hst trivial fun st' tr' _ => ?_
  rw [unwound_false]
  exact (Plot.run_returns hshown).of_runs ((Plot.run_intern c).trans (Plot.run_load arg c))

theorem Stmt.performs_ret {frames : List Frame} (hframes : Frame.Unwinds o frames) {line : UInt32}
    {value : Option Expr} (hvalue : ∀ e, value = some e → e.Fits (fun _ => True) .load) :
    (Stmt.ret line value).Performs o frames := by
  intro d n m log h
  obtain ⟨log, rfl, hsteps⟩ := h.of_task
  cases value with
  | none =>
    obtain ⟨_, _, _, rfl, hunwind, hload⟩ := hsteps.of_run
    exact hframes.exists_plot_constant hunwind hload
  | some e =>
    cases he : e.constant? with
    | some c =>
      cases e with
      | constant line' c' =>
        cases he
        obtain ⟨_, _, _, rfl, hunwind, hload⟩ := hsteps.of_run
        exact hframes.exists_plot_constant hunwind hload.load_of_value
      | _ => cases he
    | none =>
      have hsteps : Emits o d [Step.value e, .run (.unwind true false frames),
          .simple .returnValue] n log m := by
        simpa [Task.steps, Stmt.steps, Task.labelCount, Stmt.labelCount, Expr.isConstant, he]
          using hsteps
      obtain ⟨_, _, _, rfl, hfirst, hrest⟩ := hsteps.of_run
      obtain ⟨_, _, _, rfl, hunwind, hreturn⟩ := hrest.of_run
      obtain ⟨_, rfl, hnil⟩ := hreturn.of_emit
      obtain ⟨rfl, -⟩ := hnil.of_nil
      obtain ⟨ple, hshowse, hple⟩ := exists_plot_value (hvalue e rfl) hfirst
      obtain ⟨pl, hshows, hpl⟩ := hframes true false hunwind
      refine ⟨_, hshowse.append (hshows.append (Plot.shows_items o [_])),
        fun M fuel P rest st tr hP hst => ?_⟩
      simp only [List.append_assoc] at hP ⊢
      have hunwindP := (List.suffix_append _ _).trans hP
      simp only [Stmt.exec, he]
      refine Plot.Lands.of_runs ?_ (hple M P _ st tr)
      refine hpl M fuel P _ [_] st (.returns (.value (M.value tr e))) _ hunwindP rfl hst trivial
        fun st' tr' _ => ?_
      rw [Frame.unwound_false]
      exact Plot.run_returns rfl

theorem Frame.exists_unwound {frames : List Frame} {f : Frame}
    (h : frames.find? isLoop = some f) : ∃ outer, unwound true frames = f :: outer :=
  List.head?_eq_some_iff.mp ((head?_unwound frames).trans h)

/-- The code that leaves for a loop: the frames inside it are unwound, and what is behind that, in
the frame of the loop, gets control to where it is to be. -/
theorem Frame.Unwinds.exists_plot_leave {frames : List Frame} (hframes : Unwinds o frames)
    (out : ∀ {V : Type}, Outcome V) (hout : ∀ {V : Type}, (out : Outcome V).Unwinds true) {d : Draft}
    {n m : Nat} {log log' : Script}
    (hunwind : Emits o d [.run (.unwind false true frames)] n log m)
    (hleave : ∀ {V : Type} (M : Meaning V) (fuel : Nat) (P rest : Plot) (st : List (Cell V))
      (tr : List Expr), Stacked (unwound true frames) st → P.Lands M ⟨log'.map .item ++ rest, st, tr⟩
        (landing M fuel (unwound true frames) st out tr)) :
    ∃ pl : Plot, pl.Shows o TakesAll (log ++ log') ∧ ∀ {V : Type} (M : Meaning V) (fuel : Nat),
      pl.Performs M fuel frames fun tr => (out, tr) := by
  obtain ⟨pl, hshows, hpl⟩ := hframes false true hunwind
  refine ⟨_, hshows.append (Plot.shows_items o log'), ?_⟩
  intro V M fuel P rest st tr hP hst
  rw [List.append_assoc] at hP ⊢
  have hlands := hpl M fuel P _ [] st out tr hP rfl hst hout (hleave M fuel P rest)
  have hne : (out : Outcome V) ≠ .normal := fun heq => by
    have h := hout (V := V)
    rw [heq] at h
    exact h
  exact Plot.ends_of_ne_normal hlands hne

theorem Stmt.performs_breakLoop {frames : List Frame} (hframes : Frame.Unwinds o frames)
    {line : UInt32} : (Stmt.breakLoop line).Performs o frames := by
  intro d n m log h
  obtain ⟨log, rfl, hsteps⟩ := h.of_task
  obtain ⟨_, _, _, rfl, hunwind, hjump⟩ := hsteps.of_run
  split at hjump
  · next start exit hloop =>
    obtain ⟨_, rfl, hnil⟩ := hjump.of_jump
    obtain ⟨rfl, -⟩ := hnil.of_nil
    obtain ⟨outer, hunwound⟩ := Frame.exists_unwound hloop
    refine hframes.exists_plot_leave .breaks trivial hunwind fun M fuel P rest st tr _ => ?_
    rw [hunwound]
    exact fun pt hb => Plot.run_jump rfl hb
  · next start exit hloop =>
    obtain ⟨_, rfl, hexit⟩ := hjump.of_emit
    obtain ⟨_, rfl, hnil⟩ := hexit.of_jump
    obtain ⟨rfl, -⟩ := hnil.of_nil
    obtain ⟨outer, hunwound⟩ := Frame.exists_unwound hloop
    refine hframes.exists_plot_leave .breaks trivial hunwind fun M fuel P rest st tr hst => ?_
    rw [hunwound] at hst ⊢
    -- the iterator of the loop is on the stack
    cases st with
    | nil => exact hst.elim
    | cons x st => exact fun pt hb => (Plot.run_emit rfl).trans (Plot.run_jump rfl hb)
  · exact (Emits.not_refuse hjump).elim

theorem Stmt.performs_continueLoop {frames : List Frame} (hframes : Frame.Unwinds o frames)
    {line : UInt32} : (Stmt.continueLoop line).Performs o frames := by
  intro d n m log h
  obtain ⟨log, rfl, hsteps⟩ := h.of_task
  obtain ⟨_, _, _, rfl, hunwind, hjump⟩ := hsteps.of_run
  split at hjump
  on_goal 3 => exact (Emits.not_refuse hjump).elim
  all_goals
    next start exit hloop =>
    obtain ⟨_, rfl, hnil⟩ := hjump.of_jump
    obtain ⟨rfl, -⟩ := hnil.of_nil
    obtain ⟨outer, hunwound⟩ := Frame.exists_unwound hloop
    refine hframes.exists_plot_leave .continues trivial hunwind fun M fuel P rest st tr _ => ?_
    rw [hunwound]
    exact fun pt hb => Plot.run_jump rfl hb

/-- The final bodies that leaving the frames runs are made of control flow. -/
def Frame.AreFlow (frames : List Frame) : Prop :=
  ∀ body, .finallyTry body ∈ frames → ∀ s ∈ body, s.IsFlow

theorem Frame.areFlow_nil : AreFlow [] := fun _ hbody => absurd hbody List.not_mem_nil

theorem Frame.AreFlow.cons {f : Frame} {frames : List Frame} (h : AreFlow frames)
    (hf : ∀ body, f = .finallyTry body → ∀ s ∈ body, s.IsFlow) : AreFlow (f :: frames) := by
  intro body hbody
  rcases List.mem_cons.mp hbody with heq | hbody
  · exact hf body heq.symm
  · exact h body hbody

theorem Frame.AreFlow.tail {f : Frame} {frames : List Frame} (h : AreFlow (f :: frames)) :
    AreFlow frames :=
  fun body hbody => h body (List.mem_cons_of_mem _ hbody)

theorem Stmt.performs_try {frames : List Frame} {line : UInt32} {body orelse : List Stmt}
    {handlers : List Handler}
    (h : (Task.tryExcept frames body handlers orelse).Performs o frames fun M fuel =>
      .seq (Stmt.execAll M fuel body) (Stmt.execAll M fuel orelse)) :
    (Stmt.tryExcept line body handlers orelse []).Performs o frames := by
  intro d n m log hemits
  obtain ⟨log, rfl, hsteps⟩ := hemits.of_task
  obtain ⟨pl, hshows, hpl⟩ := h hsteps
  refine ⟨pl, hshows, fun M fuel => ?_⟩
  simp only [Stmt.exec, Stmt.execAll, Effect.guarded_skip]
  exact hpl M fuel

end

mutual

/-- The code of statements does what the statements do. -/
theorem Stmt.performs (o : Options) (frames : List Frame) (s : Stmt) (hs : s.IsFlow)
    (hframes : Frame.AreFlow frames) : s.Performs o frames := by
  have hunwinds := Frame.unwinds o frames hframes
  cases s with
  | pass => exact Stmt.performs_pass
  | breakLoop => exact Stmt.performs_breakLoop hunwinds
  | continueLoop => exact Stmt.performs_continueLoop hunwinds
  | expr line e => cases hs with | expr hconst he => exact Stmt.performs_expr hconst he
  | ret line value => cases hs with | ret hvalue => exact Stmt.performs_ret hunwinds hvalue
  | ifElse line test body orelse =>
    cases hs with
    | ifElse ht hbody horelse =>
      exact Stmt.performs_ifElse ht (Stmt.allPerform o frames body hbody hframes)
        (Stmt.allPerform o frames orelse horelse hframes)
  | whileLoop line test body orelse =>
    cases hs with
    | whileLoop ht hbody horelse =>
      exact Stmt.performs_whileLoop ht
        (fun start exit => Stmt.allPerform o (.whileLoop start exit :: frames) body hbody
          (hframes.cons nofun))
        (Stmt.allPerform o frames orelse horelse hframes)
  | forLoop line target iter body orelse =>
    cases hs with
    | forLoop hi hbody horelse =>
      exact Stmt.performs_forLoop hi
        (fun start exit => Stmt.allPerform o (.forLoop start exit :: frames) body hbody
          (hframes.cons nofun))
        (Stmt.allPerform o frames orelse horelse hframes)
  | tryExcept line body handlers orelse finalbody =>
    cases hs with
    | tryExcept helse hbody horelse hfinal =>
      cases finalbody with
      | nil =>
        exact Stmt.performs_try (Task.performs_tryExcept
          (Stmt.allPerform o (.tryExcept :: frames) body hbody (hframes.cons nofun))
          (Stmt.allPerform o frames orelse horelse hframes))
      | cons s finalbody =>
        have hflow : Frame.AreFlow (.finallyTry (s :: finalbody) :: frames) :=
          hframes.cons fun body heq => by
            cases heq
            exact hfinal
        refine Stmt.performs_finally ?_ (Stmt.allPerform o frames (s :: finalbody) hfinal hframes)
        unfold Task.tried
        split
        · next hnil =>
          obtain rfl := helse (List.isEmpty_iff.mp hnil)
          simp only [Stmt.execAll, Effect.seq_skip]
          exact Stmt.allPerform o (.finallyTry (s :: finalbody) :: frames) body hbody hflow
        · exact Task.performs_tryExcept
            (Stmt.allPerform o (.tryExcept :: .finallyTry (s :: finalbody) :: frames) body hbody
              (hflow.cons nofun))
            (Stmt.allPerform o (.finallyTry (s :: finalbody) :: frames) orelse horelse hflow)
  | _ => cases hs
termination_by s.weight + Frame.weightOfAll frames
decreasing_by
  · have := Stmt.weight_pos s
    omega
  all_goals
    subst_vars
    simp only [Stmt.weight, Stmt.weightOfAll, Frame.weight, Frame.weightOfAll]
    omega

theorem Stmt.allPerform (o : Options) (frames : List Frame) (ss : List Stmt)
    (hss : ∀ s ∈ ss, s.IsFlow) (hframes : Frame.AreFlow frames) : Stmt.AllPerform o frames ss := by
  match ss with
  | [] => exact Stmt.allPerform_nil frames
  | s :: ss =>
    rw [List.forall_mem_cons] at hss
    have hs : s.Performs o frames := Stmt.performs o frames s hss.1 hframes
    exact Stmt.AllPerform.cons hs (Stmt.allPerform o frames ss hss.2 hframes)
termination_by Stmt.weightOfAll ss + Frame.weightOfAll frames
decreasing_by
  all_goals
    simp only [Stmt.weightOfAll]
    omega

theorem Frame.unwinds (o : Options) (frames : List Frame) (hframes : Frame.AreFlow frames) :
    Frame.Unwinds o frames := by
  match frames with
  | [] => exact Frame.unwinds_nil
  | f :: outer =>
    refine (Frame.unwinds o outer hframes.tail).cons fun body heq => ?_
    subst heq
    have hbody := hframes body List.mem_cons_self
    exact ⟨Stmt.allPerform o outer body hbody hframes.tail,
      Stmt.allPerform o (.popValue :: outer) body hbody (hframes.tail.cons nofun)⟩
termination_by Frame.weightOfAll frames
decreasing_by
  · have := Frame.weight_pos f
    simp only [Frame.weightOfAll]
    omega
  all_goals
    subst_vars
    simp only [Frame.weight, Frame.weightOfAll]
    omega

end

end Wordcode
