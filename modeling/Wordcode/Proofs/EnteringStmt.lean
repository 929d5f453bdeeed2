import Wordcode.Proofs.EnteringExpr

/-!
# Scopes that statements enter

Without final bodies the code of statements enters the scopes that the statements visit in the
order of evaluation. With final bodies it enters some scopes more often, but it still takes one
table for each and does not depend on the tables behind.
-/

set_option autoImplicit false

namespace Wordcode

open Build

section Parts

variable {o : Options} {p : Prop}

theorem enters_exprs (es : List Expr) :
    Enters o p (Expr.visitsOf .evaluated es) (Expr.lowerAll o.filename es) :=
  enters_all fun e _ => Expr.enters o e

theorem enters_storeAll (ts : List Expr) :
    Enters o p (Expr.visitsOf .evaluated ts) (storeAll o.filename ts) := by
  induction ts with
  | nil => exact .of (.pure ())
  | cons t ts ih =>
    have ht := Expr.enters o t p .push
    cases ts with
    | nil => exact ht.of_eq (by simp)
    | cons t' ts =>
      rw [Expr.visitsOf_cons]
      exact .step (.emit _) fun _ => ht.bind fun _ => ih

theorem enters_augmentedAssign (target : Expr) (op : Operator) (e : Expr) :
    Enters o p (Expr.visitsOf .evaluated [target, e]) (augmentedAssign o.filename target op e) := by
  have he := Expr.enters o e p .push
  unfold augmentedAssign
  split
  · next line object attr ctx =>
    refine .of_eq ((Expr.enters o object p .push).bind fun _ => .step (.emit _) fun _ =>
      .step (.emitName _ attr) fun _ => he.after fun _ => .bind (.emit _) fun _ =>
        .bind (.emit _) fun _ => .emitName _ attr) ?_
    simp [Expr.visits_eq .evaluated (.attribute ..), Expr.opens, Expr.closes, Expr.partsIn, Expr.parts]
  · next line object index ctx =>
    refine .of_eq ((Expr.enters o object p .push).bind fun _ => (Expr.enters o index p .push).bind
      fun _ => .step (.emit _) fun _ => .step (.emit _) fun _ => he.after fun _ =>
        .bind (.emit _) fun _ => .bind (.emit _) fun _ => .emit _) ?_
    simp [Expr.visits_eq .evaluated (.subscript ..), Expr.opens, Expr.closes, Expr.partsIn, Expr.parts]
  · next line id ctx =>
    refine .of_eq (.step (.accessName id _) fun _ => he.after fun _ => .bind (.emit _)
      fun _ => .accessName id _) ?_
    simp [Expr.visits_eq .evaluated (.name ..), Expr.opens, Expr.closes, Expr.partsIn, Expr.parts]
  · exact enters_fail _

theorem enters_assertStatement (test : Expr) (msg : Option Expr) :
    Enters o p
      (if o.stripsAsserts then List.replicate (Expr.scopesOf (test :: msg.toList)) .skip
        else Expr.visitsOf .evaluated (test :: msg.toList))
      (assertStatement o test msg) := by
  cases ho : o.stripsAsserts with
  | true =>
    rw [assertStatement_stripped ho]
    exact enters_skipChildren _
  | false =>
    unfold assertStatement
    rw [ho, if_neg Bool.false_ne_true, if_neg Bool.false_ne_true, Expr.visitsOf_cons]
    refine .step .newBlock fun done => (Expr.enters o test p _).bind fun _ =>
      .step (.emit _) fun _ => ?_
    have hraise : Local (do emitArg .raiseVarargs 1; fallInto done) :=
      .bind (.emitArg _ _) fun _ => .fallInto done
    cases msg with
    | none => exact .of hraise
    | some m =>
      exact .of_eq ((Expr.enters o m p .push).after fun _ => .bind (.emitArg _ _) fun _ => hraise)
        (by simp)

theorem enters_pushAnnotations (out : Array String) (ps : List Param) :
    Enters o p (Expr.visitsOf .evaluated (ps.filterMap Param.annotation))
      (pushAnnotations o.filename out ps) := by
  induction ps generalizing out with
  | nil => exact .of (.pure out)
  | cons param ps ih =>
    obtain ⟨x, annotation⟩ := param
    cases annotation with
    | none => exact ih out
    | some e =>
      have hcons : (Param.mk x (some e) :: ps).filterMap Param.annotation =
          e :: ps.filterMap Param.annotation := rfl
      rw [hcons, Expr.visitsOf_cons]
      exact (Expr.enters o e p .push).bind fun _ => ih (out.push x)

theorem Arguments.map_snd_annotated (args : Arguments) (returns : Option Expr) :
    (args.annotated returns).map Prod.snd =
      (args.params ++ args.posonly ++ args.vararg.toList ++ args.kwonly ++ args.kwarg.toList).filterMap
        Param.annotation ++ returns.toList := by
  have hmap (ps : List Param) :
      (ps.filterMap fun (p : Param) => p.annotation.map (p.name, ·)).map Prod.snd =
        ps.filterMap Param.annotation := by
    rw [List.map_filterMap]
    congr 1
    funext p
    cases p.annotation <;> rfl
  rw [annotated, hmap, List.filterMap_append]
  cases returns <;> rfl

theorem enters_annotations (args : Arguments) (returns : Option Expr) :
    Enters o p (Expr.visitsOf .evaluated ((args.annotated returns).map Prod.snd))
      (annotations o.filename args returns) := by
  refine .of_eq ((enters_pushAnnotations #[] _).after fun keys => .annotationKeys keys) ?_
  rw [Arguments.map_snd_annotated, List.filterMap_append]
  cases returns <;> rfl

/-- The test of an exception's type in front of a handler. -/
theorem Build.Enters.typeTest {vs : List Visit} {b : Build Unit} {next : BlockId}
    (h : Enters o p vs b) (type : Option Expr) :
    Enters o p (Expr.visitsOf .evaluated type.toList ++ vs)
      (match type with
      | some t => do
        emit .dupTop
        t.lower o.filename .push
        emitJump .jumpIfNotExcMatch next
        b
      | _ => b) := by
  cases type with
  | none => exact h
  | some t =>
    exact .of_eq (.step (.emit _) fun _ => (Expr.enters o t p .push).bind fun _ =>
      .step (.emitJump _ _) fun _ => h) (by simp)

end Parts

theorem Stmt.NoFinal.finalbody_eq {s : Stmt} : s.NoFinal → s.finalbody = []
  | .intro h _ => h

theorem Stmt.NoFinal.inner {s s' : Stmt} : s.NoFinal → s' ∈ s.block → s'.NoFinal
  | .intro _ h => h s'

section

variable {p : Prop}

mutual

theorem Stmt.enters (o : Options) (frames : List Frame) (s : Stmt) (hs : p → s.NoFinal)
    (hframes : p → Frame.finalBodies frames = []) :
    Enters o p (s.visits .evaluated o) (Stmt.lower o frames s) := by
  have hexpr (e : Expr) := Expr.enters o e p
  rw [Stmt.lower.eq_def]
  refine .inStatement ?_ s.line
  cases s with
  | functionDef line name args body decorators returns =>
    refine .of_eq ((enters_exprs decorators).bind fun _ =>
      (enters_defaults fun e _ => Expr.enters o e).bind fun parts =>
        (enters_annotations args returns).bind fun annotated =>
          (enters_inScope (.function body) name (definitionLine line decorators)).after fun code =>
            .bind (.makeClosure _ _ _) fun _ => .bind (.repeatEmit _ _ _) fun _ =>
              .accessName _ _) ?_
    simp only [Stmt.visits, Arguments.partsIn, Expr.visitsOf_append, List.append_assoc]
  | classDef line name bases keywords body decorators =>
    have hcall : Enters o p _ (callWith 2 bases.length (Expr.lowerAll o.filename bases)
        (keywords.map Keyword.name) (Keyword.lowerValues o.filename keywords)) :=
      enters_callWith 2 (fun e _ => Expr.enters o e) fun k _ => Expr.enters o k.value
    exact (enters_exprs decorators).bind fun _ =>
      (enters_inScope (.classBody body) name (definitionLine line decorators)).bind fun code =>
        .step (.emit _) fun _ => .step (.makeClosure _ _ _) fun _ =>
          .step (.loadConst _) fun _ => hcall.after fun _ => .bind (.repeatEmit _ _ _)
            fun _ => .accessName _ _
  | ret line e =>
    have hkeep := Frame.entersUnwind o true false frames hframes
    have hdrop := Frame.entersUnwind o false false frames hframes
    refine .step (.ask fun _ _ => rfl) fun _ => .guard fun _ => ?_
    cases e with
    | none => exact hdrop.after fun _ => .bind (.loadConst _) fun _ => .emit _
    | some e =>
      dsimp only
      split
      · exact .of_eq (hdrop.bind fun _ => (hexpr e .push).after fun _ => .emit _)
          (by simp [Stmt.visits])
      · exact .of_eq ((hexpr e .push).bind fun _ => hkeep.after fun _ => .emit _)
          (by simp [Stmt.visits])
  | delete line targets => exact enters_exprs targets
  | assign line targets e =>
    exact .of_eq ((hexpr e .push).bind fun _ => enters_storeAll targets)
      (by simp [Stmt.visits, Reading.swap])
  | augAssign line target op e => exact enters_augmentedAssign target op e
  | raise line exc cause =>
    cases exc with
    | none => exact .of (.emitArg _ _)
    | some exc =>
      cases cause with
      | none => exact .of_eq ((hexpr exc .push).after fun _ => .emitArg _ _) (by simp [Stmt.visits])
      | some cause =>
        exact .of_eq ((hexpr exc .push).bind fun _ => (hexpr cause .push).after fun _ =>
          .emitArg _ _) (by simp [Stmt.visits])
  | assert line test msg => exact enters_assertStatement test msg
  | importNames line names => exact .of (.importAll names)
  | importFrom line origin names level => exact .of (.importFrom origin names level)
  | «global» | «nonlocal» | pass => exact .of (.pure ())
  | expr line e =>
    dsimp only
    split
    · next hconstant =>
      refine .of_eq (.of (.emit _)) ?_
      rw [Stmt.visits, Expr.visits_eq]
      cases e <;> first | rfl | cases hconstant
    · exact (hexpr e .push).after fun _ => .emit _
  | breakLoop line =>
    refine (Frame.entersUnwind o false true frames hframes).bind fun f => (?_ : Enters o p [] _)
    split
    · exact .of (.emitJump _ _)
    · exact .of (.bind (.emit _) fun _ => .emitJump _ _)
    · exact enters_throw _
  | continueLoop line =>
    refine (Frame.entersUnwind o false true frames hframes).bind fun f => (?_ : Enters o p [] _)
    split
    · exact .of (.emitJump _ _)
    · exact .of (.emitJump _ _)
    · exact enters_throw _
  | forLoop line target iter body orelse =>
    have hbody (start done : BlockId) := Stmt.entersAll o (.forLoop start done :: frames) body
      (fun hp s hs' => (hs hp).inner (List.mem_append_left _ hs')) hframes
    have horelse := Stmt.entersAll o frames orelse
      (fun hp s hs' => (hs hp).inner (List.mem_append_right _ hs')) hframes
    refine .of_eq (.step .newBlock fun start => .step .newBlock fun cleanup =>
      .step .newBlock fun done => (hexpr iter .push).bind fun _ => .step (.emit _) fun _ =>
        .step (.fallInto start) fun _ => .step (.emitJump _ _) fun _ =>
          (hexpr target .push).bind fun _ => (hbody start done).bind fun _ =>
            .step (.emitJump _ _) fun _ => .step (.fallInto cleanup) fun _ =>
              horelse.after fun _ => .fallInto done) ?_
    simp [Stmt.visits, Reading.swap]
  | whileLoop line test body orelse =>
    have hbody (start done : BlockId) := Stmt.entersAll o (.whileLoop start done :: frames) body
      (fun hp s hs' => (hs hp).inner (List.mem_append_left _ hs')) hframes
    have horelse := Stmt.entersAll o frames orelse
      (fun hp s hs' => (hs hp).inner (List.mem_append_right _ hs')) hframes
    refine .of_eq (.step .newBlock fun start => .step .newBlock fun done =>
      .step .newBlock fun anchor => .step (.fallInto start) fun _ =>
        (hexpr test _).bind fun _ => (hbody start done).bind fun _ => .step (.emitJump _ _)
          fun _ => .step (.fallInto anchor) fun _ => horelse.after fun _ => .fallInto done) ?_
    simp [Stmt.visits]
  | ifElse line test body orelse =>
    have hbody := Stmt.entersAll o frames body
      (fun hp s hs' => (hs hp).inner (List.mem_append_left _ hs')) hframes
    have horelse := Stmt.entersAll o frames orelse
      (fun hp s hs' => (hs hp).inner (List.mem_append_right _ hs')) hframes
    cases orelse with
    | nil =>
      refine .of_eq (.step .newBlock fun done => (hexpr test _).bind fun _ =>
        hbody.after fun _ => .fallInto done) ?_
      simp [Stmt.visits, Stmt.visitsOf]
    | cons s ss =>
      refine .of_eq (.step .newBlock fun done => .step .newBlock fun next =>
        (hexpr test _).bind fun _ => hbody.bind fun _ => .step (.emitJump _ _) fun _ =>
          .step (.fallInto next) fun _ => horelse.after fun _ => .fallInto done) ?_
      simp [Stmt.visits]
  | tryExcept line body handlers orelse finalbody =>
    have hbody (hp : p) : ∀ s ∈ body, s.NoFinal := fun s hs' =>
      (hs hp).inner (by simp [Stmt.block, Stmt.inner, hs'])
    have hhandlers (hp : p) : ∀ s ∈ handlers.flatMap Handler.body, s.NoFinal := fun s hs' =>
      (hs hp).inner (by simp only [Stmt.block, Stmt.inner, List.mem_append]; tauto)
    have horelse (hp : p) : ∀ s ∈ orelse, s.NoFinal := fun s hs' =>
      (hs hp).inner (by simp [Stmt.block, Stmt.inner, hs'])
    cases finalbody with
    | nil => exact Stmt.entersTry o frames body handlers orelse hbody hhandlers horelse hframes
    | cons s ss =>
      -- Nothing is said about the visits here: there is a final body.
      have hnot : ¬p := fun hp => List.cons_ne_nil s ss (hs hp).finalbody_eq
      have habsurd {q : Prop} (hp : p) : q := absurd hp hnot
      have hnormal := Stmt.entersAll o frames (s :: ss) habsurd habsurd
      have hexceptional := Stmt.entersAll o (.finallyEnd :: frames) (s :: ss) habsurd habsurd
      have hrest (final exit : BlockId) := Enters.step (.emit .popBlock) fun _ =>
        hnormal.bind fun _ => .step (.emitJump .jumpForward exit) fun _ =>
          .step (.fallInto final) fun _ => hexceptional.after fun _ =>
            .bind (.emit .reraise) fun _ => .fallInto exit
      cases handlers with
      | nil =>
        have hinside := Stmt.entersAll o (.finallyTry (s :: ss) :: frames) body habsurd habsurd
        exact .mono (.step .newBlock fun inside => .step .newBlock fun final =>
          .step .newBlock fun exit => .step (.emitJump _ _) fun _ =>
            .step (.fallInto inside) fun _ => hinside.bind fun _ => hrest final exit) id habsurd
      | cons clause clauses =>
        have hinside := Stmt.entersTry o (.finallyTry (s :: ss) :: frames) body (clause :: clauses)
          orelse habsurd habsurd habsurd habsurd
        exact .mono (.step .newBlock fun inside => .step .newBlock fun final =>
          .step .newBlock fun exit => .step (.emitJump _ _) fun _ =>
            .step (.fallInto inside) fun _ => hinside.bind fun _ => hrest final exit) id habsurd
termination_by s.weight + Frame.weightOfAll frames
decreasing_by
  all_goals
    subst_vars
    simp only [Stmt.weight, Frame.weight, Frame.weightOfAll]
    omega

theorem Stmt.entersAll (o : Options) (frames : List Frame) (ss : List Stmt)
    (hss : p → ∀ s ∈ ss, s.NoFinal) (hframes : p → Frame.finalBodies frames = []) :
    Enters o p (Stmt.visitsOf .evaluated o ss) (Stmt.lowerAll o frames ss) := by
  cases ss with
  | nil =>
    rw [Stmt.lowerAll]
    exact .of (.pure ())
  | cons s ss =>
    rw [Stmt.lowerAll]
    exact (Stmt.enters o frames s (fun hp => hss hp s List.mem_cons_self) hframes).bind fun _ =>
      Stmt.entersAll o frames ss (fun hp s' hs' => hss hp s' (List.mem_cons_of_mem _ hs')) hframes
termination_by Stmt.weightOfAll ss + Frame.weightOfAll frames
decreasing_by
  all_goals
    subst_vars
    simp only [Stmt.weightOfAll]
    omega

theorem Stmt.entersTry (o : Options) (frames : List Frame) (body : List Stmt)
    (handlers : List Handler) (orelse : List Stmt) (hbody : p → ∀ s ∈ body, s.NoFinal)
    (hhandlers : p → ∀ s ∈ handlers.flatMap Handler.body, s.NoFinal)
    (horelse : p → ∀ s ∈ orelse, s.NoFinal) (hframes : p → Frame.finalBodies frames = []) :
    Enters o p (Stmt.visitsOf .evaluated o body ++ Handler.visitsOf .evaluated o handlers ++
      Stmt.visitsOf .evaluated o orelse) (Stmt.lowerTry o frames body handlers orelse) := by
  rw [Stmt.lowerTry]
  refine .of_eq (.step .newBlock fun inside => .step .newBlock fun except =>
    .step .newBlock fun otherwise => .step .newBlock fun done =>
      .step (.emitJump _ _) fun _ => .step (.fallInto inside) fun _ =>
        (Stmt.entersAll o (.tryExcept :: frames) body hbody hframes).bind fun _ =>
          .step (.emit _) fun _ => .step (.emitJump _ _) fun _ =>
            .step (.fallInto except) fun _ =>
              (Handler.entersAll o (.exceptionHandler :: frames) done handlers hhandlers
                hframes).bind fun _ => .step (.emit _) fun _ =>
                  .step (.fallInto otherwise) fun _ =>
                    (Stmt.entersAll o frames orelse horelse hframes).after fun _ =>
                      .fallInto done) (List.append_assoc ..).symm
termination_by Stmt.weightOfAll body + Handler.weightOfAll handlers + Stmt.weightOfAll orelse +
  Frame.weightOfAll frames + 2
decreasing_by
  all_goals first
  | omega
  | simp only [Frame.weight, Frame.weightOfAll]
    omega

theorem Handler.entersAll (o : Options) (frames : List Frame) (done : BlockId)
    (hs : List Handler) (hbodies : p → ∀ s ∈ hs.flatMap Handler.body, s.NoFinal)
    (hframes : p → Frame.finalBodies frames = []) :
    Enters o p (Handler.visitsOf .evaluated o hs) (Handler.lowerAll o frames done hs) := by
  match hs with
  | [] =>
    rw [Handler.lowerAll]
    exact .of (.pure ())
  | ⟨type, name, body, line⟩ :: rest =>
    simp only [List.flatMap_cons, List.forall_mem_append] at hbodies
    have hrest := Handler.entersAll o frames done rest (fun hp => (hbodies hp).2) hframes
    have hbody (x : Option String) := Stmt.entersAll o (.handlerCleanup x :: frames) body
      (fun hp => (hbodies hp).1) hframes
    have hnext (next : BlockId) := Enters.step (.fallInto next) fun _ => hrest
    rw [Handler.lowerAll, Handler.visitsOf, List.append_assoc]
    refine .guard fun _ => .step (.setLine line) fun _ => .step .newBlock fun next => ?_
    cases name with
    | some x =>
      have hx := Enters.step .newBlock fun cleanup => .step .newBlock fun inside =>
        .step (.accessName x .store) fun _ => .step (.emit .popTop) fun _ =>
          .step (.emitJump .setupFinally cleanup) fun _ => .step (.fallInto inside) fun _ =>
            (hbody (some x)).after fun _ => .bind (.emit .popBlock) fun _ =>
              .bind (.emit .popExcept) fun _ => .bind (.clearName x) fun _ =>
                .bind (.emitJump .jumpForward done) fun _ => .bind (.fallInto cleanup) fun _ =>
                  .bind (.clearName x) fun _ => .emit .reraise
      have h := Enters.step (.emit .popTop) fun _ => hx.bind fun _ => hnext next
      simp only [bind_assoc] at h
      exact h.typeTest type
    | none =>
      have hx := Enters.step .newBlock fun inside => .step (.emit .popTop) fun _ =>
        .step (.emit .popTop) fun _ => .step (.fallInto inside) fun _ =>
          (hbody none).after fun _ => .bind (.emit .popExcept) fun _ =>
            .emitJump .jumpForward done
      have h := Enters.step (.emit .popTop) fun _ => hx.bind fun _ => hnext next
      simp only [bind_assoc] at h
      exact h.typeTest type
termination_by Handler.weightOfAll hs + Frame.weightOfAll frames
decreasing_by
  all_goals
    simp only [Handler.weightOfAll, Frame.weight, Frame.weightOfAll]
    omega

theorem Frame.entersUnwind (o : Options) (keep toLoop : Bool) (frames : List Frame)
    (hframes : p → Frame.finalBodies frames = []) :
    Enters o p [] (Frame.unwind o keep toLoop frames) := by
  cases frames with
  | nil =>
    rw [Frame.unwind]
    exact .of (.pure none)
  | cons f outer =>
    rw [Frame.unwind]
    split
    · exact .of (.pure _)
    · refine .step (.leave f keep) fun _ => ?_
      cases f with
      | finallyTry finalbody =>
        have hnone (hp : p) := List.append_eq_nil_iff.mp (hframes hp)
        have hkeep : Frame.finalBodies (if keep then .popValue :: outer else outer) =
            Frame.finalBodies outer := by
          cases keep <;> rfl
        have hbody := Stmt.entersAll o (if keep then .popValue :: outer else outer) finalbody
          (fun hp => by simp [(hnone hp).1]) fun hp => hkeep.trans (hnone hp).2
        have hrest := Frame.entersUnwind o keep toLoop outer fun hp => (hnone hp).2
        exact .mono (.step (.ask fun _ _ => rfl) fun saved => hbody.bind fun _ =>
          .step (.setLine saved) fun _ => hrest) id fun hp => by rw [(hnone hp).1]; rfl
      | _ => exact Frame.entersUnwind o keep toLoop outer hframes
termination_by Frame.weightOfAll frames
decreasing_by
  all_goals
    subst_vars
    cases keep <;> simp only [Frame.weightOfAll, Frame.weight, if_true, Bool.false_eq_true,
      if_false] <;> omega

end

end

section Scopes

variable {o : Options} {p : Prop}

theorem enters_comprehensionLoop {vs vs' vs'' ws : List Visit} {input target inner : Build Unit}
    {filters : BlockId → Build Unit} (innermost : Bool) (hinput : Enters o p vs input)
    (htarget : Enters o p vs' target) (hfilters : ∀ cleanup, Enters o p vs'' (filters cleanup))
    (hinner : Enters o p ws inner) :
    Enters o p (vs ++ (vs' ++ (vs'' ++ ws)))
      (comprehensionLoop input target filters innermost inner) := by
  have hlast (start cleanup anchor : BlockId) : Local (do
      fallInto cleanup
      emitJump .jumpAbsolute start
      fallInto anchor) :=
    .bind (.fallInto cleanup) fun _ => .bind (.emitJump _ _) fun _ => .fallInto anchor
  refine .step .newBlock fun start => .step .newBlock fun skip =>
    .step .newBlock fun cleanup => .step .newBlock fun anchor => hinput.bind fun _ =>
      .step (.fallInto start) fun _ => .step (.emitJump _ _) fun _ =>
        .step .nextBlock fun _ => htarget.bind fun _ => (hfilters cleanup).bind fun _ =>
          hinner.after fun _ => ?_
  split
  · exact .bind (.fallInto skip) fun _ => hlast start cleanup anchor
  · exact hlast start cleanup anchor

theorem enters_inner (element : Expr) (depth : Nat) (gs : List Generator) :
    Enters o p (Expr.visitsOf .evaluated (gs.flatMap (Generator.partsIn .evaluated) ++ [element]))
      (Generator.lowerInner o.filename (element.lower o.filename .push) depth gs) := by
  induction gs generalizing depth with
  | nil =>
    rw [Generator.lowerInner]
    exact .of_eq ((Expr.enters o element p .push).after fun _ => .emitArg _ _) (by simp)
  | cons g rest ih =>
    obtain ⟨target, iter, filters⟩ := g
    rw [Generator.lowerInner]
    refine .of_eq (enters_comprehensionLoop rest.isEmpty
      ((Expr.enters o iter p .push).after fun _ => .emit _) (Expr.enters o target p .push)
      (fun cleanup => enters_filters cleanup fun e _ => Expr.enters o e) (ih _)) ?_
    simp [Generator.partsIn, Reading.swap]

theorem enters_withoutDocstring {body : List Stmt} (hbody : p → ∀ s ∈ body, s.NoFinal) :
    Enters o p (Stmt.visitsOf .evaluated o (withoutDocstring o body))
      (Stmt.lowerAll o [] (withoutDocstring o body)) :=
  Stmt.entersAll o [] _ (fun hp s hs => hbody hp s (mem_of_mem_withoutDocstring hs)) fun _ => rfl

theorem Body.enters (body : Body) (hbody : p → body.NoFinal) :
    Enters o p (body.visits .evaluated o) (body.build o) := by
  cases body with
  | lambda e =>
    exact .step (.internConstant _) fun _ => (Expr.enters o e p .push).after fun _ =>
      .lambdaEpilog
  | comprehension target filters rest element =>
    have hinput : Local (do emitArg .loadFast (← internVarname ".0")) :=
      .bind (.internVarname _) fun _ => .emitArg _ _
    refine .of_eq (.step (.emitArg _ _) fun _ => (enters_comprehensionLoop rest.isEmpty
      (.of hinput) (Expr.enters o target p .push)
      (fun cleanup => enters_filters cleanup fun e _ => Expr.enters o e)
      (enters_inner element 1 rest)).after fun _ => .bind (.emit _) fun _ => .pure true) ?_
    simp [Body.visits, Reading.swap]
  | function body =>
    exact .step (.internConstant _) fun _ => (enters_withoutDocstring hbody).after fun _ =>
      .pure true
  | classBody body =>
    exact .step .classProlog fun _ => .step (.bindDocstring o body) fun _ =>
      (enters_withoutDocstring hbody).after fun _ => .bind .classEpilog fun _ => .pure true

theorem Program.enters (program : Program) (hprogram : p → program.NoFinal) :
    Enters o p (program.visits .evaluated o) (program.build o) := by
  cases program with
  | module body =>
    have hbody : Enters o p (Stmt.visitsOf .evaluated o (withoutDocstring o body)) (do
        bindDocstring o body
        Stmt.lowerAll o [] (withoutDocstring o body)) :=
      .step (.bindDocstring o body) fun _ => enters_withoutDocstring hprogram
    simp only [Program.build, Stmt.lowerModule]
    split
    · exact .step (.setLine _) fun _ => hbody
    · exact hbody
  | expression e => exact Expr.enters o e p .push
  | interactive body => exact enters_throw _

end Scopes

end Wordcode
