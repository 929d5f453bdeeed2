import Wordcode.Proofs.Positions
import Wordcode.Proofs.StmtTables

/-!
# Misplaced statements

Where a statement stands decides whether it is refused. The compiler looks for a loop among the
frames around the statement, which a jump takes off while it compiles final bodies again. For every
copy of a final body the frames that are left hold a loop just if the statement with that final
body stands in one, so each copy is judged alike.
-/

set_option autoImplicit false

namespace Wordcode

open Build

/-- Whether the statements inside a statement belong to a function. -/
def Stmt.within (inFunction : Bool) : Stmt → Bool
  | .functionDef .. => true
  | .classDef .. => false
  | _ => inFunction

mutual

/-- Every `return` belongs to a function, every `break` and `continue` stands in the body of a loop
of its scope, and every bare `except` is the last handler. -/
def Stmt.placed (inFunction inLoop : Bool) : Stmt → Bool
  | .ret .. => inFunction
  | .breakLoop _ | .continueLoop _ => inLoop
  | .functionDef _ _ _ body _ _ => Stmt.placedAll true false body
  | .classDef _ _ _ _ body _ => Stmt.placedAll false false body
  | .forLoop _ _ _ body orelse | .whileLoop _ _ body orelse =>
    Stmt.placedAll inFunction true body && Stmt.placedAll inFunction inLoop orelse
  | .ifElse _ _ body orelse =>
    Stmt.placedAll inFunction inLoop body && Stmt.placedAll inFunction inLoop orelse
  | .tryExcept _ body handlers orelse finalbody =>
    Stmt.placedAll inFunction inLoop body && (Handler.placedAll inFunction inLoop handlers &&
      Stmt.placedAll inFunction inLoop orelse) && Stmt.placedAll inFunction inLoop finalbody
  | _ => true

def Stmt.placedAll (inFunction inLoop : Bool) : List Stmt → Bool
  | [] => true
  | s :: ss => Stmt.placed inFunction inLoop s && Stmt.placedAll inFunction inLoop ss

def Handler.placedAll (inFunction inLoop : Bool) : List Handler → Bool
  | [] => true
  | ⟨type, _, body, _⟩ :: hs => (type.isSome || hs.isEmpty) &&
    (Stmt.placedAll inFunction inLoop body && Handler.placedAll inFunction inLoop hs)

end

/-- A `yield` in the statement is evaluated in the scope of a module or a class. -/
inductive Stmt.YieldsOutside : Bool → Stmt → Prop where
  | expr {s : Stmt} {e : Expr} : e ∈ s.exprs → e.Yields → YieldsOutside false s
  | inner {inFunction : Bool} {s s' : Stmt} : s' ∈ s.inner →
    YieldsOutside (s.within inFunction) s' → YieldsOutside inFunction s

/-- Somewhere in the statement an `else` is given to a `try` without handlers. -/
inductive Stmt.HasStrayElse : Stmt → Prop where
  | here {line : UInt32} {body orelse finalbody : List Stmt} : orelse ≠ [] →
    HasStrayElse (.tryExcept line body [] orelse finalbody)
  | inner {s s' : Stmt} : s' ∈ s.inner → HasStrayElse s' → HasStrayElse s

/-- Nothing in the statement is misplaced. -/
structure Stmt.Stands (inFunction inLoop : Bool) (s : Stmt) : Prop where
  placed : s.placed inFunction inLoop = true
  silent : ¬ s.YieldsOutside inFunction

/-- Nothing in the final bodies of frames is misplaced. -/
def Frame.StandAll (inFunction : Bool) : List Frame → Prop
  | [] => True
  | .finallyTry finalbody :: outer =>
    (∀ s ∈ finalbody, s.Stands inFunction (outer.any Frame.isLoop)) ∧ StandAll inFunction outer
  | _ :: outer => StandAll inFunction outer

section Places

variable {inFunction inLoop inLoop' : Bool} {s : Stmt} {ss : List Stmt}

theorem Stmt.placedAll_iff :
    Stmt.placedAll inFunction inLoop ss = true ↔ ∀ s ∈ ss, s.placed inFunction inLoop = true := by
  induction ss with
  | nil => simp [Stmt.placedAll]
  | cons s ss ih => simp [Stmt.placedAll, ih]

theorem Stmt.Stands.inner (h : s.Stands inFunction inLoop) (hss : ss ⊆ s.inner)
    (hplaced : Stmt.placedAll (s.within inFunction) inLoop' ss = true) :
    ∀ s' ∈ ss, s'.Stands (s.within inFunction) inLoop' := fun s' hs' =>
  ⟨Stmt.placedAll_iff.mp hplaced s' hs', fun hyields => h.silent (.inner (hss hs') hyields)⟩

theorem Stmt.Stands.expr (h : s.Stands inFunction inLoop) {e : Expr} (he : e ∈ s.exprs) :
    inFunction = true ∨ ¬ e.Yields := by
  cases inFunction with
  | true => exact .inl rfl
  | false => exact .inr fun hyields => h.silent (.expr he hyields)

/-- A docstring can stand anywhere. -/
theorem placedAll_withoutDocstring (o : Options) (body : List Stmt) :
    Stmt.placedAll inFunction inLoop (withoutDocstring o body) =
      Stmt.placedAll inFunction inLoop body := by
  unfold withoutDocstring
  split
  · next hkept =>
    unfold keptDocstring? docstring? at hkept
    split at hkept
    · cases hkept
    · split at hkept
      · rfl
      · cases hkept
  · rfl

end Places

namespace Build

variable {α β : Type} {k : ScopeKind} {Q R : Prop} {p q : Bool}

/-- A build that succeeds tells that `p`, provided that `R`. -/
abbrev Places (k : ScopeKind) (R Q : Prop) (p : Bool) (b : Build α) : Prop :=
  Judges k (fun _ => R → p = true) Q b

namespace Judges

variable {b : Build α} {f : α → Build β}

theorem trivially (h : Calm k Q b) : Places k R Q true b := h.last fun _ _ => rfl

theorem forget {P : α → Prop} (h : Judges k P Q b) : Calm k Q b := h.mono (fun _ _ => trivial) id

theorem after (h : Places k R Q p b) (h' : ∀ a, Calm k Q (f a)) : Places k R Q p (b >>= f) :=
  h.bind fun a hp => (h' a).last fun _ => hp

theorem given (h : Places k R Q q b) (hp : p = true) : Places k R Q (p && q) b :=
  h.mono (fun _ hq hr => Bool.and_eq_true_iff.mpr ⟨hp, hq hr⟩) id

theorem both (h : Places k R Q p b) (h' : ∀ a, Places k R Q q (f a)) :
    Places k R Q (p && q) (b >>= f) :=
  h.bind fun a hp => (h' a).mono (fun _ hq hr => Bool.and_eq_true_iff.mpr ⟨hp hr, hq hr⟩) id

theorem inStatement {b : Build Unit} {P : Unit → Prop} (h : Judges k P Q b) (line : UInt32) :
    Judges k P Q (inStatement line b) := by
  refine step (.setLine line) fun _ s hk => ?_
  rw [tryCatch_run]
  obtain ⟨hok, herr⟩ := h s hk
  split
  · next hb =>
    constructor
    · rintro a s' ⟨⟩
      exact hok _ _ hb
    · rintro e s' ⟨⟩
  · next e₀ s₀ hb =>
    constructor
    · rintro a s' ⟨⟩
    · rintro e s' ⟨⟩ he
      rw [CompileError.isPosition_withContext] at he
      exact herr e₀ s₀ hb he

end Judges
end Build

section Simple

variable {o : Options} {k : ScopeKind} {Q : Prop}

theorem calm_storeAll {ts : List Expr} (h : ∀ t ∈ ts, t.CalmIn o.filename k Q) :
    Calm k Q (storeAll o.filename ts) := by
  induction ts with
  | nil => exact .pure trivial
  | cons t ts ih =>
    have ht := h t List.mem_cons_self .push
    cases ts with
    | nil => exact ht
    | cons t' ts =>
      exact .step (.emit _) fun _ => ht.before fun _ =>
        ih fun t ht => h t (List.mem_cons_of_mem _ ht)

theorem calm_augmentedAssign {target : Expr} (op : Operator) {e : Expr}
    (htarget : ∀ e ∈ target.operands, e.CalmIn o.filename k Q) (he : e.CalmIn o.filename k Q) :
    Calm k Q (augmentedAssign o.filename target op e) := by
  unfold augmentedAssign
  split
  · next line object attr ctx =>
    have hobject := htarget object (by simp [Expr.operands, Expr.parts]) .push
    exact hobject.before fun _ => .step (.emit _) fun _ => .step (.emitName _ _) fun _ =>
      (he .push).before fun _ => .step (.emit _) fun _ => .step (.emit _) fun _ =>
        .of (.emitName _ _)
  · next line object index ctx =>
    have hobject := htarget object (by simp [Expr.operands, Expr.parts]) .push
    have hindex := htarget index (by simp [Expr.operands, Expr.parts]) .push
    exact hobject.before fun _ => hindex.before fun _ => .step (.emit _) fun _ =>
      .step (.emit _) fun _ => (he .push).before fun _ => .step (.emit _) fun _ =>
        .step (.emit _) fun _ => .of (.emit _)
  · exact .step (.accessName _ _) fun _ => (he .push).before fun _ =>
      .step (.emit _) fun _ => .of (.accessName _ _)
  · exact .fail _

theorem calm_raiseStatement {exc cause : Option Expr}
    (h : ∀ e ∈ exc.toList ++ cause.toList, e.CalmIn o.filename k Q) :
    Calm k Q (raiseStatement o.filename exc cause) := by
  cases exc with
  | none => exact .of (.emitArg _ _)
  | some exc =>
    have hexc := h exc (by simp) .push
    cases cause with
    | none => exact hexc.before fun _ => .of (.emitArg _ _)
    | some cause =>
      have hcause := h cause (by simp) .push
      exact hexc.before fun _ => hcause.before fun _ => .of (.emitArg _ _)

theorem calm_assertStatement {test : Expr} {msg : Option Expr}
    (htest : test.CalmIn o.filename k Q) (hmsg : ∀ e ∈ msg.toList, e.CalmIn o.filename k Q) :
    Calm k Q (assertStatement o test msg) := by
  unfold assertStatement
  split
  · exact .skipChildren _
  · refine .step .newBlock fun done => (htest _).before fun _ => .step (.emit _) fun _ => ?_
    have hraise : Calm k Q (do emitArg .raiseVarargs 1; fallInto done) :=
      .step (.emitArg _ _) fun _ => .of (.fallInto done)
    cases msg with
    | none => exact hraise
    | some m =>
      exact (hmsg m (by simp) .push).before fun _ => .step (.emitArg _ _) fun _ => hraise

theorem calm_pushAnnotations (out : Array String) {ps : List Param}
    (h : ∀ e ∈ ps.filterMap Param.annotation, e.CalmIn o.filename k Q) :
    Calm k Q (pushAnnotations o.filename out ps) := by
  induction ps generalizing out with
  | nil => exact .pure trivial
  | cons p ps ih =>
    obtain ⟨x, annotation⟩ := p
    cases annotation with
    | none => exact ih out h
    | some e =>
      have hcons : (Param.mk x (some e) :: ps).filterMap Param.annotation =
          e :: ps.filterMap Param.annotation := rfl
      rw [hcons, List.forall_mem_cons] at h
      exact (h.1 .push).before fun _ => ih (out.push x) h.2

theorem calm_annotations (args : Arguments) (returns : Option Expr)
    (h : ∀ e ∈ (args.annotated returns).map Prod.snd, e.CalmIn o.filename k Q) :
    Calm k Q (annotations o.filename args returns) := by
  have hmap (ps : List Param) :
      (ps.filterMap fun (p : Param) => p.annotation.map (p.name, ·)).map Prod.snd =
        ps.filterMap Param.annotation := by
    rw [List.map_filterMap]
    congr 1
    funext p
    cases p.annotation <;> rfl
  rw [Arguments.annotated, hmap] at h
  exact (calm_pushAnnotations #[] h).before fun keys => .of (.annotationKeys keys)

end Simple

section Parts

variable {k : ScopeKind} {Q R : Prop} {p : Bool} {b : Build Unit}

/-- The test of an exception's type in front of a handler. -/
theorem judges_typeTest {filename : String} {type : Option Expr} {next : BlockId}
    {P : Unit → Prop} (h : Judges k P Q b) :
    (∀ t ∈ type.toList, t.CalmIn filename k Q) → Judges k P Q (match type with
      | some t => do
        emit .dupTop
        t.lower filename .push
        emitJump .jumpIfNotExcMatch next
        b
      | _ => b) := by
  intro htype
  cases type with
  | none => exact h
  | some t =>
    exact .step (.emit _) fun _ => (htype t (by simp) .push).before fun _ =>
      .step (.emitJump _ _) fun _ => h

theorem places_namedHandler (x : String) (done : BlockId) (h : Places k R Q p b) :
    Places k R Q p (do
      let cleanup ← newBlock
      let inside ← newBlock
      accessName x .store
      emit .popTop
      emitJump .setupFinally cleanup
      fallInto inside
      b
      emit .popBlock
      emit .popExcept
      clearName x
      emitJump .jumpForward done
      fallInto cleanup
      clearName x
      emit .reraise) :=
  .step .newBlock fun _ => .step .newBlock fun _ => .step (.accessName _ _) fun _ =>
    .step (.emit _) fun _ => .step (.emitJump _ _) fun _ => .step (.fallInto _) fun _ =>
      h.after fun _ => .step (.emit _) fun _ => .step (.emit _) fun _ =>
        .step (.clearName _) fun _ => .step (.emitJump _ _) fun _ => .step (.fallInto _) fun _ =>
          .step (.clearName _) fun _ => .of (.emit _)

theorem places_bareHandler (done : BlockId) (h : Places k R Q p b) :
    Places k R Q p (do
      let inside ← newBlock
      emit .popTop
      emit .popTop
      fallInto inside
      b
      emit .popExcept
      emitJump .jumpForward done) :=
  .step .newBlock fun _ => .step (.emit _) fun _ => .step (.emit _) fun _ =>
    .step (.fallInto _) fun _ => h.after fun _ => .step (.emit _) fun _ => .of (.emitJump _ _)

/-- The normal copy of a final body and the one for exceptions, after the body they are for. -/
theorem places_finalBodies (final exit : BlockId) {b' : Build Unit} (h : Places k R Q p b)
    (h' : Calm k Q b') :
    Places k R Q p (do
      emit .popBlock
      b
      emitJump .jumpForward exit
      fallInto final
      b'
      emit .reraise
      fallInto exit) :=
  .step (.emit _) fun _ => h.after fun _ => .step (.emitJump _ _) fun _ =>
    .step (.fallInto _) fun _ => h'.before fun _ => .step (.emit _) fun _ => .of (.fallInto _)

/-- What goes to a loop tells that there is one, if it is refused without. -/
theorem places_loop {frames : List Frame} {b : Build (Option Frame)}
    {go : Option Frame → Build Unit}
    (hb : Judges k (fun f => f = frames.find? Frame.isLoop) Q b)
    (hplaced : Q → frames.any Frame.isLoop = true)
    (hsome : ∀ f : Frame, f.isLoop = true → Calm k Q (go (some f)))
    (hnone : ¬ Q → Judges k (fun _ => False) Q (go none)) :
    Places k R Q (frames.any Frame.isLoop) (b >>= go) := by
  refine hb.bind ?_
  rintro _ rfl
  cases hfind : frames.find? Frame.isLoop with
  | none =>
    have hany : ¬ frames.any Frame.isLoop = true := by
      simpa [List.find?_eq_none] using hfind
    exact (hnone fun hq => hany (hplaced hq)).mono (fun _ h => h.elim) id
  | some f =>
    have hloop := List.find?_some hfind
    exact (hsome f hloop).last fun _ _ =>
      List.any_eq_true.mpr ⟨f, List.mem_of_find?_eq_some hfind, hloop⟩

end Parts

mutual

theorem Stmt.judged (o : Options) {k : ScopeKind} {R Q : Prop} (frames : List Frame) (s : Stmt)
    (hstray : R → ¬ s.HasStrayElse)
    (hs : Q → s.Stands k.isFunctionLike (frames.any Frame.isLoop))
    (hframes : Q → Frame.StandAll k.isFunctionLike frames) :
    Places k R Q (s.placed k.isFunctionLike (frames.any Frame.isLoop))
      (Stmt.lower o frames s) := by
  have hexpr (e : Expr) (he : e ∈ s.exprs) : e.CalmIn o.filename k Q :=
    Expr.calmIn fun hq => (hs hq).expr he
  have hinner {ss : List Stmt} (hss : ss ⊆ s.inner) (hr : R) : ∀ s' ∈ ss, ¬ s'.HasStrayElse :=
    fun s' hs' h => hstray hr (.inner (hss hs') h)
  rw [Stmt.lower.eq_def]
  refine .inStatement ?_ s.line
  cases s with
  | functionDef line name args body decorators returns =>
    have hbody : Places .function R Q (Stmt.placedAll true false (withoutDocstring o body))
        (Stmt.lowerAll o [] (withoutDocstring o body)) :=
      Stmt.allJudged o [] _ (hinner fun _ => mem_of_mem_withoutDocstring)
        (fun hq s' hs' => (hs hq).inner (fun _ h => h) (hs hq).placed s'
          (mem_of_mem_withoutDocstring hs')) fun _ => trivial
    rw [placedAll_withoutDocstring] at hbody
    have hdefaults := calm_defaults (a := args) fun e he => hexpr e (by
      simp only [Stmt.exprs, List.mem_append] at he ⊢
      tauto)
    have hannotations := calm_annotations args returns fun e he =>
      hexpr e (List.mem_append_right _ he)
    have hdecorators : Calm k Q (Expr.lowerAll o.filename decorators) :=
      calm_all fun e he => hexpr e (by simp [Stmt.exprs, he])
    exact hdecorators.before fun _ => hdefaults.before fun parts => hannotations.before
      fun annotated => .bind (.inScope (.step (.internConstant _) fun _ => hbody.after fun _ =>
        .pure trivial)) fun code hp => .last (.step (.makeClosure _ _ _) fun _ =>
          .step (.repeatEmit _ _ _) fun _ => .of (.accessName _ _)) fun _ => hp
  | classDef line name bases keywords body decorators =>
    have hbody : Places .classBody R Q (Stmt.placedAll false false (withoutDocstring o body))
        (Stmt.lowerAll o [] (withoutDocstring o body)) :=
      Stmt.allJudged o [] _ (hinner fun _ => mem_of_mem_withoutDocstring)
        (fun hq s' hs' => (hs hq).inner (fun _ h => h) (hs hq).placed s'
          (mem_of_mem_withoutDocstring hs')) fun _ => trivial
    rw [placedAll_withoutDocstring] at hbody
    have hdecorators : Calm k Q (Expr.lowerAll o.filename decorators) :=
      calm_all fun e he => hexpr e (by simp [Stmt.exprs, he])
    have hbases : Calm k Q (Expr.lowerAll o.filename bases) :=
      calm_all fun e he => hexpr e (by simp [Stmt.exprs, he])
    have hkeywords : Calm k Q (Keyword.lowerValues o.filename keywords) :=
      calm_values fun e he => hexpr e (List.mem_append_right _ he)
    exact hdecorators.before fun _ => .bind (.inScope (.step .classProlog fun _ =>
      .step (.bindDocstring o body) fun _ => hbody.after fun _ =>
        .step .classEpilog fun _ => .pure trivial)) fun code hp =>
          .last (.step (.emit _) fun _ => .step (.makeClosure _ _ _) fun _ =>
            .step (.loadConst _) fun _ => .before (calm_callWith _ _ _ hbases hkeywords) fun _ =>
              .step (.repeatEmit _ _ _) fun _ => .of (.accessName _ _)) fun _ => hp
  | ret line e =>
    have hkeep := (Frame.judgedUnwind o true false frames hframes).forget
    have hdrop := (Frame.judgedUnwind o false false frames hframes).forget
    refine .bind (.ask _) ?_
    rintro _ ⟨d, rfl, rfl⟩
    refine .guard (fun hc _ hq => ?_) fun hc => .last ?_ fun _ _ => by
      simpa [Stmt.placed] using hc
    · have hplaced : d.kind.isFunctionLike = true := (hs hq).placed
      simp [hplaced] at hc
    · cases e with
      | none => exact hdrop.before fun _ => .step (.loadConst _) fun _ => .of (.emit _)
      | some e =>
        have he := hexpr e (by simp [Stmt.exprs]) .push
        dsimp only
        split
        · exact hdrop.before fun _ => he.before fun _ => .of (.emit _)
        · exact he.before fun _ => hkeep.before fun _ => .of (.emit _)
  | delete line targets => exact .trivially (calm_all hexpr)
  | assign line targets e =>
    have hvalue := hexpr e List.mem_cons_self .push
    exact .trivially (hvalue.before fun _ =>
      calm_storeAll fun t ht => hexpr t (List.mem_cons_of_mem _ ht))
  | augAssign line target op e =>
    refine .trivially (calm_augmentedAssign op (fun e' he' => Expr.calmIn fun hq => ?_)
      (hexpr e (by simp [Stmt.exprs])))
    exact ((hs hq).expr List.mem_cons_self).imp_right fun h hyields => h (.operand he' hyields)
  | raise line exc cause => exact .trivially (calm_raiseStatement hexpr)
  | assert line test msg =>
    exact .trivially (calm_assertStatement (hexpr test List.mem_cons_self)
      fun e he => hexpr e (List.mem_cons_of_mem _ he))
  | importNames line names => exact .trivially (.of (.importAll names))
  | importFrom line origin names level => exact .trivially (.of (.importFrom origin names level))
  | «global» | «nonlocal» | pass => exact .pure fun _ => rfl
  | expr line e =>
    have he := hexpr e (by simp [Stmt.exprs]) .push
    dsimp only
    split
    · exact .trivially (.of (.emit _))
    · exact .trivially (he.before fun _ => .of (.emit _))
  | breakLoop line =>
    refine places_loop ((Frame.judgedUnwind o false true frames hframes).mono (fun _ h => h rfl) id)
      (fun hq => (hs hq).placed) (fun f hloop => ?_) fun hno => .throw fun _ => hno
    cases f with
    | whileLoop => exact .of (.emitJump _ _)
    | forLoop => exact .step (.emit _) fun _ => .of (.emitJump _ _)
    | _ => cases hloop
  | continueLoop line =>
    refine places_loop ((Frame.judgedUnwind o false true frames hframes).mono (fun _ h => h rfl) id)
      (fun hq => (hs hq).placed) (fun f hloop => ?_) fun hno => .throw fun _ => hno
    cases f with
    | whileLoop | forLoop => exact .of (.emitJump _ _)
    | _ => cases hloop
  | forLoop line target iter body orelse =>
    have hiter := hexpr iter (by simp [Stmt.exprs]) .push
    have htarget := hexpr target (by simp [Stmt.exprs]) .push
    have hplaced (hq : Q) := Bool.and_eq_true_iff.mp (hs hq).placed
    have hbody (start done : BlockId) : Places k R Q (Stmt.placedAll k.isFunctionLike true body)
        (Stmt.lowerAll o (.forLoop start done :: frames) body) :=
      Stmt.allJudged o _ body (hinner (List.subset_append_left _ _))
        (fun hq => (hs hq).inner (List.subset_append_left _ _) (hplaced hq).1) hframes
    have horelse : Places k R Q _ (Stmt.lowerAll o frames orelse) :=
      Stmt.allJudged o frames orelse (hinner (List.subset_append_right _ _))
        (fun hq => (hs hq).inner (List.subset_append_right _ _) (hplaced hq).2) hframes
    exact .step .newBlock fun start => .step .newBlock fun cleanup => .step .newBlock fun done =>
      hiter.before fun _ => .step (.emit _) fun _ => .step (.fallInto _) fun _ =>
        .step (.emitJump _ _) fun _ => htarget.before fun _ => (hbody start done).both fun _ =>
          .step (.emitJump _ _) fun _ => .step (.fallInto _) fun _ =>
            horelse.after fun _ => .of (.fallInto _)
  | whileLoop line test body orelse =>
    have htest (anchor : BlockId) := hexpr test (by simp [Stmt.exprs]) (.jump anchor false)
    have hplaced (hq : Q) := Bool.and_eq_true_iff.mp (hs hq).placed
    have hbody (start done : BlockId) : Places k R Q (Stmt.placedAll k.isFunctionLike true body)
        (Stmt.lowerAll o (.whileLoop start done :: frames) body) :=
      Stmt.allJudged o _ body (hinner (List.subset_append_left _ _))
        (fun hq => (hs hq).inner (List.subset_append_left _ _) (hplaced hq).1) hframes
    have horelse : Places k R Q _ (Stmt.lowerAll o frames orelse) :=
      Stmt.allJudged o frames orelse (hinner (List.subset_append_right _ _))
        (fun hq => (hs hq).inner (List.subset_append_right _ _) (hplaced hq).2) hframes
    exact .step .newBlock fun start => .step .newBlock fun done => .step .newBlock fun anchor =>
      .step (.fallInto _) fun _ => (htest anchor).before fun _ =>
        (hbody start done).both fun _ => .step (.emitJump _ _) fun _ =>
          .step (.fallInto _) fun _ => horelse.after fun _ => .of (.fallInto _)
  | ifElse line test body orelse =>
    have htest (next : BlockId) := hexpr test (by simp [Stmt.exprs]) (.jump next false)
    have hplaced (hq : Q) := Bool.and_eq_true_iff.mp (hs hq).placed
    have hbody : Places k R Q _ (Stmt.lowerAll o frames body) :=
      Stmt.allJudged o frames body (hinner (List.subset_append_left _ _))
        (fun hq => (hs hq).inner (List.subset_append_left _ _) (hplaced hq).1) hframes
    have horelse : Places k R Q _ (Stmt.lowerAll o frames orelse) :=
      Stmt.allJudged o frames orelse (hinner (List.subset_append_right _ _))
        (fun hq => (hs hq).inner (List.subset_append_right _ _) (hplaced hq).2) hframes
    cases orelse with
    | nil =>
      exact .step .newBlock fun done => (htest done).before fun _ =>
        hbody.both fun _ => .trivially (.of (.fallInto done))
    | cons s ss =>
      exact .step .newBlock fun done => .step .newBlock fun next => (htest next).before fun _ =>
        hbody.both fun _ => .step (.emitJump _ _) fun _ => .step (.fallInto _) fun _ =>
          horelse.after fun _ => .of (.fallInto done)
  | tryExcept line body handlers orelse finalbody =>
    have hinBody : body ⊆ (Stmt.tryExcept line body handlers orelse finalbody).inner :=
      fun s' hs' => by simp [Stmt.inner, hs']
    have hinHandlers : handlers.flatMap Handler.body ⊆
        (Stmt.tryExcept line body handlers orelse finalbody).inner := fun s' hs' => by
      simp only [Stmt.inner, List.mem_append]
      tauto
    have hinElse : orelse ⊆ (Stmt.tryExcept line body handlers orelse finalbody).inner :=
      fun s' hs' => by simp [Stmt.inner, hs']
    have hinFinal : finalbody ⊆ (Stmt.tryExcept line body handlers orelse finalbody).inner :=
      fun s' hs' => by simp [Stmt.inner, hs']
    have hplaced (hq : Q) := Bool.and_eq_true_iff.mp (hs hq).placed
    have hprotected (hq : Q) := Bool.and_eq_true_iff.mp (hplaced hq).1
    have hothers (hq : Q) := Bool.and_eq_true_iff.mp (hprotected hq).2
    have hbody (hq : Q) := (hs hq).inner hinBody (hprotected hq).1
    have hhandlers (hq : Q) (s' : Stmt) (hs' : s' ∈ handlers.flatMap Handler.body) :
        ¬ s'.YieldsOutside k.isFunctionLike :=
      fun hyields => (hs hq).silent (.inner (hinHandlers hs') hyields)
    have horelse (hq : Q) := (hs hq).inner hinElse (hothers hq).2
    have hfinal (hq : Q) := (hs hq).inner hinFinal (hplaced hq).2
    cases finalbody with
    | nil =>
      have htry : Places k R Q _ (Stmt.lowerTry o frames body handlers orelse) :=
        Stmt.judgedTry o frames body handlers orelse (hinner hinBody) (hinner hinHandlers)
          (hinner hinElse) hbody hexpr (fun hq => (hothers hq).1) hhandlers horelse hframes
      exact htry.mono (fun _ h hr => Bool.and_eq_true_iff.mpr ⟨h hr, rfl⟩) id
    | cons s ss =>
      have hnormal : Places k R Q _ (Stmt.lowerAll o frames (s :: ss)) :=
        Stmt.allJudged o frames (s :: ss) (hinner hinFinal) hfinal hframes
      have hexceptional : Places k R Q _ (Stmt.lowerAll o (.finallyEnd :: frames) (s :: ss)) :=
        Stmt.allJudged o (.finallyEnd :: frames) (s :: ss) (hinner hinFinal) hfinal hframes
      have hwithin (hq : Q) : Frame.StandAll k.isFunctionLike (.finallyTry (s :: ss) :: frames) :=
        ⟨hfinal hq, hframes hq⟩
      cases handlers with
      | nil =>
        have hinside : Places k R Q
            (Stmt.placedAll k.isFunctionLike (frames.any Frame.isLoop) body)
            (Stmt.lowerAll o (.finallyTry (s :: ss) :: frames) body) :=
          Stmt.allJudged o (.finallyTry (s :: ss) :: frames) body (hinner hinBody) hbody hwithin
        refine .step .newBlock fun inside => .step .newBlock fun final =>
          .step .newBlock fun exit => .step (.emitJump _ _) fun _ => .step (.fallInto _) fun _ =>
            (hinside.both fun _ => places_finalBodies final exit hnormal hexceptional.forget).mono
              (fun _ h hr => ?_) id
        obtain rfl : orelse = [] := not_not.mp fun hne => hstray hr (.here hne)
        simpa [Stmt.placed, Handler.placedAll, Stmt.placedAll] using h hr
      | cons clause clauses =>
        have hinside : Places k R Q _
            (Stmt.lowerTry o (.finallyTry (s :: ss) :: frames) body (clause :: clauses) orelse) :=
          Stmt.judgedTry o (.finallyTry (s :: ss) :: frames) body (clause :: clauses) orelse
            (hinner hinBody) (hinner hinHandlers) (hinner hinElse) hbody hexpr
            (fun hq => (hothers hq).1) hhandlers horelse hwithin
        exact .step .newBlock fun inside => .step .newBlock fun final => .step .newBlock fun exit =>
          .step (.emitJump _ _) fun _ => .step (.fallInto _) fun _ =>
            hinside.both fun _ => places_finalBodies final exit hnormal hexceptional.forget
termination_by s.weight + Frame.weightOfAll frames
decreasing_by
  all_goals
    subst_vars
    simp only [Stmt.weight, Frame.weight, Frame.weightOfAll]
    first
    | omega
    | have := weightOfAll_withoutDocstring_le o body
      omega

theorem Stmt.allJudged (o : Options) {k : ScopeKind} {R Q : Prop} (frames : List Frame)
    (ss : List Stmt) (hstray : R → ∀ s ∈ ss, ¬ s.HasStrayElse)
    (hss : Q → ∀ s ∈ ss, s.Stands k.isFunctionLike (frames.any Frame.isLoop))
    (hframes : Q → Frame.StandAll k.isFunctionLike frames) :
    Places k R Q (Stmt.placedAll k.isFunctionLike (frames.any Frame.isLoop) ss)
      (Stmt.lowerAll o frames ss) := by
  cases ss with
  | nil =>
    rw [Stmt.lowerAll]
    exact .pure fun _ => rfl
  | cons s ss =>
    rw [Stmt.lowerAll]
    exact (Stmt.judged o frames s (fun hr => hstray hr s List.mem_cons_self)
      (fun hq => hss hq s List.mem_cons_self) hframes).both fun _ =>
        Stmt.allJudged o frames ss (fun hr s' hs' => hstray hr s' (List.mem_cons_of_mem _ hs'))
          (fun hq s' hs' => hss hq s' (List.mem_cons_of_mem _ hs')) hframes
termination_by Stmt.weightOfAll ss + Frame.weightOfAll frames
decreasing_by
  all_goals
    subst_vars
    simp only [Stmt.weightOfAll]
    omega

theorem Stmt.judgedTry (o : Options) {k : ScopeKind} {R Q : Prop} (frames : List Frame)
    (body : List Stmt) (handlers : List Handler) (orelse : List Stmt)
    (hstrayBody : R → ∀ s ∈ body, ¬ s.HasStrayElse)
    (hstrayHandlers : R → ∀ s ∈ handlers.flatMap Handler.body, ¬ s.HasStrayElse)
    (hstrayElse : R → ∀ s ∈ orelse, ¬ s.HasStrayElse)
    (hbody : Q → ∀ s ∈ body, s.Stands k.isFunctionLike (frames.any Frame.isLoop))
    (htypes : ∀ e ∈ handlers.filterMap Handler.type, e.CalmIn o.filename k Q)
    (hplaced : Q →
      Handler.placedAll k.isFunctionLike (frames.any Frame.isLoop) handlers = true)
    (hsilent : Q → ∀ s ∈ handlers.flatMap Handler.body, ¬ s.YieldsOutside k.isFunctionLike)
    (horelse : Q → ∀ s ∈ orelse, s.Stands k.isFunctionLike (frames.any Frame.isLoop))
    (hframes : Q → Frame.StandAll k.isFunctionLike frames) :
    Places k R Q (Stmt.placedAll k.isFunctionLike (frames.any Frame.isLoop) body &&
        (Handler.placedAll k.isFunctionLike (frames.any Frame.isLoop) handlers &&
          Stmt.placedAll k.isFunctionLike (frames.any Frame.isLoop) orelse))
      (Stmt.lowerTry o frames body handlers orelse) := by
  have hinside : Places k R Q _ (Stmt.lowerAll o (.tryExcept :: frames) body) :=
    Stmt.allJudged o (.tryExcept :: frames) body hstrayBody hbody hframes
  have hhandlers (done : BlockId) : Places k R Q _
      (Handler.lowerAll o (.exceptionHandler :: frames) done handlers) :=
    Handler.allJudged o (.exceptionHandler :: frames) done handlers hstrayHandlers htypes hplaced
      hsilent hframes
  have hotherwise : Places k R Q _ (Stmt.lowerAll o frames orelse) :=
    Stmt.allJudged o frames orelse hstrayElse horelse hframes
  rw [Stmt.lowerTry]
  exact .step .newBlock fun inside => .step .newBlock fun except =>
    .step .newBlock fun otherwise => .step .newBlock fun done => .step (.emitJump _ _) fun _ =>
      .step (.fallInto _) fun _ => hinside.both fun _ => .step (.emit _) fun _ =>
        .step (.emitJump _ _) fun _ => .step (.fallInto _) fun _ => (hhandlers done).both
          fun _ => .step (.emit _) fun _ => .step (.fallInto _) fun _ =>
            hotherwise.after fun _ => .of (.fallInto _)
termination_by Stmt.weightOfAll body + Handler.weightOfAll handlers + Stmt.weightOfAll orelse +
  Frame.weightOfAll frames + 2
decreasing_by
  all_goals first
  | omega
  | simp only [Frame.weight, Frame.weightOfAll]
    omega

theorem Handler.allJudged (o : Options) {k : ScopeKind} {R Q : Prop} (frames : List Frame)
    (done : BlockId) (hs : List Handler)
    (hstray : R → ∀ s ∈ hs.flatMap Handler.body, ¬ s.HasStrayElse)
    (htypes : ∀ e ∈ hs.filterMap Handler.type, e.CalmIn o.filename k Q)
    (hplaced : Q → Handler.placedAll k.isFunctionLike (frames.any Frame.isLoop) hs = true)
    (hsilent : Q → ∀ s ∈ hs.flatMap Handler.body, ¬ s.YieldsOutside k.isFunctionLike)
    (hframes : Q → Frame.StandAll k.isFunctionLike frames) :
    Places k R Q (Handler.placedAll k.isFunctionLike (frames.any Frame.isLoop) hs)
      (Handler.lowerAll o frames done hs) := by
  match hs with
  | [] =>
    rw [Handler.lowerAll]
    exact .pure fun _ => rfl
  | ⟨type, name, body, line⟩ :: rest =>
    have hlast (hq : Q) := Bool.and_eq_true_iff.mp (hplaced hq)
    have hothers (hq : Q) := Bool.and_eq_true_iff.mp (hlast hq).2
    have hbody (x : Option String) : Places k R Q
        (Stmt.placedAll k.isFunctionLike (frames.any Frame.isLoop) body)
        (Stmt.lowerAll o (.handlerCleanup x :: frames) body) :=
      Stmt.allJudged o (.handlerCleanup x :: frames) body
        (fun hr s hs => hstray hr s (List.mem_append_left _ hs))
        (fun hq s hs => ⟨Stmt.placedAll_iff.mp (hothers hq).1 s hs,
          hsilent hq s (List.mem_append_left _ hs)⟩) hframes
    have hrest : Places k R Q _ (Handler.lowerAll o frames done rest) :=
      Handler.allJudged o frames done rest
        (fun hr s hs => hstray hr s (List.mem_append_right _ hs))
        (fun e he => htypes e (by
          obtain ⟨h, hh, he⟩ := List.mem_filterMap.mp he
          exact List.mem_filterMap.mpr ⟨h, List.mem_cons_of_mem _ hh, he⟩))
        (fun hq => (hothers hq).2)
        (fun hq s hs => hsilent hq s (List.mem_append_right _ hs)) hframes
    have hnext (next : BlockId) : Places k R Q _ (do
        fallInto next
        Handler.lowerAll o frames done rest) := .step (.fallInto next) fun _ => hrest
    have htype : ∀ e ∈ type.toList, e.CalmIn o.filename k Q := fun e he =>
      htypes e (List.mem_filterMap.mpr ⟨_, List.mem_cons_self, Option.mem_toList.mp he⟩)
    rw [Handler.lowerAll]
    refine .guard (fun hc _ hq => ?_) fun hc => .step (.setLine line) fun _ =>
      .step .newBlock fun next => .given ?_ ?_
    · have := (hlast hq).1
      cases type <;> simp_all
    · cases name with
      | some x =>
        have h := Judges.step (.emit .popTop) fun _ =>
          (places_namedHandler x done (hbody (some x))).both fun _ => hnext next
        simp only [bind_assoc] at h
        exact judges_typeTest h htype
      | none =>
        have h := Judges.step (.emit .popTop) fun _ =>
          (places_bareHandler done (hbody none)).both fun _ => hnext next
        simp only [bind_assoc] at h
        exact judges_typeTest h htype
    · cases type <;> simp_all
termination_by Handler.weightOfAll hs + Frame.weightOfAll frames
decreasing_by
  all_goals
    simp only [Handler.weightOfAll, Frame.weight, Frame.weightOfAll]
    omega

theorem Frame.judgedUnwind (o : Options) {k : ScopeKind} {Q : Prop} (keep toLoop : Bool)
    (frames : List Frame) (hframes : Q → Frame.StandAll k.isFunctionLike frames) :
    Judges k (fun f => toLoop = true → f = frames.find? Frame.isLoop) Q
      (Frame.unwind o keep toLoop frames) := by
  cases frames with
  | nil =>
    rw [Frame.unwind]
    exact .pure fun _ => rfl
  | cons f outer =>
    rw [Frame.unwind]
    split
    · next hstop =>
      obtain ⟨_, hloop⟩ := Bool.and_eq_true_iff.mp hstop
      exact .pure fun _ => (List.find?_cons_of_pos hloop).symm
    · next hstop =>
      refine .step (.leave f keep) fun _ => ?_
      have houter (hstand : Q → Frame.StandAll k.isFunctionLike outer) :
          Judges k (fun f' => toLoop = true → f' = (f :: outer).find? Frame.isLoop) Q
            (Frame.unwind o keep toLoop outer) := by
        refine (Frame.judgedUnwind o keep toLoop outer hstand).mono (fun _ h hto => ?_) id
        rw [List.find?_cons_of_neg (by simpa [hto] using hstop), h hto]
      cases f with
      | finallyTry finalbody =>
        have hbody := Stmt.allJudged o (R := False) (k := k) (Q := Q)
          (if keep then .popValue :: outer else outer) finalbody nofun
          (fun hq => by cases keep <;> exact (hframes hq).1)
          (fun hq => by cases keep <;> exact (hframes hq).2)
        exact .step (.ask fun _ _ => rfl) fun saved => hbody.forget.before fun _ =>
          .step (.setLine saved) fun _ => houter fun hq => (hframes hq).2
      | _ => exact houter hframes
termination_by Frame.weightOfAll frames
decreasing_by
  · subst_vars
    have := Frame.weight_pos f
    simp only [Frame.weightOfAll]
    omega
  · subst_vars
    cases keep <;> simp [Frame.weightOfAll, Frame.weight]
    omega

end

/-- The statements of a module and, in front of them, its docstring. -/
theorem judges_lowerModule (o : Options) {R Q : Prop} {body : List Stmt}
    (hstray : R → ∀ s ∈ body, ¬ s.HasStrayElse) (hbody : Q → ∀ s ∈ body, s.Stands false false) :
    Places .module R Q (Stmt.placedAll false false body) (Stmt.lowerModule o body) := by
  have hall : Places .module R Q (Stmt.placedAll false false (withoutDocstring o body))
      (Stmt.lowerAll o [] (withoutDocstring o body)) :=
    Stmt.allJudged o [] _ (fun hr s hs => hstray hr s (mem_of_mem_withoutDocstring hs))
      (fun hq s hs => hbody hq s (mem_of_mem_withoutDocstring hs)) fun _ => trivial
  rw [placedAll_withoutDocstring] at hall
  have hrest : Places .module R Q (Stmt.placedAll false false body)
      (do bindDocstring o body; Stmt.lowerAll o [] (withoutDocstring o body)) :=
    .step (.bindDocstring o body) fun _ => hall
  unfold Stmt.lowerModule
  split
  · exact .step (.setLine _) fun _ => hrest
  · exact hrest

/-- A module that compiles has nothing misplaced in it. If nothing is misplaced in a module, and
nothing yields outside a function, it is not refused for that. -/
theorem compile_position (body : List Stmt) (t : ScopeTable) (o : Options)
    (hstray : ∀ s ∈ body, ¬ s.HasStrayElse) :
    ((∃ c, compile (.module body) t o = .ok c) → Stmt.placedAll false false body = true) ∧
      (Stmt.placedAll false false body = true → (∀ s ∈ body, ¬ s.YieldsOutside false) →
        ∀ e, compile (.module body) t o = .error e → e.isPosition = false) := by
  constructor
  · rintro ⟨c, h⟩
    obtain ⟨hkind, s, hrun, _⟩ := of_compile_run h
    have hjudged : Places .module True False _ (Stmt.lowerModule o body) :=
      judges_lowerModule o (fun _ => hstray) False.elim
    exact ((hjudged _ hkind).1 () s hrun).2 trivial
  · intro hplaced hsilent e h
    have hjudged : Places .module False True _ (Stmt.lowerModule o body) :=
      judges_lowerModule o False.elim fun _ s hs =>
        ⟨Stmt.placedAll_iff.mp hplaced s hs, hsilent s hs⟩
    rw [Bool.eq_false_iff]
    intro he
    change compileScope t o true (Stmt.lowerModule o body) = .error e at h
    unfold compileScope at h
    split at h
    · next hkind =>
      split at h
      · rw [Draft.not_isPosition_of_finish h] at he
        cases he
      · next hrun =>
        cases h
        exact (hjudged _ hkind).2 e _ hrun he trivial
    · cases h
      cases he

/-- The statements `while x: try: break finally: continue`. Their final body is compiled three
times. -/
def breakThroughFinal : List Stmt :=
  [.whileLoop 1 (.name 1 "x" .load) [.tryExcept 2 [.breakLoop 3] [] [] [.continueLoop 5]] []]

theorem breakThroughFinal_position : (∃ c, compile (.module breakThroughFinal) .module {} = .ok c) ∧
    Stmt.placedAll false false breakThroughFinal = true ∧
      ∀ e, compile (.module breakThroughFinal) .module {} = .error e → e.isPosition = false := by
  have hstray : ∀ s ∈ breakThroughFinal, ¬ s.HasStrayElse := by
    simp only [breakThroughFinal, List.mem_singleton, forall_eq]
    rintro (_ | ⟨hwhile, htry⟩)
    obtain rfl := List.mem_singleton.mp hwhile
    obtain hne | ⟨hinner, hstray⟩ := htry
    · exact hne rfl
    · simp only [Stmt.inner, List.flatMap_nil, List.append_nil, List.singleton_append,
        List.mem_cons, List.not_mem_nil, or_false] at hinner
      rcases hinner with rfl | rfl <;> obtain _ | ⟨hnone, _⟩ := hstray <;> cases hnone
  have hsilent : ∀ s ∈ breakThroughFinal, ¬ s.YieldsOutside false := by
    simp only [breakThroughFinal, List.mem_singleton, forall_eq]
    rintro (⟨he, hyields⟩ | ⟨hwhile, hyields⟩)
    · obtain rfl := List.mem_singleton.mp he
      obtain _ | ⟨hnone, _⟩ := hyields
      cases hnone
    · obtain rfl := List.mem_singleton.mp hwhile
      obtain ⟨he, _⟩ | ⟨hinner, hyields⟩ := hyields
      · cases he
      · simp only [Stmt.inner, List.flatMap_nil, List.append_nil, List.singleton_append,
          List.mem_cons, List.not_mem_nil, or_false] at hinner
        rcases hinner with rfl | rfl <;>
          obtain ⟨hnone, _⟩ | ⟨hnone, _⟩ := hyields <;> cases hnone
  have hok : (compile (.module breakThroughFinal) .module {}).isOk = true := by decide +kernel
  have hcompiles : ∃ c, compile (.module breakThroughFinal) .module {} = .ok c := by
    cases h : compile (.module breakThroughFinal) .module {} with
    | ok c => exact ⟨c, rfl⟩
    | error e => simp [h, Except.isOk, Except.toBool] at hok
  obtain ⟨hplaced, hposition⟩ := compile_position breakThroughFinal .module {} hstray
  exact ⟨hcompiles, hplaced hcompiles, hposition (hplaced hcompiles) hsilent⟩

end Wordcode
