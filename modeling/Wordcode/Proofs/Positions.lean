import Wordcode.Proofs.Tables

/-!
# Misplaced constructs

Some constructs are refused for where they stand: a `return` or a `yield` that is in no function, a
`break` or `continue` in no loop, a bare `except` before other handlers. A build says what its
success tells about places, and under what condition no place is refused. Among expressions only
`yield` is refused.
-/

set_option autoImplicit false

namespace Wordcode

/-- The program is at fault: something stands where it must not. -/
def CompileError.isPosition : CompileError → Bool
  | .invalidPosition .. => true
  | _ => false

theorem CompileError.isPosition_withContext (e : CompileError) (scope : String) (line : UInt32) :
    (e.withContext scope line).isPosition = e.isPosition := by
  cases e with
  | internal f s l => cases s <;> rfl
  | unsupportedMode | invalidPosition | overflow => rfl

/-- Assembly finds nothing misplaced. -/
theorem Draft.not_isPosition_of_finish {d : Draft} {addNone : Bool} {filename : String}
    {e : CompileError} (h : d.finish addNone filename = .error e) : e.isPosition = false := by
  unfold Draft.finish at h
  split at h
  · cases hassemble : d.assemble addNone filename with
    | ok c =>
      rw [hassemble] at h
      cases h
    | error e' =>
      rw [hassemble] at h
      cases h
      rw [CompileError.isPosition_withContext]
      rcases of_assemble_error hassemble with hlayout | hdepth
      · cases hlayout <;> rfl
      · rcases maxStackDepth_error hdepth with ⟨b, k, op, rfl⟩ | rfl <;> rfl
  · cases h
    rfl

namespace Build

variable {α β : Type} {k : ScopeKind} {Q : Prop}

/-- In a scope of the kind `k`, a build that succeeds stays there and gives a result with `P`, and
nothing misplaced stops it if `Q`. -/
def Judges (k : ScopeKind) (P : α → Prop) (Q : Prop) (b : Build α) : Prop :=
  ∀ s, s.draft.kind = k →
    (∀ a s', b s = .ok a s' → s'.draft.kind = k ∧ P a) ∧
    ∀ e s', b s = .error e s' → e.isPosition = true → ¬ Q

/-- A build of which nothing is to be said but when it is refused. -/
abbrev Calm (k : ScopeKind) (Q : Prop) (b : Build α) : Prop := Judges k (fun _ => True) Q b

namespace Judges

variable {P : α → Prop} {R : β → Prop} {b : Build α} {f : α → Build β}

theorem mono {P' : α → Prop} {Q' : Prop} (h : Judges k P Q b) (hP : ∀ a, P a → P' a)
    (hQ : Q' → Q) : Judges k P' Q' b := by
  intro s hk
  obtain ⟨hok, herr⟩ := h s hk
  exact ⟨fun a s' hrun => (hok a s' hrun).imp_right (hP a),
    fun e s' hrun he hq => herr e s' hrun he (hQ hq)⟩

theorem bind (h : Judges k P Q b) (h' : ∀ a, P a → Judges k R Q (f a)) :
    Judges k R Q (b >>= f) := by
  intro s hk
  obtain ⟨hok, herr⟩ := h s hk
  constructor
  · intro r s'' hrun
    obtain ⟨a, s', hb, hf⟩ := of_bind_ok hrun
    obtain ⟨hk', hP⟩ := hok a s' hb
    exact (h' a hP s' hk').1 r s'' hf
  · intro e s'' hrun
    rcases of_bind_error hrun with hb | ⟨a, s', hb, hf⟩
    · exact herr e s'' hb
    · obtain ⟨hk', hP⟩ := hok a s' hb
      exact (h' a hP s' hk').2 e s'' hf

theorem before (h : Calm k Q b) (h' : ∀ a, Judges k R Q (f a)) : Judges k R Q (b >>= f) :=
  h.bind fun a _ => h' a

theorem last (h : Calm k Q b) (hP : ∀ a, P a) : Judges k P Q b := h.mono (fun a _ => hP a) id

theorem pure {a : α} (h : P a) : Judges k P Q (Pure.pure a) := by
  intro s hk
  constructor
  · rintro a' s' ⟨⟩
    exact ⟨hk, h⟩
  · rintro e s' ⟨⟩

theorem throw {e : CompileError} (he : e.isPosition = true → ¬ Q) :
    Judges k P Q (MonadExcept.throw e) := by
  intro s _
  constructor
  · rintro a s' ⟨⟩
  · rintro e' s' ⟨⟩
    exact he

theorem fail (f : Fault) : Judges k P Q (Build.fail f) := throw fun he => by cases he

/-- What follows a check that has failed is not run. -/
theorem guard {c : Prop} [Decidable c] {e : CompileError} {b : Build β}
    (he : c → e.isPosition = true → ¬ Q) (h : ¬ c → Judges k R Q b) :
    Judges k R Q (if c then (MonadExcept.throw e : Build α) >>= f else b) := by
  split
  · next hc =>
    have hthrow : Judges k (fun _ : α => False) Q (MonadExcept.throw e) := throw (he hc)
    exact hthrow.bind fun _ hfalse => hfalse.elim
  · next hc => exact h hc

/-- The check is for a fault of the tables or of the tree. -/
theorem check {c : Prop} [Decidable c] {fault : Fault} {b : Build β} (h : ¬ c → Judges k R Q b) :
    Judges k R Q (if c then (Build.fail fault : Build α) >>= f else b) :=
  guard (fun _ he => by cases he) h

theorem ask (g : Draft → α) : Judges k (fun a => ∃ d : Draft, d.kind = k ∧ a = g d) Q (ask g) := by
  intro s hk
  constructor
  · rintro a s' ⟨⟩
    exact ⟨hk, s.draft, hk, rfl⟩
  · rintro e s' ⟨⟩

/-- Nothing misplaced stops what stays in its scope. -/
theorem of (h : Local b) : Calm k Q b := by
  induction h with
  | pure a => exact pure trivial
  | fail f => exact fail f
  | onDraft hheader _ =>
    intro s hk
    constructor
    · rintro a s' ⟨⟩
      exact ⟨(congrArg Draft.kind (hheader s.draft)).trans hk, trivial⟩
    · rintro e s' ⟨⟩
  | bind _ _ ih ih' => exact ih.before ih'

theorem step (h : Local b) (h' : ∀ a, Judges k R Q (f a)) : Judges k R Q (b >>= f) :=
  (of h).before h'

theorem nextChild : Calm k Q nextChild := by
  intro s hk
  refine ⟨fun t s' hrun => ⟨?_, trivial⟩, fun e s' hrun he => ?_⟩
  · obtain ⟨_, _, rfl⟩ := of_nextChild_ok hrun
    exact hk
  · rw [nextChild_run] at hrun
    split at hrun <;> cases hrun
    cases he

theorem skipChildren (n : Nat) : Calm k Q (skipChildren n) := by
  induction n with
  | zero => exact pure trivial
  | succ n ih => exact nextChild.before fun _ => ih

/-- What is misplaced in a nested scope is so for the kind of that scope. -/
theorem inScope {filename name : String} {kind : ScopeKind} {line : UInt32} {body : Build Bool}
    {p : Prop} (h : Judges kind (fun _ => p) Q body) :
    Judges k (fun _ => p) Q (inScope filename name kind line body) := by
  intro s hk
  constructor
  · intro code s' hrun
    obtain ⟨table, s₁, addNone, s₂, hchild, hkind, hbody, _, rfl⟩ := of_inScope_ok hrun
    have hk₁ := ((nextChild (Q := True) s hk).1 table s₁ hchild).1
    exact ⟨hk₁, ((h _ hkind).1 addNone s₂ hbody).2⟩
  · intro e s' hrun he
    unfold Build.inScope at hrun
    rcases of_bind_error hrun with hchild | ⟨table, s₁, _, hrun⟩
    · exact (nextChild s hk).2 e s' hchild he
    dsimp only at hrun
    split at hrun
    · cases hrun
      cases he
    · next hkind =>
      rcases of_bind_error hrun with hget | ⟨outer, _, hget, hrun⟩ <;> cases hget
      rcases of_bind_error hrun with hset | ⟨_, _, hset, hrun⟩ <;> cases hset
      rcases of_bind_error hrun with hbody | ⟨addNone, s₂, _, hrun⟩
      · exact (h _ (not_not.mp hkind)).2 e s' hbody he
      rcases of_bind_error hrun with hget | ⟨inner, _, hget, hrun⟩ <;> cases hget
      rcases of_bind_error hrun with hset | ⟨_, _, hset, hrun⟩ <;> cases hset
      cases hfinish : s₂.draft.finish addNone filename with
      | ok c =>
        rw [hfinish] at hrun
        cases hrun
      | error e' =>
        rw [hfinish] at hrun
        cases hrun
        rw [Draft.not_isPosition_of_finish hfinish] at he
        cases he

theorem atLine {b : Build Unit} {p : Prop} (h : Judges k (fun _ => p) Q b) (line : UInt32) :
    Judges k (fun _ => p) Q (atLine line b) := by
  refine step (.ask fun _ _ => rfl) fun saved => ?_
  have hrest : Judges k (fun _ => p) Q (do b; Build.setLine saved) :=
    h.bind fun _ hp => (of (.setLine saved)).last fun _ => hp
  dsimp only
  split
  · exact step (.setLine line) fun _ => hrest
  · exact hrest

theorem deliver {b : Build Unit} (h : Calm k Q b) (line : UInt32) (dest : Dest) :
    Calm k Q (deliver line dest b) :=
  (h.atLine line).before fun _ => of (.test dest)

end Judges
end Build

open Build

/-- A `yield` is evaluated in the scope in which the expression stands. -/
inductive Expr.Yields : Expr → Prop where
  | here {line : UInt32} {value : Option Expr} : Yields (.yield line value)
  | operand {e e' : Expr} : e' ∈ e.operands → Yields e' → Yields e

/-- In a scope of the kind `k`, nothing misplaced is found in the expression if `Q`. -/
def Expr.CalmIn (filename : String) (k : ScopeKind) (Q : Prop) (e : Expr) : Prop :=
  ∀ dest, Calm k Q (e.lower filename dest)

section Lists

variable {filename : String} {k : ScopeKind} {Q : Prop} {es : List Expr}

theorem calm_all (h : ∀ e ∈ es, e.CalmIn filename k Q) :
    Calm k Q (Expr.lowerAll filename es) := by
  induction es with
  | nil =>
    rw [Expr.lowerAll]
    exact .pure trivial
  | cons e es ih =>
    rw [Expr.lowerAll]
    exact (h e List.mem_cons_self .push).before fun _ =>
      ih fun e he => h e (List.mem_cons_of_mem _ he)

theorem calm_orNone {x : Option Expr} (h : ∀ e ∈ x.toList, e.CalmIn filename k Q) :
    Calm k Q (Expr.lowerOrNone filename x) := by
  cases x with
  | none =>
    rw [Expr.lowerOrNone]
    exact .of (.loadConst _)
  | some e =>
    rw [Expr.lowerOrNone]
    exact h e (by simp) .push

theorem calm_operands (jump : Opcode) (done : BlockId) (h : ∀ e ∈ es, e.CalmIn filename k Q) :
    Calm k Q (Expr.lowerOperands filename jump done es) := by
  induction es with
  | nil =>
    rw [Expr.lowerOperands]
    exact .pure trivial
  | cons e es ih =>
    have ih := ih fun e he => h e (List.mem_cons_of_mem _ he)
    cases es with
    | nil =>
      rw [Expr.lowerOperands]
      exact h e List.mem_cons_self .push
    | cons e' es =>
      rw [Expr.lowerOperands]
      · exact (h e List.mem_cons_self .push).before fun _ => .step (.emitJump _ _) fun _ =>
          .step .nextBlock fun _ => ih
      · simp

theorem calm_tests (inner : BlockId) (decisive : Bool) (target : BlockId) (sense : Bool)
    (h : ∀ e ∈ es, e.CalmIn filename k Q) :
    Calm k Q (Expr.lowerTests filename inner decisive target sense es) := by
  induction es with
  | nil =>
    rw [Expr.lowerTests]
    exact .pure trivial
  | cons e es ih =>
    have ih := ih fun e he => h e (List.mem_cons_of_mem _ he)
    cases es with
    | nil =>
      rw [Expr.lowerTests]
      exact h e List.mem_cons_self _
    | cons e' es =>
      rw [Expr.lowerTests]
      · exact (h e List.mem_cons_self _).before fun _ => ih
      · simp

theorem calm_links (jump : Opcode) (cleanup : BlockId) (last : CmpOp) (ops : List CmpOp)
    (h : ∀ e ∈ es, e.CalmIn filename k Q) :
    Calm k Q (Expr.lowerLinks filename jump cleanup last ops es) := by
  induction es generalizing ops with
  | nil =>
    rw [Expr.lowerLinks]
    exact .pure trivial
  | cons e es ih =>
    have hhead := h e List.mem_cons_self .push
    have ih (ops : List CmpOp) := ih ops fun e he => h e (List.mem_cons_of_mem _ he)
    cases es with
    | nil =>
      rw [Expr.lowerLinks]
      exact hhead.before fun _ => .of (.emitCompare last)
    | cons e' es =>
      cases ops with
      | nil =>
        rw [Expr.lowerLinks]
        · exact ih []
        · simp
      | cons op ops =>
        rw [Expr.lowerLinks]
        · exact hhead.before fun _ => .step (.emit _) fun _ => .step (.emit _) fun _ =>
            .step (.emitCompare op) fun _ => .step (.emitJump _ _) fun _ =>
              .step .nextBlock fun _ => ih ops
        · simp

theorem calm_filters (cleanup : BlockId) (h : ∀ e ∈ es, e.CalmIn filename k Q) :
    Calm k Q (Expr.lowerFilters filename cleanup es) := by
  induction es with
  | nil =>
    rw [Expr.lowerFilters]
    exact .pure trivial
  | cons e es ih =>
    rw [Expr.lowerFilters]
    exact (h e List.mem_cons_self _).before fun _ => .step .nextBlock fun _ =>
      ih fun e he => h e (List.mem_cons_of_mem _ he)

theorem calm_loop {input target inner : Build Unit} {filters : BlockId → Build Unit}
    (innermost : Bool) (hinput : Calm k Q input) (htarget : Calm k Q target)
    (hfilters : ∀ cleanup, Calm k Q (filters cleanup)) (hinner : Calm k Q inner) :
    Calm k Q (comprehensionLoop input target filters innermost inner) := by
  refine .step .newBlock fun start => .step .newBlock fun skip =>
    .step .newBlock fun cleanup => .step .newBlock fun anchor => hinput.before fun _ =>
      .step (.fallInto start) fun _ => .step (.emitJump _ _) fun _ =>
        .step .nextBlock fun _ => htarget.before fun _ => (hfilters cleanup).before fun _ =>
          hinner.before fun _ => ?_
  have hend : Calm k Q (do
      fallInto cleanup
      emitJump .jumpAbsolute start
      fallInto anchor) :=
    .step (.fallInto _) fun _ => .step (.emitJump _ _) fun _ => .of (.fallInto _)
  dsimp only
  split
  · exact .step (.fallInto _) fun _ => hend
  · exact hend

theorem calm_inner {element : Build Unit} (helement : Calm k Q element) (depth : Nat)
    {gs : List Generator}
    (h : ∀ e ∈ gs.flatMap fun g => g.target :: g.iter :: g.filters, e.CalmIn filename k Q) :
    Calm k Q (Generator.lowerInner filename element depth gs) := by
  induction gs generalizing depth with
  | nil =>
    rw [Generator.lowerInner]
    exact helement.before fun _ => .of (.emitArg _ _)
  | cons g gs ih =>
    obtain ⟨target, iter, filters⟩ := g
    simp only [List.flatMap_cons, List.forall_mem_append, List.forall_mem_cons] at h
    obtain ⟨⟨htarget, hiter, hfilters⟩, hrest⟩ := h
    rw [Generator.lowerInner]
    exact calm_loop _ ((hiter .push).before fun _ => .of (.emit _)) (htarget .push)
      (fun cleanup => calm_filters cleanup hfilters) (ih (depth + 1) hrest)

/-- The builds of the entries of a dict display are calm. -/
def CalmEntries (k : ScopeKind) (Q : Prop) (entries : List DictEntry) : Prop :=
  ∀ e ∈ entries, Calm k Q e.key ∧ Calm k Q e.value

theorem calm_buildEntries {entries : List DictEntry} (h : CalmEntries k Q entries) :
    Calm k Q (buildEntries entries) := by
  induction entries with
  | nil => exact .pure trivial
  | cons e entries ih =>
    have ⟨hkey, hvalue⟩ := h e List.mem_cons_self
    exact hkey.before fun _ => hvalue.before fun _ => ih fun e he => h e (List.mem_cons_of_mem _ he)

theorem calm_buildValues {entries : List DictEntry} (h : CalmEntries k Q entries) :
    Calm k Q (buildValues entries) := by
  induction entries with
  | nil => exact .pure trivial
  | cons e entries ih =>
    exact (h e List.mem_cons_self).2.before fun _ => ih fun e he => h e (List.mem_cons_of_mem _ he)

theorem calm_buildMap {entries : List DictEntry} (h : CalmEntries k Q entries) :
    Calm k Q (buildMap entries) := by
  have hplain (arg : UInt32) : Calm k Q (do buildEntries entries; emitArg .buildMap arg) :=
    (calm_buildEntries h).before fun _ => .of (.emitArg _ _)
  unfold buildMap
  dsimp only
  split
  · split
    · exact (calm_buildValues h).before fun _ => .step (.loadConst _) fun _ => .of (.emitArg _ _)
    · exact hplain _
  · exact hplain _

theorem calm_extendMap {entries : List DictEntry} (h : CalmEntries k Q entries) :
    Calm k Q (extendMap entries) := by
  induction hn : entries.length using Nat.strongRecOn generalizing entries with
  | ind n ih =>
    rw [extendMap]
    split
    · exact .pure trivial
    · next hne =>
      have hpos : 0 < entries.length := List.length_pos_iff.mpr (by simpa using hne)
      refine (calm_buildMap fun e he => h e (List.mem_of_mem_take he)).before fun _ =>
        .step (.emitArg _ _) fun _ => ?_
      refine ih _ ?_ (fun e he => h e (List.mem_of_mem_drop he)) rfl
      simp only [← hn, List.length_drop, maxMapEntries]
      omega

theorem calm_dictDisplay {entries : List DictEntry} (h : CalmEntries k Q entries) :
    Calm k Q (dictDisplay entries) :=
  (calm_buildMap fun e he => h e (List.mem_of_mem_take he)).before fun _ =>
    calm_extendMap fun e he => h e (List.mem_of_mem_drop he)

theorem calm_values {ks : List Keyword} (h : ∀ e ∈ ks.map Keyword.value, e.CalmIn filename k Q) :
    Calm k Q (Keyword.lowerValues filename ks) := by
  induction ks with
  | nil =>
    rw [Keyword.lowerValues]
    exact .pure trivial
  | cons kw ks ih =>
    obtain ⟨name, e⟩ := kw
    rw [List.map_cons, List.forall_mem_cons] at h
    rw [Keyword.lowerValues]
    exact (h.1 .push).before fun _ => ih h.2

theorem calm_callWith (extra argCount : Nat) {args values : Build Unit} (keywords : List String)
    (hargs : Calm k Q args) (hvalues : Calm k Q values) :
    Calm k Q (callWith extra argCount args keywords values) := by
  refine hargs.before fun _ => ?_
  dsimp only
  split
  · exact .of (.emitArg _ _)
  · exact hvalues.before fun _ => .step (.loadConst _) fun _ => .of (.emitArg _ _)

theorem calm_kwDefaults {ps : List Param} {xs : List (Option Expr)}
    (h : ∀ e ∈ xs.filterMap id, e.CalmIn filename k Q) :
    Calm k Q (Expr.lowerKwDefaults filename ps xs) := by
  induction ps generalizing xs with
  | nil =>
    rw [Expr.lowerKwDefaults]
    · exact .pure trivial
    · simp
    · simp
  | cons p ps ih =>
    rcases xs with _ | ⟨_ | e, xs⟩
    · rw [Expr.lowerKwDefaults]
      · exact .pure trivial
      · simp
      · simp
    · rw [Expr.lowerKwDefaults]
      exact ih h
    · have hcons : (some e :: xs).filterMap id = e :: xs.filterMap id := rfl
      rw [hcons, List.forall_mem_cons] at h
      rw [Expr.lowerKwDefaults]
      exact (h.1 .push).before fun _ => ih h.2

theorem calm_defaults {a : Arguments}
    (h : ∀ e ∈ a.defaults ++ a.kwDefaults.filterMap id, e.CalmIn filename k Q) :
    Calm k Q (Arguments.lowerDefaults filename a) := by
  obtain ⟨posonly, params, vararg, kwonly, kwDefaults, kwarg, defaults⟩ := a
  obtain ⟨hdefaults, hkw⟩ := List.forall_mem_append.mp h
  rw [Arguments.lowerDefaults]
  have hkwonly : Calm k Q (Expr.lowerKwDefaults filename kwonly kwDefaults) := calm_kwDefaults hkw
  have hrest (keys : List String) (parts : FunctionParts) :=
    hkwonly.before fun _ => Judges.of (.defaultKeys keys parts)
  dsimp only
  split
  · exact (calm_all hdefaults).before fun _ => .step (.emitArg _ _) fun _ => hrest _ _
  · exact hrest _ _

theorem calm_sequence (build : Opcode) (ctx : Ctx) (count : Nat) {elements : Build Unit}
    (h : Calm k Q elements) : Calm k Q (sequence build ctx count elements) := by
  cases ctx with
  | load => exact h.before fun _ => .of (.emitArg _ _)
  | store => exact .step (.emitArg _ _) fun _ => h
  | del => exact h

theorem calm_lambda {line : UInt32} {body : Expr} {parts : Build FunctionParts}
    (hparts : Calm k Q parts) (hbody : body.CalmIn filename .lambda Q) :
    Calm k Q (do
      let parts ← parts
      let code ← inScope filename "<lambda>" .lambda line do
        let _ ← internConstant .none
        Expr.lower filename body .push
        if ← ask (·.isGenerator) then return false
        emit .returnValue
        return true
      makeClosure code parts code.qualname) := by
  refine hparts.before fun parts => .before (.inScope ?_) fun code => .of (.makeClosure _ _ _)
  exact .step (.internConstant _) fun _ => (hbody .push).before fun _ => .of .lambdaEpilog

theorem calm_comprehension {line : UInt32} {target iter elt : Expr} {filters : List Expr}
    {rest : List Generator} (hiter : iter.CalmIn filename k Q)
    (hinner : ∀ e ∈ elt :: target :: filters ++
      rest.flatMap fun g => g.target :: g.iter :: g.filters, e.CalmIn filename .comprehension Q) :
    Calm k Q (do
      let code ← inScope filename "<listcomp>" .comprehension line do
        emitArg .buildList 0
        comprehensionLoop (do emitArg .loadFast (← internVarname ".0"))
          (Expr.lower filename target .push)
          (fun cleanup => Expr.lowerFilters filename cleanup filters) rest.isEmpty
          (Generator.lowerInner filename (Expr.lower filename elt .push) 1 rest)
        emit .returnValue
        return true
      makeClosure code {} code.qualname
      Expr.lower filename iter .push
      emit .getIter
      emitArg .callFunction 1) := by
  simp only [List.cons_append, List.forall_mem_cons, List.forall_mem_append] at hinner
  obtain ⟨helt, htarget, hfilters, hrest⟩ := hinner
  refine .before (.inScope ?_) fun code => .step (.makeClosure _ _ _) fun _ =>
    (hiter .push).before fun _ => .step (.emit _) fun _ => .of (.emitArg _ _)
  have hinput : Calm .comprehension Q (do emitArg .loadFast (← internVarname ".0")) :=
    .step (.internVarname _) fun _ => .of (.emitArg _ _)
  exact .step (.emitArg _ _) fun _ => (calm_loop _ hinput (htarget .push)
    (fun cleanup => calm_filters cleanup hfilters) (calm_inner (helt .push) 1 hrest)).before
      fun _ => .step (.emit _) fun _ => .pure trivial

end Lists

/-- In an expression nothing is misplaced but a `yield` that is evaluated in a scope which is no
function. -/
theorem Expr.calmIn {filename : String} {k : ScopeKind} {Q : Prop} {e : Expr}
    (hq : Q → k.isFunctionLike = true ∨ ¬ e.Yields) : e.CalmIn filename k Q := by
  induction hn : sizeOf e using Nat.strongRecOn generalizing e k with
  | ind n ih =>
    subst hn
    have hpart (e' : Expr) (he' : e' ∈ e.parts) {k : ScopeKind} (hk : k.isFunctionLike = true) :
        e'.CalmIn filename k Q := ih _ (sizeOf_lt_of_mem_parts he') (fun _ => .inl hk) rfl
    have hoperand (e' : Expr) (he' : e' ∈ e.operands) : e'.CalmIn filename k Q :=
      ih _ (sizeOf_lt_of_mem_operands he')
        (fun h => (hq h).imp_right fun hnone hyields => hnone (.operand he' hyields)) rfl
    intro dest
    cases e with
    | boolOp line op values =>
      cases dest with
      | push =>
        rw [Expr.lower]
        exact .atLine (.check fun _ => .step .newBlock fun done =>
          (calm_operands _ done hoperand).before fun _ => .of (.fallInto done)) _
      | jump target sense =>
        have hrest (inner : BlockId) : Calm k Q (do
            Expr.lowerTests filename inner (decide (op = .or)) target sense values
            if inner ≠ target then fallInto inner) := by
          refine (calm_tests inner _ target sense hoperand).before fun _ => ?_
          split
          · exact .of (.fallInto _)
          · exact .pure trivial
        rw [Expr.lower]
        refine .check fun _ => ?_
        change Calm k Q (if decide (op = .or) = sense then _ else _)
        split
        · exact .before (.pure trivial) hrest
        · exact .step .newBlock hrest
    | binOp line left op right =>
      have hl := hoperand left (by simp [operands, parts]) .push
      have hr := hoperand right (by simp [operands, parts]) .push
      rw [Expr.lower]
      exact .deliver (hl.before fun _ => hr.before fun _ => .of (.emit _)) _ _
    | unaryOp line op operand =>
      have ho := hoperand operand (by simp [operands, parts])
      have hvalue : Calm k Q (do operand.lower filename .push; emit op.opcode) :=
        (ho .push).before fun _ => .of (.emit _)
      cases dest with
      | push =>
        rw [Expr.lower]
        · exact .deliver hvalue _ _
        · simp
      | jump target sense =>
        cases op with
        | not =>
          rw [Expr.lower]
          exact ho _
        | invert | plus | minus =>
          rw [Expr.lower]
          · exact .deliver hvalue _ _
          · simp
    | lambda line args body =>
      rw [Expr.lower]
      exact .deliver (calm_lambda (calm_defaults hoperand)
        (hpart body (by simp [parts]) rfl)) _ _
    | ifExp line test body orelse =>
      have ht := hoperand test (by simp [operands, parts])
      have hb := hoperand body (by simp [operands, parts])
      have ho := hoperand orelse (by simp [operands, parts])
      have hparts : Calm k Q (do
          let done ← newBlock
          let next ← newBlock
          test.lower filename (.jump next false)
          body.lower filename dest
          emitJump .jumpForward done
          fallInto next
          orelse.lower filename dest
          fallInto done) :=
        .step .newBlock fun done => .step .newBlock fun next => (ht _).before fun _ =>
          (hb _).before fun _ => .step (.emitJump _ _) fun _ => .step (.fallInto _) fun _ =>
            (ho _).before fun _ => .of (.fallInto _)
      cases dest with
      | push =>
        rw [Expr.lower]
        exact .atLine hparts _
      | jump target sense =>
        rw [Expr.lower]
        exact hparts
    | dict line keys values =>
      rw [Expr.lower]
      refine .deliver (.check fun _ => calm_dictDisplay fun entry hentry => ?_) _ _
      rw [zipWith_dictEntry (o := ⟨filename, 0⟩)] at hentry
      obtain ⟨p, hp, rfl⟩ := List.mem_map.mp hentry
      obtain ⟨hk, hv⟩ := List.of_mem_zip hp
      exact ⟨hoperand _ (List.mem_append_left _ hk) .push,
        hoperand _ (List.mem_append_right _ hv) .push⟩
    | set line elts =>
      rw [Expr.lower]
      exact .deliver ((calm_all hoperand).before fun _ => .of (.emitArg _ _)) _ _
    | listComp line elt generators =>
      cases generators with
      | nil =>
        rw [Expr.lower]
        exact .deliver (.fail _) _ _
      | cons g rest =>
        obtain ⟨target, iter, filters⟩ := g
        rw [Expr.lower]
        refine .deliver (calm_comprehension (hoperand iter (by simp [operands])) fun e he => ?_) _ _
        refine hpart e ?_ rfl
        simp only [parts, List.flatMap_cons, List.mem_cons, List.mem_append] at he ⊢
        tauto
    | yield line value =>
      rw [Expr.lower]
      refine .deliver (.bind (.ask _) ?_) _ _
      rintro _ ⟨d, hd, rfl⟩
      refine .guard (fun hc _ h => ?_) fun _ => (calm_orNone hoperand).before fun _ => .of (.emit _)
      rw [hd] at hc
      rcases hq h with hfunction | hnone
      · rw [hfunction] at hc
        cases hc
      · exact hnone .here
    | compare line left ops comparators =>
      have hl := hoperand left (by simp [operands, parts]) .push
      have hcs (e : Expr) (he : e ∈ comparators) := hoperand e (by simp [operands, parts, he])
      by_cases hchain : ∃ op op' rest, ops = op :: op' :: rest ∧ dest ≠ .push
      · obtain ⟨op, op', rest, rfl, hdest⟩ := hchain
        cases dest with
        | push => exact absurd rfl hdest
        | jump target sense =>
          rw [Expr.lower]
          exact .check fun _ => .step .newBlock fun cleanup => hl.before fun _ =>
            .before (calm_links _ _ _ _ hcs) fun _ => .step (.test _) fun _ =>
              .of (.chainEnd (.chainFailed target sense) cleanup)
      by_cases hpair : ∃ op c, ops = [op] ∧ comparators = [c]
      · obtain ⟨op, c, rfl, rfl⟩ := hpair
        rw [Expr.lower]
        exact .deliver (hl.before fun _ => (hcs c List.mem_cons_self .push).before fun _ =>
          .of (.emitCompare _)) _ _
      rw [Expr.lower]
      · refine .deliver (.check fun _ => ?_) _ _
        split
        · exact .fail _
        · exact hl.before fun _ => .step .newBlock fun cleanup =>
            .before (calm_links _ _ _ _ hcs) fun _ =>
              .of (.chainEnd (.bind (.emit _) fun _ => .emit _) cleanup)
      · exact fun op c hops hcomparators => hpair ⟨op, c, hops, hcomparators⟩
      · rintro op op' rest target sense rfl rfl
        exact hchain ⟨op, op', rest, rfl, by simp⟩
    | call line func args keywords =>
      have hargs (e : Expr) (he : e ∈ args) := hoperand e (by simp [operands, parts, he])
      have hks (e : Expr) (he : e ∈ keywords.map Keyword.value) :=
        hoperand e (by simp only [operands, parts, List.mem_cons, List.mem_append]; tauto)
      have hfunc : func ∈ operands (.call line func args keywords) := by simp [operands, parts]
      by_cases hmethod : ∃ l object attr, func = .attribute l object attr .load ∧ keywords = []
      · obtain ⟨l, object, attr, rfl, rfl⟩ := hmethod
        have hmem : object ∈ operands (.attribute l object attr .load) := by
          simp [operands, parts]
        have hobject : object.CalmIn filename k Q :=
          ih _ (Nat.lt_trans (sizeOf_lt_of_mem_operands hmem) (sizeOf_lt_of_mem_operands hfunc))
            (fun h => (hq h).imp_right fun hnone hyields =>
              hnone (.operand hfunc (.operand hmem hyields))) rfl
        rw [Expr.lower]
        exact .deliver ((hobject .push).before fun _ => .step (.emitName _ _) fun _ =>
          (calm_all hargs).before fun _ => .of (.emitArg _ _)) _ _
      · rw [Expr.lower]
        · exact .deliver ((hoperand func hfunc .push).before fun _ =>
            calm_callWith _ _ _ (calm_all hargs) (calm_values hks)) _ _
        · exact fun l object attr hf hk => hmethod ⟨l, object, attr, hf, hk⟩
    | constant line c =>
      rw [Expr.lower]
      exact .deliver (.of (.loadConst _)) _ _
    | «attribute» line object attr ctx =>
      have ho := hoperand object (by simp [operands, parts]) .push
      rw [Expr.lower]
      exact .deliver (ho.before fun _ => .of (.emitName _ _)) _ _
    | subscript line object index ctx =>
      have ho := hoperand object (by simp [operands, parts]) .push
      have hi := hoperand index (by simp [operands, parts]) .push
      rw [Expr.lower]
      exact .deliver (ho.before fun _ => hi.before fun _ => .of (.emit _)) _ _
    | slice line lower upper step =>
      have hl : Calm k Q (Expr.lowerOrNone filename lower) :=
        calm_orNone fun e he => hoperand e (by simp_all [operands, parts])
      have hu : Calm k Q (Expr.lowerOrNone filename upper) :=
        calm_orNone fun e he => hoperand e (by simp_all [operands, parts])
      cases step with
      | none =>
        rw [Expr.lower]
        exact .deliver (hl.before fun _ => hu.before fun _ => .of (.emitArg _ _)) _ _
      | some step =>
        have hs := hoperand step (by simp [operands, parts]) .push
        rw [Expr.lower]
        exact .deliver (hl.before fun _ => hu.before fun _ => hs.before fun _ =>
          .of (.emitArg _ _)) _ _
    | name line x ctx =>
      rw [Expr.lower]
      exact .deliver (.of (.accessName _ _)) _ _
    | list line elts ctx | tuple line elts ctx =>
      rw [Expr.lower]
      exact .deliver (calm_sequence _ _ _ (calm_all hoperand)) _ _

end Wordcode
