import Wordcode.Proofs.Tables

/-!
# Tables that statements take

Statements take one table for each scope that they create directly, as long as no scope is created
in a final body. A scope in a final body takes a table for every copy of that body, of which there
are at least two: one behind the protected statements and one for exceptions.
-/

set_option autoImplicit false

namespace Wordcode

open Build

def Stmt.ownScopes : Stmt → Nat
  | .functionDef .. | .classDef .. => 1
  | _ => 0

mutual

/-- How many scopes a statement creates directly in the scope it stands in. -/
def Stmt.scopeCount (s : Stmt) : Nat :=
  s.ownScopes + Expr.scopesOf s.exprs +
    match s with
    | .forLoop _ _ _ body orelse | .whileLoop _ _ body orelse | .ifElse _ _ body orelse =>
      Stmt.scopesOf body + Stmt.scopesOf orelse
    | .tryExcept _ body handlers orelse finalbody =>
      Stmt.scopesOf body + Handler.scopesOf handlers + Stmt.scopesOf orelse + Stmt.scopesOf finalbody
    | _ => 0

def Stmt.scopesOf : List Stmt → Nat
  | [] => 0
  | s :: ss => Stmt.scopeCount s + Stmt.scopesOf ss

def Handler.scopesOf : List Handler → Nat
  | [] => 0
  | ⟨_, _, body, _⟩ :: hs => Stmt.scopesOf body + Handler.scopesOf hs

end

mutual

/-- How many scopes the final bodies in a statement create. -/
def Stmt.finalScopes : Stmt → Nat
  | .forLoop _ _ _ body orelse | .whileLoop _ _ body orelse | .ifElse _ _ body orelse =>
    Stmt.finalScopesOf body + Stmt.finalScopesOf orelse
  | .tryExcept _ body handlers orelse finalbody =>
    Stmt.finalScopesOf body + Handler.finalScopesOf handlers + Stmt.finalScopesOf orelse +
      Stmt.scopesOf finalbody
  | _ => 0

def Stmt.finalScopesOf : List Stmt → Nat
  | [] => 0
  | s :: ss => Stmt.finalScopes s + Stmt.finalScopesOf ss

def Handler.finalScopesOf : List Handler → Nat
  | [] => 0
  | ⟨_, _, body, _⟩ :: hs => Stmt.finalScopesOf body + Handler.finalScopesOf hs

end

mutual

theorem Stmt.finalScopes_le (s : Stmt) : s.finalScopes ≤ s.scopeCount := by
  cases s with
  | forLoop line target iter body orelse =>
    have hbody := Stmt.finalScopesOf_le body
    have horelse := Stmt.finalScopesOf_le orelse
    simp only [Stmt.finalScopes, Stmt.scopeCount]
    omega
  | whileLoop line test body orelse =>
    have hbody := Stmt.finalScopesOf_le body
    have horelse := Stmt.finalScopesOf_le orelse
    simp only [Stmt.finalScopes, Stmt.scopeCount]
    omega
  | ifElse line test body orelse =>
    have hbody := Stmt.finalScopesOf_le body
    have horelse := Stmt.finalScopesOf_le orelse
    simp only [Stmt.finalScopes, Stmt.scopeCount]
    omega
  | tryExcept line body handlers orelse finalbody =>
    have hbody := Stmt.finalScopesOf_le body
    have hhandlers := Handler.finalScopesOf_le handlers
    have horelse := Stmt.finalScopesOf_le orelse
    simp only [Stmt.finalScopes, Stmt.scopeCount]
    omega
  | _ => exact Nat.zero_le _

theorem Stmt.finalScopesOf_le (ss : List Stmt) : Stmt.finalScopesOf ss ≤ Stmt.scopesOf ss := by
  match ss with
  | [] => exact Nat.le_refl 0
  | s :: ss => exact Nat.add_le_add (Stmt.finalScopes_le s) (Stmt.finalScopesOf_le ss)

theorem Handler.finalScopesOf_le (hs : List Handler) :
    Handler.finalScopesOf hs ≤ Handler.scopesOf hs := by
  match hs with
  | [] => exact Nat.le_refl 0
  | ⟨_, _, body, _⟩ :: hs =>
    exact Nat.add_le_add (Stmt.finalScopesOf_le body) (Handler.finalScopesOf_le hs)

end

theorem Stmt.scopesOf_nil : Stmt.scopesOf [] = 0 := rfl

theorem Stmt.finalScopesOf_nil : Stmt.finalScopesOf [] = 0 := rfl

theorem Stmt.scopesOf_append (ss ss' : List Stmt) :
    Stmt.scopesOf (ss ++ ss') = Stmt.scopesOf ss + Stmt.scopesOf ss' := by
  induction ss with
  | nil => simp [Stmt.scopesOf]
  | cons s ss ih => rw [List.cons_append, Stmt.scopesOf, Stmt.scopesOf, ih, Nat.add_assoc]

/-- There is a parameter for every default of a keyword-only parameter, a cause is given to an
exception, and what runs when no exception was raised stands beside handlers for exceptions. -/
def Stmt.IsEven : Stmt → Prop
  | .functionDef _ _ args _ _ _ => args.kwDefaults.length ≤ args.kwonly.length
  | .raise _ exc cause => exc = none → cause = none
  | .tryExcept _ _ handlers orelse _ => handlers = [] → orelse = []
  | _ => True

/-- The statements directly inside a statement in the same scope. -/
def Stmt.block : Stmt → List Stmt
  | .functionDef .. | .classDef .. => []
  | s => s.inner

/-- All parts of a statement in the scope it stands in are even. -/
inductive Stmt.Regular : Stmt → Prop where
  | intro {s : Stmt} : s.IsEven → (∀ e ∈ s.exprs, e.Regular) → (∀ s' ∈ s.block, Regular s') →
    Regular s

namespace Stmt.Regular

variable {s : Stmt}

theorem isEven : s.Regular → s.IsEven
  | intro h _ _ => h

theorem expr {e : Expr} : s.Regular → e ∈ s.exprs → e.Regular
  | intro _ h _ => h e

theorem inner {s' : Stmt} : s.Regular → s' ∈ s.block → s'.Regular
  | intro _ _ h => h s'

end Stmt.Regular

section Parts

variable {o : Options}

theorem takes_storeAll {ts : List Expr} (h : ∀ t ∈ ts, t.TakesOwn o.filename) :
    Takes (Expr.scopesOf ts) (storeAll o.filename ts) := by
  induction ts with
  | nil => exact .of (.pure ())
  | cons t ts ih =>
    have ht := h t List.mem_cons_self .push
    cases ts with
    | nil => exact ht.of_eq (by simp)
    | cons t' ts =>
      have ih := ih fun t ht => h t (List.mem_cons_of_mem _ ht)
      rw [Expr.scopesOf_cons]
      exact .step (.emit _) fun _ => ht.bind fun _ => ih

theorem takes_augmentedAssign {target : Expr} (op : Operator) {e : Expr}
    (htarget : ∀ e ∈ target.operands, e.TakesOwn o.filename) (he : e.TakesOwn o.filename) :
    Takes (target.scopeCount + e.scopeCount) (augmentedAssign o.filename target op e) := by
  unfold augmentedAssign
  split
  · next line object attr ctx =>
    have hobject := htarget object (by simp [Expr.operands, Expr.parts]) .push
    refine .of_eq (hobject.bind fun _ => .step (.emit _) fun _ => .step (.emitName _ attr) fun _ =>
      (he .push).bind fun _ => .step (.emit _) fun _ => .step (.emit _) fun _ =>
        .of (.emitName _ attr)) ?_
    rw [Expr.scopeCount_eq (.attribute ..)]
    simp [Expr.ownScopes, Expr.operands, Expr.parts]
  · next line object index ctx =>
    have hobject := htarget object (by simp [Expr.operands, Expr.parts]) .push
    have hindex := htarget index (by simp [Expr.operands, Expr.parts]) .push
    refine .of_eq (hobject.bind fun _ => hindex.bind fun _ => .step (.emit _) fun _ =>
      .step (.emit _) fun _ => (he .push).bind fun _ => .step (.emit _) fun _ =>
        .step (.emit _) fun _ => .of (.emit _)) ?_
    rw [Expr.scopeCount_eq (.subscript ..)]
    simp [Expr.ownScopes, Expr.operands, Expr.parts, Nat.add_assoc]
  · next line id ctx =>
    refine .of_eq (.step (.accessName id _) fun _ => (he .push).bind fun _ =>
      .step (.emit _) fun _ => .of (.accessName id _)) ?_
    rw [Expr.scopeCount_eq (.name ..)]
    simp [Expr.ownScopes, Expr.operands, Expr.parts]
  · exact takes_fail _

theorem takes_raiseStatement {exc cause : Option Expr} (heven : exc = none → cause = none)
    (h : ∀ e ∈ exc.toList ++ cause.toList, e.TakesOwn o.filename) :
    Takes (Expr.scopesOf (exc.toList ++ cause.toList)) (raiseStatement o.filename exc cause) := by
  cases exc with
  | none =>
    rw [heven rfl]
    exact .of (.emitArg _ _)
  | some exc =>
    have hexc := h exc (by simp) .push
    cases cause with
    | none => exact (hexc.bind fun _ => .of (.emitArg _ _)).of_eq (by simp)
    | some cause =>
      have hcause := h cause (by simp) .push
      exact (hexc.bind fun _ => hcause.bind fun _ => .of (.emitArg _ _)).of_eq (by simp)

theorem takes_assertStatement {test : Expr} {msg : Option Expr} (htest : test.TakesOwn o.filename)
    (hmsg : ∀ e ∈ msg.toList, e.TakesOwn o.filename) :
    Takes (Expr.scopesOf (test :: msg.toList)) (assertStatement o test msg) := by
  have hcount : test.scopeCount + (msg.map Expr.scopeCount).getD 0 =
      Expr.scopesOf (test :: msg.toList) := by
    cases msg <;> simp
  unfold assertStatement
  split
  · exact hcount ▸ takes_skipChildren _
  · refine .of_eq (.step .newBlock fun done => (htest _).bind fun _ =>
      .step (.emit _) fun _ => (?_ : Takes (Expr.scopesOf msg.toList) _)) (by simp)
    have hraise : Takes 0 (do emitArg .raiseVarargs 1; fallInto done) :=
      .step (.emitArg _ _) fun _ => .of (.fallInto done)
    cases msg with
    | none => exact hraise
    | some m =>
      exact ((hmsg m (by simp) .push).bind fun _ => .step (.emitArg _ _) fun _ => hraise).of_eq
        (by simp)

theorem takes_pushAnnotations (out : Array String) {ps : List Param}
    (h : ∀ e ∈ ps.filterMap Param.annotation, e.TakesOwn o.filename) :
    Takes (Expr.scopesOf (ps.filterMap Param.annotation)) (pushAnnotations o.filename out ps) := by
  induction ps generalizing out with
  | nil => exact .of (.pure out)
  | cons p ps ih =>
    obtain ⟨x, annotation⟩ := p
    cases annotation with
    | none => exact ih out h
    | some e =>
      have hcons : (Param.mk x (some e) :: ps).filterMap Param.annotation =
          e :: ps.filterMap Param.annotation := rfl
      rw [hcons] at h ⊢
      rw [Expr.scopesOf_cons]
      exact (h e List.mem_cons_self .push).bind fun _ =>
        ih (out.push x) fun e he => h e (List.mem_cons_of_mem _ he)

theorem takes_annotations (args : Arguments) (returns : Option Expr)
    (h : ∀ e ∈ (args.annotated returns).map Prod.snd, e.TakesOwn o.filename) :
    Takes (Expr.scopesOf ((args.annotated returns).map Prod.snd))
      (annotations o.filename args returns) := by
  have hmap (ps : List Param) :
      (ps.filterMap fun (p : Param) => p.annotation.map (p.name, ·)).map Prod.snd =
        ps.filterMap Param.annotation := by
    rw [List.map_filterMap]
    congr 1
    funext p
    cases p.annotation <;> rfl
  rw [Arguments.annotated, hmap] at h ⊢
  exact (takes_pushAnnotations #[] h).bind fun keys => .of (.annotationKeys keys)

end Parts

namespace Build

variable {α β : Type}

/-- A build that succeeds takes the next tables, at least `least` of them and exactly `count` if
there is nothing `extra`. -/
def TakesFrom (least extra count : Nat) (b : Build α) : Prop :=
  ∀ s a s', b s = .ok a s' → ∃ taken, s.draft.children = taken ++ s'.draft.children ∧
    least ≤ taken.length ∧ (extra = 0 → taken.length = count)

section

variable {l l' e e' c c' : Nat} {b : Build α} {f : α → Build β}

theorem Takes.takesFrom (h : Takes c b) : TakesFrom c 0 c b := by
  intro s a s' hrun
  obtain ⟨taken, hlength, hs⟩ := h s a s' hrun
  exact ⟨taken, hs, Nat.le_of_eq hlength.symm, fun _ => hlength⟩

theorem TakesFrom.bind (h : TakesFrom l e c b) (h' : ∀ a, TakesFrom l' e' c' (f a)) :
    TakesFrom (l + l') (e + e') (c + c') (b >>= f) := by
  intro s r s'' hrun
  obtain ⟨a, s', hb, hf⟩ := of_bind_ok hrun
  obtain ⟨taken, hs, hleast, hcount⟩ := h s a s' hb
  obtain ⟨taken', hs', hleast', hcount'⟩ := h' a s' r s'' hf
  refine ⟨taken ++ taken', by rw [hs, hs', List.append_assoc], ?_, fun hextra => ?_⟩
  · rw [List.length_append]
    omega
  · rw [List.length_append, hcount (by omega), hcount' (by omega)]

theorem TakesFrom.before (h : TakesFrom l e c b) (h' : ∀ a, Takes 0 (f a)) :
    TakesFrom l e c (b >>= f) := h.bind fun a => (h' a).takesFrom

theorem TakesFrom.step (h : Local b) (h' : ∀ a, TakesFrom l e c (f a)) :
    TakesFrom l e c (b >>= f) := by
  simpa only [Nat.zero_add] using (Takes.of h).takesFrom.bind h'

theorem TakesFrom.weaken (h : TakesFrom l e c b) (hl : l' ≤ l) (he : e' = 0 → e = 0)
    (hc : e' = 0 → c = c') : TakesFrom l' e' c' b := by
  intro s a s' hrun
  obtain ⟨taken, hs, hleast, hcount⟩ := h s a s' hrun
  exact ⟨taken, hs, Nat.le_trans hl hleast, fun hextra => (hcount (he hextra)).trans (hc hextra)⟩

theorem TakesFrom.guard {p : Prop} [Decidable p] {err : CompileError} {b' : Build β}
    (h : TakesFrom l e c b') : TakesFrom l e c (if p then (throw err : Build α) >>= f else b') := by
  split
  · intro s a s' hrun
    cases hrun
  · exact h

theorem TakesFrom.inStatement {b : Build Unit} (h : TakesFrom l e c b) (line : UInt32) :
    TakesFrom l e c (inStatement line b) := by
  refine .step (.setLine line) fun _ s a s' hrun => ?_
  rw [tryCatch_run] at hrun
  split at hrun
  · next hb =>
    cases hrun
    exact h _ _ _ hb
  · cases hrun

end
end Build

/-- The test of an exception's type in front of a handler. -/
theorem Build.TakesFrom.typeTest {o : Options} {l e c : Nat} {b : Build Unit} {type : Option Expr}
    {next : BlockId} (h : TakesFrom l e c b) (htype : ∀ t ∈ type.toList, t.TakesOwn o.filename) :
    TakesFrom (Expr.scopesOf type.toList + l) e (Expr.scopesOf type.toList + c)
      (match type with
      | some t => do
        emit .dupTop
        t.lower o.filename .push
        emitJump .jumpIfNotExcMatch next
        b
      | _ => b) := by
  cases type with
  | none => simpa using h
  | some t =>
    have ht := (htype t (by simp) .push).takesFrom
    refine .weaken (.step (.emit _) fun _ => ht.bind fun _ => .step (.emitJump _ _) fun _ => h)
      ?_ ?_ ?_ <;>
    simp

/-- How many scopes the final bodies of frames create. -/
def Frame.scopesOf (frames : List Frame) : Nat := Stmt.scopesOf (Frame.finalBodies frames)

/-- The final bodies of frames are regular. -/
def Frame.RegularAll (frames : List Frame) : Prop := ∀ s ∈ Frame.finalBodies frames, s.Regular

section Frames

variable {frames : List Frame} {finalbody : List Stmt}

theorem Frame.scopesOf_finallyTry :
    Frame.scopesOf (.finallyTry finalbody :: frames) =
      Stmt.scopesOf finalbody + Frame.scopesOf frames :=
  Stmt.scopesOf_append _ _

theorem Frame.RegularAll.finallyTry (h : Frame.RegularAll frames)
    (hbody : ∀ s ∈ finalbody, s.Regular) :
    Frame.RegularAll (.finallyTry finalbody :: frames) :=
  List.forall_mem_append.mpr ⟨hbody, h⟩

end Frames

mutual

theorem Stmt.takesFrom (o : Options) (frames : List Frame) (s : Stmt) (hs : s.Regular)
    (hframes : Frame.RegularAll frames) : TakesFrom (s.scopeCount + s.finalScopes)
      (s.finalScopes + Frame.scopesOf frames) s.scopeCount (Stmt.lower o frames s) := by
  have hexpr (e : Expr) (he : e ∈ s.exprs) : e.TakesOwn o.filename := Expr.takesOwn (hs.expr he)
  have hplain {n : Nat} {b : Build Unit} (hn : n = s.scopeCount) (hfinal : s.finalScopes = 0)
      (hb : Takes n b) : TakesFrom (s.scopeCount + s.finalScopes)
        (s.finalScopes + Frame.scopesOf frames) s.scopeCount b :=
    hb.takesFrom.weaken (by omega) (fun _ => rfl) fun _ => hn
  rw [Stmt.lower.eq_def]
  refine .inStatement ?_ s.line
  cases s with
  | functionDef line name args body decorators returns =>
    have hdefaults := takes_defaults (o := o) (a := args) hs.isEven fun e he => hexpr e (by
      simp only [Stmt.exprs, List.mem_append] at he ⊢
      tauto)
    have hannotations := takes_annotations args returns fun e he =>
      hexpr e (List.mem_append_right _ he)
    have hdecorators := takes_all decorators fun e he => hexpr e (by simp [Stmt.exprs, he])
    refine hplain ?_ rfl (hdecorators.bind fun _ => hdefaults.bind fun parts =>
      hannotations.bind fun annotated => (takes_inScope _ _ _ _ _).bind fun code =>
        .step (.makeClosure _ _ _) fun _ => .step (.repeatEmit _ _ _) fun _ =>
          .of (.accessName _ _))
    simp only [Stmt.scopeCount, Stmt.ownScopes, Stmt.exprs, Expr.scopesOf_append]
    omega
  | classDef line name bases keywords body decorators =>
    have hdecorators := takes_all decorators fun e he => hexpr e (by simp [Stmt.exprs, he])
    have hcall := takes_callWith 2 bases keywords
      (fun e he => hexpr e (by simp [Stmt.exprs, he]))
      fun k hk => hexpr _ (by
        simp only [Stmt.exprs, List.mem_append, List.mem_map]
        exact .inr ⟨k, hk, rfl⟩)
    refine hplain ?_ rfl (hdecorators.bind fun _ => (takes_inScope _ _ _ _ _).bind fun code =>
      .step (.emit _) fun _ => .step (.makeClosure _ _ _) fun _ =>
        .step (.loadConst _) fun _ => hcall.bind fun _ => .step (.repeatEmit _ _ _) fun _ =>
          .of (.accessName _ _))
    simp only [Stmt.scopeCount, Stmt.ownScopes, Stmt.exprs, Expr.scopesOf_append]
    omega
  | ret line e =>
    have hkeep := Frame.takesFromUnwind o true false frames hframes
    have hdrop := Frame.takesFromUnwind o false false frames hframes
    refine .step (.ask fun _ _ => rfl) fun _ => .guard ?_
    cases e with
    | none =>
      refine .weaken (hdrop.before fun _ => .step (.loadConst _) fun _ => .of (.emit _))
        (Nat.le_refl _) ?_ fun _ => rfl
      exact fun hextra => (Nat.add_eq_zero_iff.mp hextra).2
    | some e =>
      have he := (hexpr e (by simp [Stmt.exprs]) .push).takesFrom
      have hcount : (Stmt.ret line (some e)).scopeCount = e.scopeCount := by
        simp [Stmt.scopeCount, Stmt.ownScopes, Stmt.exprs]
      have hfinal : (Stmt.ret line (some e)).finalScopes = 0 := rfl
      rw [hcount, hfinal]
      dsimp only
      split
      · exact (hdrop.bind fun _ => he.before fun _ => .of (.emit _)).weaken (by omega) (by omega)
          (by omega)
      · exact (he.bind fun _ => hkeep.before fun _ => .of (.emit _)).weaken (by omega) (by omega)
          (by omega)
  | delete line targets =>
    exact hplain (by simp [Stmt.scopeCount, Stmt.ownScopes, Stmt.exprs]) rfl (takes_all targets hexpr)
  | assign line targets e =>
    refine hplain ?_ rfl ((hexpr e List.mem_cons_self .push).bind fun _ =>
      takes_storeAll fun t ht => hexpr t (List.mem_cons_of_mem _ ht))
    simp [Stmt.scopeCount, Stmt.ownScopes, Stmt.exprs]
  | augAssign line target op e =>
    have htarget : target.Regular := hs.expr List.mem_cons_self
    refine hplain ?_ rfl (takes_augmentedAssign op
      (fun e he => Expr.takesOwn (htarget.operand he)) (hexpr e (by simp [Stmt.exprs])))
    simp [Stmt.scopeCount, Stmt.ownScopes, Stmt.exprs]
  | raise line exc cause =>
    exact hplain (by simp [Stmt.scopeCount, Stmt.ownScopes, Stmt.exprs]) rfl
      (takes_raiseStatement hs.isEven hexpr)
  | assert line test msg =>
    exact hplain (by simp [Stmt.scopeCount, Stmt.ownScopes, Stmt.exprs]) rfl
      (takes_assertStatement (hexpr test List.mem_cons_self)
        fun e he => hexpr e (List.mem_cons_of_mem _ he))
  | importNames line names => exact hplain rfl rfl (.of (.importAll names))
  | importFrom line origin names level =>
    exact hplain rfl rfl (.of (.importFrom origin names level))
  | «global» | «nonlocal» | pass => exact hplain rfl rfl (.of (.pure ()))
  | expr line e =>
    have hcount : (Stmt.expr line e).scopeCount = e.scopeCount := by
      simp [Stmt.scopeCount, Stmt.ownScopes, Stmt.exprs]
    dsimp only
    split
    · next hconstant =>
      refine hplain ?_ rfl (.of (.emit _))
      rw [hcount]
      cases e <;> first | rfl | cases hconstant
    · exact hplain hcount.symm rfl ((hexpr e (by simp [Stmt.exprs]) .push).bind fun _ =>
        .of (.emit _))
  | breakLoop line =>
    refine .weaken ((Frame.takesFromUnwind o false true frames hframes).before fun f => ?_)
      (Nat.le_refl _) (fun hextra => (Nat.add_eq_zero_iff.mp hextra).2) fun _ => rfl
    split
    · exact .of (.emitJump _ _)
    · exact .step (.emit _) fun _ => .of (.emitJump _ _)
    · exact takes_throw _
  | continueLoop line =>
    refine .weaken ((Frame.takesFromUnwind o false true frames hframes).before fun f => ?_)
      (Nat.le_refl _) (fun hextra => (Nat.add_eq_zero_iff.mp hextra).2) fun _ => rfl
    split
    · exact .of (.emitJump _ _)
    · exact .of (.emitJump _ _)
    · exact takes_throw _
  | forLoop line target iter body orelse =>
    have hiter := (hexpr iter (by simp [Stmt.exprs]) .push).takesFrom
    have htarget := (hexpr target (by simp [Stmt.exprs]) .push).takesFrom
    have hbody (start done : BlockId) : TakesFrom _ (_ + Frame.scopesOf frames) _
        (Stmt.lowerAll o (.forLoop start done :: frames) body) := Stmt.takesFromAll o _ body
      (fun s hs' => hs.inner (List.mem_append_left _ hs')) hframes
    have horelse := Stmt.takesFromAll o frames orelse
      (fun s hs' => hs.inner (List.mem_append_right _ hs')) hframes
    refine .weaken (.step .newBlock fun start => .step .newBlock fun cleanup =>
      .step .newBlock fun done => hiter.bind fun _ => .step (.emit _) fun _ =>
        .step (.fallInto start) fun _ => .step (.emitJump _ _) fun _ =>
          htarget.bind fun _ => (hbody start done).bind fun _ => .step (.emitJump _ _) fun _ =>
            .step (.fallInto cleanup) fun _ => horelse.before fun _ => .of (.fallInto done))
      ?_ ?_ ?_ <;>
    simp only [Stmt.scopeCount, Stmt.finalScopes, Stmt.ownScopes, Stmt.exprs, Expr.scopesOf_cons,
      Expr.scopesOf_nil] <;>
    omega
  | whileLoop line test body orelse =>
    have htest (anchor : BlockId) := (hexpr test (by simp [Stmt.exprs]) (.jump anchor false)).takesFrom
    have hbody (start done : BlockId) : TakesFrom _ (_ + Frame.scopesOf frames) _
        (Stmt.lowerAll o (.whileLoop start done :: frames) body) := Stmt.takesFromAll o _ body
      (fun s hs' => hs.inner (List.mem_append_left _ hs')) hframes
    have horelse := Stmt.takesFromAll o frames orelse
      (fun s hs' => hs.inner (List.mem_append_right _ hs')) hframes
    refine .weaken (.step .newBlock fun start => .step .newBlock fun done =>
      .step .newBlock fun anchor => .step (.fallInto start) fun _ =>
        (htest anchor).bind fun _ => (hbody start done).bind fun _ =>
          .step (.emitJump _ _) fun _ => .step (.fallInto anchor) fun _ =>
            horelse.before fun _ => .of (.fallInto done)) ?_ ?_ ?_ <;>
    simp only [Stmt.scopeCount, Stmt.finalScopes, Stmt.ownScopes, Stmt.exprs, Expr.scopesOf_cons,
      Expr.scopesOf_nil] <;>
    omega
  | ifElse line test body orelse =>
    have htest (next : BlockId) := (hexpr test (by simp [Stmt.exprs]) (.jump next false)).takesFrom
    have hbody := Stmt.takesFromAll o frames body
      (fun s hs' => hs.inner (List.mem_append_left _ hs')) hframes
    have horelse := Stmt.takesFromAll o frames orelse
      (fun s hs' => hs.inner (List.mem_append_right _ hs')) hframes
    cases orelse with
    | nil =>
      refine .weaken (.step .newBlock fun done => (htest done).bind fun _ =>
        hbody.before fun _ => .of (.fallInto done)) ?_ ?_ ?_ <;>
      simp only [Stmt.scopeCount, Stmt.finalScopes, Stmt.ownScopes, Stmt.exprs, Expr.scopesOf_cons,
        Expr.scopesOf_nil, Stmt.scopesOf, Stmt.finalScopesOf] <;>
      omega
    | cons s ss =>
      refine .weaken (.step .newBlock fun done => .step .newBlock fun next =>
        (htest next).bind fun _ => hbody.bind fun _ => .step (.emitJump _ _) fun _ =>
          .step (.fallInto next) fun _ => horelse.before fun _ => .of (.fallInto done))
        ?_ ?_ ?_ <;>
      simp only [Stmt.scopeCount, Stmt.finalScopes, Stmt.ownScopes, Stmt.exprs, Expr.scopesOf_cons,
        Expr.scopesOf_nil] <;>
      omega
  | tryExcept line body handlers orelse finalbody =>
    have hbody : ∀ s ∈ body, s.Regular := fun s hs' => hs.inner (by simp [Stmt.block, Stmt.inner, hs'])
    have htypes : ∀ e ∈ handlers.filterMap Handler.type, e.Regular := fun e he => hs.expr he
    have hhandlers : ∀ s ∈ handlers.flatMap Handler.body, s.Regular := fun s hs' =>
      hs.inner (by simp only [Stmt.block, Stmt.inner, List.mem_append]; tauto)
    have horelse : ∀ s ∈ orelse, s.Regular := fun s hs' =>
      hs.inner (by simp [Stmt.block, Stmt.inner, hs'])
    have hfinal : ∀ s ∈ finalbody, s.Regular := fun s hs' =>
      hs.inner (by simp [Stmt.block, Stmt.inner, hs'])
    cases finalbody with
    | nil =>
      refine (Stmt.takesFromTry o frames body handlers orelse hbody htypes hhandlers horelse
        hframes).weaken ?_ ?_ ?_ <;>
      simp only [Stmt.scopeCount, Stmt.finalScopes, Stmt.ownScopes, Stmt.exprs, Stmt.scopesOf] <;>
      omega
    | cons s ss =>
      have hwithin := hframes.finallyTry hfinal
      have hnormal := Stmt.takesFromAll o frames (s :: ss) hfinal hframes
      have hexceptional : TakesFrom _ (_ + Frame.scopesOf frames) _
          (Stmt.lowerAll o (.finallyEnd :: frames) (s :: ss)) :=
        Stmt.takesFromAll o _ (s :: ss) hfinal hframes
      have hle := Stmt.finalScopesOf_le (s :: ss)
      have hrest (final exit : BlockId) := TakesFrom.step (.emit .popBlock) fun _ =>
        hnormal.bind fun _ => .step (.emitJump .jumpForward exit) fun _ =>
          .step (.fallInto final) fun _ => hexceptional.before fun _ =>
            .step (.emit .reraise) fun _ => .of (.fallInto exit)
      cases handlers with
      | nil =>
        have hinside := Stmt.takesFromAll o (.finallyTry (s :: ss) :: frames) body hbody hwithin
        rw [Frame.scopesOf_finallyTry] at hinside
        obtain rfl : orelse = [] := hs.isEven rfl
        refine .weaken (.step .newBlock fun inside => .step .newBlock fun final =>
          .step .newBlock fun exit => .step (.emitJump _ _) fun _ =>
            .step (.fallInto inside) fun _ => hinside.bind fun _ => hrest final exit)
          ?_ ?_ ?_ <;>
        simp only [Stmt.scopeCount, Stmt.finalScopes, Stmt.ownScopes, Stmt.exprs, Stmt.scopesOf_nil,
          Stmt.finalScopesOf_nil, Handler.scopesOf, Handler.finalScopesOf, List.filterMap_nil,
          Expr.scopesOf_nil] <;>
        omega
      | cons clause clauses =>
        have hinside := Stmt.takesFromTry o (.finallyTry (s :: ss) :: frames) body (clause :: clauses) orelse
          hbody htypes hhandlers horelse hwithin
        rw [Frame.scopesOf_finallyTry] at hinside
        refine .weaken (.step .newBlock fun inside => .step .newBlock fun final =>
          .step .newBlock fun exit => .step (.emitJump _ _) fun _ =>
            .step (.fallInto inside) fun _ => hinside.bind fun _ => hrest final exit)
          ?_ ?_ ?_ <;>
        simp only [Stmt.scopeCount, Stmt.finalScopes, Stmt.ownScopes, Stmt.exprs] <;>
        omega
termination_by s.weight + Frame.weightOfAll frames
decreasing_by
  all_goals
    subst_vars
    simp only [Stmt.weight, Frame.weight, Frame.weightOfAll]
    omega

theorem Stmt.takesFromAll (o : Options) (frames : List Frame) (ss : List Stmt)
    (hss : ∀ s ∈ ss, s.Regular) (hframes : Frame.RegularAll frames) :
    TakesFrom (Stmt.scopesOf ss + Stmt.finalScopesOf ss)
      (Stmt.finalScopesOf ss + Frame.scopesOf frames) (Stmt.scopesOf ss)
      (Stmt.lowerAll o frames ss) := by
  cases ss with
  | nil =>
    rw [Stmt.lowerAll]
    exact (Takes.of (.pure ())).takesFrom.weaken (Nat.le_refl 0) (fun _ => rfl) fun _ => rfl
  | cons s ss =>
    rw [Stmt.lowerAll]
    rw [List.forall_mem_cons] at hss
    have hrest := (Stmt.takesFrom o frames s hss.1 hframes).bind fun _ =>
      Stmt.takesFromAll o frames ss hss.2 hframes
    simp only [Stmt.scopesOf, Stmt.finalScopesOf]
    exact hrest.weaken (by omega) (by omega) fun _ => rfl
termination_by Stmt.weightOfAll ss + Frame.weightOfAll frames
decreasing_by
  all_goals
    subst_vars
    simp only [Stmt.weightOfAll]
    omega

theorem Stmt.takesFromTry (o : Options) (frames : List Frame) (body : List Stmt)
    (handlers : List Handler) (orelse : List Stmt) (hbody : ∀ s ∈ body, s.Regular)
    (htypes : ∀ e ∈ handlers.filterMap Handler.type, e.Regular)
    (hhandlers : ∀ s ∈ handlers.flatMap Handler.body, s.Regular)
    (horelse : ∀ s ∈ orelse, s.Regular) (hframes : Frame.RegularAll frames) :
    TakesFrom (Stmt.scopesOf body + Stmt.finalScopesOf body +
        (Expr.scopesOf (handlers.filterMap Handler.type) + Handler.scopesOf handlers +
          Handler.finalScopesOf handlers) + (Stmt.scopesOf orelse + Stmt.finalScopesOf orelse))
      (Stmt.finalScopesOf body + Handler.finalScopesOf handlers + Stmt.finalScopesOf orelse +
        Frame.scopesOf frames)
      (Stmt.scopesOf body + (Expr.scopesOf (handlers.filterMap Handler.type) +
        Handler.scopesOf handlers) + Stmt.scopesOf orelse)
      (Stmt.lowerTry o frames body handlers orelse) := by
  rw [Stmt.lowerTry]
  refine .weaken (.step .newBlock fun inside => .step .newBlock fun except =>
    .step .newBlock fun otherwise => .step .newBlock fun done =>
      .step (.emitJump _ _) fun _ => .step (.fallInto inside) fun _ =>
        (Stmt.takesFromAll o (.tryExcept :: frames) body hbody hframes).bind fun _ =>
          .step (.emit _) fun _ => .step (.emitJump _ _) fun _ =>
            .step (.fallInto except) fun _ =>
              (Handler.takesFromAll o (.exceptionHandler :: frames) done handlers htypes hhandlers
                hframes).bind fun _ => .step (.emit _) fun _ =>
                  .step (.fallInto otherwise) fun _ =>
                    (Stmt.takesFromAll o frames orelse horelse hframes).before fun _ =>
                      .of (.fallInto done)) (by omega) (fun hextra => ?_) (by omega)
  have hsame (f : Frame) (hf : Frame.finalBodies (f :: frames) = Frame.finalBodies frames) :
      Frame.scopesOf (f :: frames) = Frame.scopesOf frames := congrArg Stmt.scopesOf hf
  rw [hsame .tryExcept rfl, hsame .exceptionHandler rfl]
  omega
termination_by Stmt.weightOfAll body + Handler.weightOfAll handlers + Stmt.weightOfAll orelse +
  Frame.weightOfAll frames + 2
decreasing_by
  all_goals first
  | omega
  | simp only [Frame.weight, Frame.weightOfAll]
    omega

theorem Handler.takesFromAll (o : Options) (frames : List Frame) (done : BlockId)
    (hs : List Handler) (htypes : ∀ e ∈ hs.filterMap Handler.type, e.Regular)
    (hbodies : ∀ s ∈ hs.flatMap Handler.body, s.Regular) (hframes : Frame.RegularAll frames) :
    TakesFrom (Expr.scopesOf (hs.filterMap Handler.type) + Handler.scopesOf hs +
        Handler.finalScopesOf hs)
      (Handler.finalScopesOf hs + Frame.scopesOf frames)
      (Expr.scopesOf (hs.filterMap Handler.type) + Handler.scopesOf hs)
      (Handler.lowerAll o frames done hs) := by
  match hs with
  | [] =>
    rw [Handler.lowerAll]
    exact (Takes.of (.pure ())).takesFrom.weaken (Nat.le_refl 0) (fun _ => rfl) fun _ => rfl
  | ⟨type, name, body, line⟩ :: rest =>
    rw [List.flatMap_cons, List.forall_mem_append] at hbodies
    have hrest := Handler.takesFromAll o frames done rest
      (fun e he => htypes e (by
        obtain ⟨h, hh, he⟩ := List.mem_filterMap.mp he
        exact List.mem_filterMap.mpr ⟨h, List.mem_cons_of_mem _ hh, he⟩)) hbodies.2 hframes
    have hbody (x : Option String) : TakesFrom _ (_ + Frame.scopesOf frames) _
        (Stmt.lowerAll o (.handlerCleanup x :: frames) body) :=
      Stmt.takesFromAll o _ body hbodies.1 hframes
    have hnext (next : BlockId) := TakesFrom.step (.fallInto next) fun _ => hrest
    have htype : ∀ e ∈ type.toList, e.TakesOwn o.filename := fun e he =>
      Expr.takesOwn (htypes e (List.mem_filterMap.mpr ⟨_, List.mem_cons_self, Option.mem_toList.mp he⟩))
    have hcount : Expr.scopesOf ((Handler.mk type name body line :: rest).filterMap Handler.type) =
        Expr.scopesOf type.toList + Expr.scopesOf (rest.filterMap Handler.type) := by
      cases type <;> simp
    rw [Handler.lowerAll, hcount]
    refine .guard (.step (.setLine line) fun _ => .step .newBlock fun next => ?_)
    cases name with
    | some x =>
      have hx := TakesFrom.step .newBlock fun cleanup => .step .newBlock fun inside =>
        .step (.accessName x .store) fun _ => .step (.emit .popTop) fun _ =>
          .step (.emitJump .setupFinally cleanup) fun _ => .step (.fallInto inside) fun _ =>
            (hbody (some x)).before fun _ => .step (.emit .popBlock) fun _ =>
              .step (.emit .popExcept) fun _ => .step (.clearName x) fun _ =>
                .step (.emitJump .jumpForward done) fun _ => .step (.fallInto cleanup) fun _ =>
                  .step (.clearName x) fun _ => .of (.emit .reraise)
      have h := TakesFrom.step (.emit .popTop) fun _ => hx.bind fun _ => hnext next
      simp only [bind_assoc] at h
      refine (h.typeTest htype).weaken ?_ ?_ ?_ <;>
      simp only [Handler.scopesOf, Handler.finalScopesOf] <;>
      omega
    | none =>
      have hx := TakesFrom.step .newBlock fun inside => .step (.emit .popTop) fun _ =>
        .step (.emit .popTop) fun _ => .step (.fallInto inside) fun _ =>
          (hbody none).before fun _ => .step (.emit .popExcept) fun _ =>
            .of (.emitJump .jumpForward done)
      have h := TakesFrom.step (.emit .popTop) fun _ => hx.bind fun _ => hnext next
      simp only [bind_assoc] at h
      refine (h.typeTest htype).weaken ?_ ?_ ?_ <;>
      simp only [Handler.scopesOf, Handler.finalScopesOf] <;>
      omega
termination_by Handler.weightOfAll hs + Frame.weightOfAll frames
decreasing_by
  all_goals
    simp only [Handler.weightOfAll, Frame.weight, Frame.weightOfAll]
    omega

theorem Frame.takesFromUnwind (o : Options) (keep toLoop : Bool) (frames : List Frame)
    (hframes : Frame.RegularAll frames) :
    TakesFrom 0 (Frame.scopesOf frames) 0 (Frame.unwind o keep toLoop frames) := by
  cases frames with
  | nil =>
    rw [Frame.unwind]
    exact (Takes.of (.pure none)).takesFrom.weaken (Nat.le_refl 0) (fun _ => rfl) fun _ => rfl
  | cons f outer =>
    rw [Frame.unwind]
    split
    · exact (Takes.of (.pure _)).takesFrom.weaken (Nat.le_refl 0) (fun _ => rfl) fun _ => rfl
    · refine .step (.leave f keep) fun _ => ?_
      cases f with
      | finallyTry finalbody =>
        have ⟨hfinal, houter⟩ := List.forall_mem_append.mp hframes
        have hle := Stmt.finalScopesOf_le finalbody
        have hkeep : Frame.finalBodies (if keep then .popValue :: outer else outer) =
            Frame.finalBodies outer := by
          cases keep <;> rfl
        have hbody := Stmt.takesFromAll o (if keep then .popValue :: outer else outer) finalbody
          hfinal (by rwa [Frame.RegularAll, hkeep])
        have hrest := Frame.takesFromUnwind o keep toLoop outer houter
        rw [Frame.scopesOf, hkeep, ← Frame.scopesOf] at hbody
        rw [Frame.scopesOf_finallyTry]
        exact .weaken (.step (.ask fun _ _ => rfl) fun saved => hbody.bind fun _ =>
          .step (.setLine saved) fun _ => hrest) (by omega) (by omega) (by omega)
      | _ => exact Frame.takesFromUnwind o keep toLoop outer hframes
termination_by Frame.weightOfAll frames
decreasing_by
  all_goals
    subst_vars
    cases keep <;> simp only [Frame.weightOfAll, Frame.weight, if_true, Bool.false_eq_true,
      if_false] <;> omega

end

/-- Statements take the tables of the nested scopes, one for each scope that they create directly,
if no scope is created in a final body, of theirs or of the frames around them. A scope in a final
body of theirs takes more than one. -/
theorem Stmt.tables_taken (o : Options) (frames : List Frame) (ss : List Stmt)
    (hss : ∀ s ∈ ss, s.Regular) (hframes : ∀ s ∈ Frame.finalBodies frames, s.Regular)
    (session session' : Session) (h : Stmt.lowerAll o frames ss session = .ok () session') :
    ∃ taken, session.draft.children = taken ++ session'.draft.children ∧
      Stmt.scopesOf ss + Stmt.finalScopesOf ss ≤ taken.length ∧
      (Stmt.finalScopesOf ss = 0 → Stmt.scopesOf (Frame.finalBodies frames) = 0 →
        taken.length = Stmt.scopesOf ss) := by
  obtain ⟨taken, hs, hleast, hcount⟩ :=
    Stmt.takesFromAll o frames ss hss hframes session () session' h
  refine ⟨taken, hs, hleast, fun hfinal houter => hcount ?_⟩
  rw [Frame.scopesOf, hfinal, houter]

/-- How many tables a build that succeeds leaves. -/
def Build.left? (b : Build Unit) (s : Session) : Option Nat :=
  match b s with
  | .ok _ s' => some s'.draft.children.length
  | .error .. => none

theorem Build.of_left? {b : Build Unit} {s : Session} {n : Nat} (h : b.left? s = some n) :
    ∃ s', b s = .ok () s' ∧ s'.draft.children.length = n := by
  unfold left? at h
  split at h
  · next s' hrun => exact ⟨s', hrun, Option.some.inj h⟩
  · cases h

/-- The statement `lambda: 0`. -/
def zeroLambda : Stmt :=
  .expr 4 (.lambda 4 ⟨[], [], none, [], [], none, []⟩ (.constant 4 (.int 0)))

/-- A module's session with the tables of two lambdas. -/
def twoLambdas : Session :=
  ⟨.ofModule { ScopeTable.module with children := [.lambda 4, .lambda 4] }, 1⟩

theorem regular_zeroLambda : zeroLambda.Regular := by
  refine .intro trivial (fun e he => ?_) nofun
  obtain rfl := List.mem_singleton.mp he
  exact .intro (Nat.le_refl 0) nofun

/-- A loop that is left through a `finally`, with a lambda in the part that is protected, and a
function behind the loop. -/
def guardedBreak : List Stmt :=
  [.whileLoop 2 (.name 2 "more" .load)
    [.tryExcept 3 [zeroLambda, .breakLoop 5] [] [] [.expr 6 (.name 6 "step" .load)]] [],
    .functionDef 7 "f" ⟨[], [], none, [], [], none, []⟩ [.pass 8] [] none]

theorem regular_guardedBreak : ∀ s ∈ guardedBreak, s.Regular := by
  have hname (line : UInt32) (id : String) : (Expr.name line id .load).Regular := .intro trivial nofun
  have hfinal : (Stmt.expr 6 (.name 6 "step" .load)).Regular := by
    refine .intro trivial (fun e he => ?_) nofun
    obtain rfl := List.mem_singleton.mp he
    exact hname 6 "step"
  have htry : (Stmt.tryExcept 3 [zeroLambda, .breakLoop 5] [] []
      [.expr 6 (.name 6 "step" .load)]).Regular := by
    refine .intro (fun _ => rfl) nofun ?_
    simp only [Stmt.block, Stmt.inner, List.flatMap_nil, List.append_nil, List.cons_append,
      List.nil_append, List.forall_mem_cons]
    exact ⟨regular_zeroLambda, .intro trivial nofun nofun, hfinal, nofun⟩
  simp only [guardedBreak, List.forall_mem_cons]
  refine ⟨.intro trivial (fun e he => ?_) (fun s hs => ?_), .intro ?_ nofun nofun, nofun⟩
  · obtain rfl := List.mem_singleton.mp he
    exact hname 2 "more"
  · obtain rfl := List.mem_singleton.mp hs
    exact htry
  · exact Nat.le_refl 0

/-- The session with a table for the lambda, one for the function and another one. -/
def threeTables : Session :=
  ⟨.ofModule { ScopeTable.module with children := [.lambda 4, .function "f" 7, .lambda 9] }, 1⟩

theorem guardedBreak_tables_taken : ∃ session taken,
    Stmt.lowerAll {} [] guardedBreak threeTables = .ok () session ∧
      threeTables.draft.children = taken ++ session.draft.children ∧ taken.length = 2 := by
  have hleft : (Stmt.lowerAll {} [] guardedBreak).left? threeTables = some 1 := by decide +kernel
  obtain ⟨session, hrun, _⟩ := Build.of_left? hleft
  obtain ⟨taken, hs, _, hcount⟩ :=
    Stmt.tables_taken {} [] guardedBreak regular_guardedBreak nofun threeTables session hrun
  exact ⟨session, taken, hrun, hs, hcount rfl rfl⟩

/-- The only scope of a `try` statement takes two tables if it stands in the final body. -/
theorem finalLambda_takes_two : ∃ s session taken, s = .tryExcept 1 [.pass 2] [] [] [zeroLambda] ∧
    s.Regular ∧ Stmt.scopesOf [s] = 1 ∧ Stmt.lowerAll {} [] [s] twoLambdas = .ok () session ∧
      twoLambdas.draft.children = taken ++ session.draft.children ∧ taken.length = 2 := by
  have hleft : (Stmt.lowerAll {} [] [.tryExcept 1 [.pass 2] [] [] [zeroLambda]]).left? twoLambdas =
      some 0 := by
    decide +kernel
  obtain ⟨session, hrun, hnil⟩ := Build.of_left? hleft
  refine ⟨_, session, twoLambdas.draft.children, rfl, .intro (fun _ => rfl) nofun (fun s hs => ?_),
    by decide, hrun, ?_, rfl⟩
  · simp only [Stmt.block, Stmt.inner, List.flatMap_nil, List.append_nil, List.cons_append,
      List.nil_append, List.mem_cons, List.not_mem_nil, or_false] at hs
    rcases hs with rfl | rfl
    · exact .intro trivial nofun nofun
    · exact regular_zeroLambda
  · rw [List.length_eq_zero_iff.mp hnil, List.append_nil]

end Wordcode
