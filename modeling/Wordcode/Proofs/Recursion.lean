import Wordcode.Proofs.Driver

/-!
# Compiling ends

Compiling a statement compiles lists of statements: those inside it and, where control leaves
frames, the final bodies that these hold, which are no part of the statement. What goes down from
the statement to each of these lists is the number of statements in the list together with the
number of those in the final bodies around it.
-/

set_option autoImplicit false

namespace Wordcode

open Build

mutual

/-- How many statements there are in a statement, itself among them. -/
def Stmt.size : Stmt → Nat
  | .functionDef _ _ _ body _ _ | .classDef _ _ _ _ body _ => Stmt.sizeOfAll body + 1
  | .forLoop _ _ _ body orelse | .whileLoop _ _ body orelse | .ifElse _ _ body orelse =>
    Stmt.sizeOfAll body + Stmt.sizeOfAll orelse + 1
  | .tryExcept _ body handlers orelse finalbody =>
    Stmt.sizeOfAll body + Handler.sizeOfAll handlers + Stmt.sizeOfAll orelse +
      Stmt.sizeOfAll finalbody + 1
  | _ => 1

def Stmt.sizeOfAll : List Stmt → Nat
  | [] => 0
  | s :: ss => Stmt.size s + Stmt.sizeOfAll ss

def Handler.sizeOfAll : List Handler → Nat
  | [] => 0
  | ⟨_, _, body, _⟩ :: hs => Stmt.sizeOfAll body + Handler.sizeOfAll hs

end

/-- How many statements the final bodies in frames hold. -/
def Frame.sizeOfAll : List Frame → Nat
  | [] => 0
  | .finallyTry finalbody :: outer => Stmt.sizeOfAll finalbody + sizeOfAll outer
  | _ :: outer => sizeOfAll outer

/-- The size of a list of statements together with that of the final bodies around it. -/
def Stmt.sizeWithin (frames : List Frame) (ss : List Stmt) : Nat :=
  Stmt.sizeOfAll ss + Frame.sizeOfAll frames

theorem Stmt.size_pos (s : Stmt) : 0 < s.size := by
  cases s <;> simp [Stmt.size]

theorem Stmt.sizeOfAll_withoutDocstring_le (o : Options) (body : List Stmt) :
    Stmt.sizeOfAll (withoutDocstring o body) ≤ Stmt.sizeOfAll body := by
  unfold withoutDocstring
  split
  · cases body with
    | nil => exact Nat.le_refl _
    | cons s ss => exact Nat.le_add_left _ _
  · exact Nat.le_refl _

theorem Stmt.sizeWithin_singleton_le {frames : List Frame} {ss : List Stmt} {s : Stmt}
    (h : s ∈ ss) : Stmt.sizeWithin frames [s] ≤ Stmt.sizeWithin frames ss := by
  refine Nat.add_le_add_right ?_ _
  induction ss with
  | nil => cases h
  | cons s' ss ih =>
    simp only [Stmt.sizeOfAll, Nat.add_zero] at ih ⊢
    rcases List.mem_cons.mp h with rfl | h
    · exact Nat.le_add_right _ _
    · exact Nat.le_trans (ih h) (Nat.le_add_left _ _)

section

variable (o : Options) (call : List Frame → List Stmt → Build Unit)

/-- Leaves frames, where `call` compiles the final bodies. -/
def Frame.unwindWith (keep toLoop : Bool) : List Frame → Build (Option Frame)
  | [] => return none
  | f :: outer => do
    if toLoop && f.isLoop then return some f
    leave f keep
    if let .finallyTry finalbody := f then
      let saved ← ask (·.line)
      call (if keep then .popValue :: outer else outer) finalbody
      setLine saved
    Frame.unwindWith keep toLoop outer

/-- Compiles handlers, where `call` compiles their bodies. -/
def Handler.lowerAllWith (frames : List Frame) (done : BlockId) : List Handler → Build Unit
  | [] => pure ()
  | ⟨type, name, body, line⟩ :: rest => do
    if type.isNone && !rest.isEmpty then throw (.defaultExceptNotLast line)
    setLine line
    let next ← newBlock
    if let some t := type then
      emit .dupTop
      t.lower o.filename .push
      emitJump .jumpIfNotExcMatch next
    emit .popTop
    match name with
    | some n =>
      let cleanup ← newBlock
      let inside ← newBlock
      accessName n .store
      emit .popTop
      emitJump .setupFinally cleanup
      fallInto inside
      call (.handlerCleanup (some n) :: frames) body
      emit .popBlock
      emit .popExcept
      clearName n
      emitJump .jumpForward done
      fallInto cleanup
      clearName n
      emit .reraise
    | none =>
      let inside ← newBlock
      emit .popTop
      emit .popTop
      fallInto inside
      call (.handlerCleanup none :: frames) body
      emit .popExcept
      emitJump .jumpForward done
    fallInto next
    Handler.lowerAllWith frames done rest

/-- Compiles a `try` statement with handlers, its final body apart, where `call` compiles the lists
of statements in it. -/
def Stmt.lowerTryWith (frames : List Frame) (body : List Stmt) (handlers : List Handler)
    (orelse : List Stmt) : Build Unit := do
  let inside ← newBlock
  let except ← newBlock
  let otherwise ← newBlock
  let done ← newBlock
  emitJump .setupFinally except
  fallInto inside
  call (.tryExcept :: frames) body
  emit .popBlock
  emitJump .jumpForward otherwise
  fallInto except
  Handler.lowerAllWith o call (.exceptionHandler :: frames) done handlers
  emit .reraise
  fallInto otherwise
  call frames orelse
  fallInto done

/-- Compiles a statement, where `call` compiles every list of statements that is compiled for it. -/
def Stmt.lowerWith (frames : List Frame) (s : Stmt) : Build Unit :=
  inStatement s.line <|
    match s with
    | .functionDef line name args body decorators returns => do
      Expr.lowerAll o.filename decorators
      let parts ← Arguments.lowerDefaults o.filename args
      let annotated ← annotations o.filename args returns
      let code ← inScope o.filename name .function (definitionLine line decorators) do
        let _ ← internConstant ((keptDocstring? o body).elim .none .str)
        call [] (withoutDocstring o body)
        return true
      makeClosure code { parts with annotations := annotated } code.qualname
      repeatEmit .callFunction 1 decorators.length
      accessName name .store
    | .classDef line name bases keywords body decorators => do
      Expr.lowerAll o.filename decorators
      let code ← inScope o.filename name .classBody (definitionLine line decorators) do
        classProlog
        bindDocstring o body
        call [] (withoutDocstring o body)
        classEpilog
        return true
      emit .loadBuildClass
      makeClosure code {} name
      loadConst (.str name)
      callWith 2 bases.length (Expr.lowerAll o.filename bases) (keywords.map Keyword.name)
        (Keyword.lowerValues o.filename keywords)
      repeatEmit .callFunction 1 decorators.length
      accessName name .store
    | .ret line value => do
      if !(← ask (·.kind.isFunctionLike)) then throw (.returnOutsideFunction line)
      match value with
      | none =>
        let _ ← Frame.unwindWith call false false frames
        loadConst .none
      | some e =>
        if e.isConstant then
          let _ ← Frame.unwindWith call false false frames
          e.lower o.filename .push
        else
          e.lower o.filename .push
          let _ ← Frame.unwindWith call true false frames
      emit .returnValue
    | .delete _ targets => Expr.lowerAll o.filename targets
    | .assign _ targets value => do
      value.lower o.filename .push
      storeAll o.filename targets
    | .augAssign _ target op value => augmentedAssign o.filename target op value
    | .raise _ exc cause => raiseStatement o.filename exc cause
    | .assert _ test msg => assertStatement o test msg
    | .importNames _ names => importAll names
    | .importFrom _ origin names level => Build.importFrom origin names level
    | .global .. | .nonlocal .. | .pass _ => pure ()
    | .expr _ value =>
      if value.isConstant then emit .nop
      else do
        value.lower o.filename .push
        emit .popTop
    | .breakLoop line => do
      match ← Frame.unwindWith call false true frames with
      | some (.whileLoop _ exit) => emitJump .jumpAbsolute exit
      | some (.forLoop _ exit) =>
        emit .popTop
        emitJump .jumpAbsolute exit
      | _ => throw (.breakOutsideLoop line)
    | .continueLoop line => do
      match ← Frame.unwindWith call false true frames with
      | some (.whileLoop start _) | some (.forLoop start _) => emitJump .jumpAbsolute start
      | _ => throw (.continueOutsideLoop line)
    | .forLoop _ target iter body orelse => do
      let start ← newBlock
      let cleanup ← newBlock
      let done ← newBlock
      iter.lower o.filename .push
      emit .getIter
      fallInto start
      emitJump .forIter cleanup
      target.lower o.filename .push
      call (.forLoop start done :: frames) body
      emitJump .jumpAbsolute start
      fallInto cleanup
      call frames orelse
      fallInto done
    | .whileLoop _ test body orelse => do
      let start ← newBlock
      let done ← newBlock
      let anchor ← newBlock
      fallInto start
      test.lower o.filename (.jump anchor false)
      call (.whileLoop start done :: frames) body
      emitJump .jumpAbsolute start
      fallInto anchor
      call frames orelse
      fallInto done
    | .ifElse _ test body [] => do
      let done ← newBlock
      test.lower o.filename (.jump done false)
      call frames body
      fallInto done
    | .ifElse _ test body orelse => do
      let done ← newBlock
      let next ← newBlock
      test.lower o.filename (.jump next false)
      call frames body
      emitJump .jumpForward done
      fallInto next
      call frames orelse
      fallInto done
    | .tryExcept _ body handlers orelse [] => Stmt.lowerTryWith o call frames body handlers orelse
    | .tryExcept _ body handlers orelse finalbody => do
      let inside ← newBlock
      let final ← newBlock
      let exit ← newBlock
      emitJump .setupFinally final
      fallInto inside
      if handlers.isEmpty then call (.finallyTry finalbody :: frames) body
      else Stmt.lowerTryWith o call (.finallyTry finalbody :: frames) body handlers orelse
      emit .popBlock
      call frames finalbody
      emitJump .jumpForward exit
      fallInto final
      call (.finallyEnd :: frames) finalbody
      emit .reraise
      fallInto exit

/-- Compiles statements in turn, where `call` compiles the lists that are compiled for them. -/
def Stmt.lowerAllWith (frames : List Frame) : List Stmt → Build Unit
  | [] => pure ()
  | s :: ss => do
    Stmt.lowerWith o call frames s
    Stmt.lowerAllWith frames ss

end

section

variable {o : Options} {call call' : List Frame → List Stmt → Build Unit} {bound : Nat}
  (h : ∀ frames ss, Stmt.sizeWithin frames ss < bound → call frames ss = call' frames ss)
include h

theorem Frame.unwindWith_congr (keep toLoop : Bool) {frames : List Frame}
    (hbound : Frame.sizeOfAll frames < bound) :
    Frame.unwindWith call keep toLoop frames = Frame.unwindWith call' keep toLoop frames := by
  induction frames with
  | nil => rfl
  | cons f outer ih =>
    rw [Frame.unwindWith, Frame.unwindWith]
    cases f with
    | finallyTry finalbody =>
      rw [Frame.sizeOfAll] at hbound
      have hkeep : Frame.sizeOfAll (if keep then .popValue :: outer else outer) =
          Frame.sizeOfAll outer := by
        cases keep <;> rfl
      rw [ih (by omega)]
      dsimp only
      rw [h _ finalbody (by rw [Stmt.sizeWithin, hkeep]; exact hbound)]
    | _ => rw [ih hbound]

theorem Handler.lowerAllWith_congr {frames : List Frame} (done : BlockId) {hs : List Handler}
    (hbound : Handler.sizeOfAll hs + Frame.sizeOfAll frames < bound) :
    Handler.lowerAllWith o call frames done hs = Handler.lowerAllWith o call' frames done hs := by
  induction hs with
  | nil => rfl
  | cons handler rest ih =>
    obtain ⟨type, name, body, line⟩ := handler
    rw [Handler.sizeOfAll] at hbound
    have hbody (x : Option String) : call (.handlerCleanup x :: frames) body =
        call' (.handlerCleanup x :: frames) body :=
      h _ _ (by simp only [Stmt.sizeWithin, Frame.sizeOfAll]; omega)
    rw [Handler.lowerAllWith, Handler.lowerAllWith, ih (by omega)]
    cases name with
    | none => simp only [hbody]
    | some x => simp only [hbody]

theorem Stmt.lowerTryWith_congr {frames : List Frame} {body : List Stmt} {handlers : List Handler}
    {orelse : List Stmt}
    (hbound : Stmt.sizeOfAll body + Handler.sizeOfAll handlers + Stmt.sizeOfAll orelse +
      Frame.sizeOfAll frames < bound) :
    Stmt.lowerTryWith o call frames body handlers orelse =
      Stmt.lowerTryWith o call' frames body handlers orelse := by
  have hbody : call (.tryExcept :: frames) body = call' (.tryExcept :: frames) body :=
    h _ _ (by simp only [Stmt.sizeWithin, Frame.sizeOfAll]; omega)
  have horelse : call frames orelse = call' frames orelse :=
    h _ _ (by simp only [Stmt.sizeWithin]; omega)
  have hhandlers (done : BlockId) :
      Handler.lowerAllWith o call (.exceptionHandler :: frames) done handlers =
        Handler.lowerAllWith o call' (.exceptionHandler :: frames) done handlers :=
    Handler.lowerAllWith_congr h done (by simp only [Frame.sizeOfAll]; omega)
  simp only [Stmt.lowerTryWith, hbody, horelse, hhandlers]

theorem Stmt.lowerWith_congr {frames : List Frame} {s : Stmt}
    (hbound : Stmt.sizeWithin frames [s] ≤ bound) :
    Stmt.lowerWith o call frames s = Stmt.lowerWith o call' frames s := by
  simp only [Stmt.sizeWithin, Stmt.sizeOfAll, Nat.add_zero] at hbound
  have hpos := Stmt.size_pos s
  have hunwind (keep toLoop : Bool) : Frame.unwindWith call keep toLoop frames =
      Frame.unwindWith call' keep toLoop frames :=
    Frame.unwindWith_congr h keep toLoop (by omega)
  cases s with
  | functionDef line name args body decorators returns =>
    have hle := Stmt.sizeOfAll_withoutDocstring_le o body
    rw [Stmt.size] at hbound
    have hbody := h [] (withoutDocstring o body)
      (by simp only [Stmt.sizeWithin, Frame.sizeOfAll]; omega)
    simp only [Stmt.lowerWith, hbody]
  | classDef line name bases keywords body decorators =>
    have hle := Stmt.sizeOfAll_withoutDocstring_le o body
    rw [Stmt.size] at hbound
    have hbody := h [] (withoutDocstring o body)
      (by simp only [Stmt.sizeWithin, Frame.sizeOfAll]; omega)
    simp only [Stmt.lowerWith, hbody]
  | ret | breakLoop | continueLoop => simp only [Stmt.lowerWith, hunwind]
  | forLoop line target iter body orelse =>
    rw [Stmt.size] at hbound
    have hbody (start done : BlockId) := h (.forLoop start done :: frames) body
      (by simp only [Stmt.sizeWithin, Frame.sizeOfAll]; omega)
    have horelse := h frames orelse (by simp only [Stmt.sizeWithin]; omega)
    simp only [Stmt.lowerWith, hbody, horelse]
  | whileLoop line test body orelse =>
    rw [Stmt.size] at hbound
    have hbody (start done : BlockId) := h (.whileLoop start done :: frames) body
      (by simp only [Stmt.sizeWithin, Frame.sizeOfAll]; omega)
    have horelse := h frames orelse (by simp only [Stmt.sizeWithin]; omega)
    simp only [Stmt.lowerWith, hbody, horelse]
  | ifElse line test body orelse =>
    rw [Stmt.size] at hbound
    have hbody := h frames body (by simp only [Stmt.sizeWithin]; omega)
    have horelse := h frames orelse (by simp only [Stmt.sizeWithin]; omega)
    cases orelse <;> simp only [Stmt.lowerWith, hbody, horelse]
  | tryExcept line body handlers orelse finalbody =>
    rw [Stmt.size] at hbound
    cases finalbody with
    | nil =>
      have htry : Stmt.lowerTryWith o call frames body handlers orelse =
          Stmt.lowerTryWith o call' frames body handlers orelse :=
        Stmt.lowerTryWith_congr h (by omega)
      simp only [Stmt.lowerWith, htry]
    | cons s ss =>
      have hinside := h (.finallyTry (s :: ss) :: frames) body
        (by simp only [Stmt.sizeWithin, Frame.sizeOfAll]; omega)
      have htry : Stmt.lowerTryWith o call (.finallyTry (s :: ss) :: frames) body handlers orelse =
          Stmt.lowerTryWith o call' (.finallyTry (s :: ss) :: frames) body handlers orelse :=
        Stmt.lowerTryWith_congr h (by simp only [Frame.sizeOfAll]; omega)
      have hfinal := h frames (s :: ss) (by simp only [Stmt.sizeWithin]; omega)
      have hend := h (.finallyEnd :: frames) (s :: ss)
        (by simp only [Stmt.sizeWithin, Frame.sizeOfAll]; omega)
      simp only [Stmt.lowerWith, hinside, htry, hfinal, hend]
  | _ => rfl

theorem Stmt.lowerAllWith_congr {frames : List Frame} {ss : List Stmt}
    (hbound : Stmt.sizeWithin frames ss ≤ bound) :
    Stmt.lowerAllWith o call frames ss = Stmt.lowerAllWith o call' frames ss := by
  induction ss with
  | nil => rfl
  | cons s ss ih =>
    have hs : Stmt.sizeWithin frames [s] ≤ Stmt.sizeWithin frames (s :: ss) :=
      Stmt.sizeWithin_singleton_le List.mem_cons_self
    have hss : Stmt.sizeWithin frames ss ≤ Stmt.sizeWithin frames (s :: ss) := by
      simp only [Stmt.sizeWithin, Stmt.sizeOfAll]
      omega
    rw [Stmt.lowerAllWith, Stmt.lowerAllWith, Stmt.lowerWith_congr h (Nat.le_trans hs hbound),
      ih (Nat.le_trans hss hbound)]

end

theorem Frame.unwindWith_eq (o : Options) (keep toLoop : Bool) (frames : List Frame) :
    Frame.unwindWith (Stmt.lowerAll o) keep toLoop frames = Frame.unwind o keep toLoop frames := by
  induction frames with
  | nil =>
    rewrite [Frame.unwind]
    rfl
  | cons f outer ih =>
    rewrite [Frame.unwind, Frame.unwindWith, ih]
    rfl

theorem Handler.lowerAllWith_eq (o : Options) (frames : List Frame) (done : BlockId)
    (hs : List Handler) :
    Handler.lowerAllWith o (Stmt.lowerAll o) frames done hs = Handler.lowerAll o frames done hs := by
  induction hs with
  | nil =>
    rewrite [Handler.lowerAll]
    rfl
  | cons handler rest ih =>
    obtain ⟨type, name, body, line⟩ := handler
    rewrite [Handler.lowerAll, Handler.lowerAllWith, ih]
    rfl

theorem Stmt.lowerTryWith_eq (o : Options) (frames : List Frame) (body : List Stmt)
    (handlers : List Handler) (orelse : List Stmt) :
    Stmt.lowerTryWith o (Stmt.lowerAll o) frames body handlers orelse =
      Stmt.lowerTry o frames body handlers orelse := by
  simp only [Stmt.lowerTry, Stmt.lowerTryWith, Handler.lowerAllWith_eq]

theorem Stmt.lowerWith_eq (o : Options) (frames : List Frame) (s : Stmt) :
    Stmt.lowerWith o (Stmt.lowerAll o) frames s = Stmt.lower o frames s := by
  cases s with
  | ifElse line test body orelse =>
    cases orelse with
    | nil =>
      rewrite [Stmt.lower]
      rfl
    | cons s ss =>
      rewrite [Stmt.lower]
      · rfl
      · simp
  | tryExcept line body handlers orelse finalbody =>
    cases finalbody with
    | nil =>
      rw [Stmt.lower]
      simp only [Stmt.lowerWith, Stmt.lowerTryWith_eq, Stmt.line]
    | cons s ss =>
      rw [Stmt.lower]
      · simp only [Stmt.lowerWith, Stmt.lowerTryWith_eq, Stmt.line]
      · simp
  | ret | breakLoop | continueLoop =>
    have hunwind : Frame.unwindWith (Stmt.lowerAll o) = Frame.unwind o := by
      funext keep toLoop outer
      exact Frame.unwindWith_eq o keep toLoop outer
    rewrite [Stmt.lower, Stmt.lowerWith, hunwind]
    rfl
  | _ =>
    rewrite [Stmt.lower]
    rfl

theorem Stmt.lowerAllWith_eq (o : Options) (frames : List Frame) (ss : List Stmt) :
    Stmt.lowerAllWith o (Stmt.lowerAll o) frames ss = Stmt.lowerAll o frames ss := by
  induction ss with
  | nil =>
    rewrite [Stmt.lowerAll]
    rfl
  | cons s ss ih => rw [Stmt.lowerAll, Stmt.lowerAllWith, Stmt.lowerWith_eq, ih]

/-- By induction on the size of what is compiled. -/
theorem Stmt.eq_lowerAll_of_solves {o : Options} {f : List Frame → List Stmt → Build Unit}
    (hf : ∀ frames ss, f frames ss = Stmt.lowerAllWith o f frames ss) (frames : List Frame)
    (ss : List Stmt) : f frames ss = Stmt.lowerAll o frames ss := by
  induction hn : Stmt.sizeWithin frames ss using Nat.strongRecOn generalizing frames ss with
  | ind n ih =>
    have hcongr : Stmt.lowerAllWith o f frames ss =
        Stmt.lowerAllWith o (Stmt.lowerAll o) frames ss :=
      Stmt.lowerAllWith_congr (fun frames' ss' hlt => ih _ hlt frames' ss' rfl) (Nat.le_of_eq hn)
    rw [hf, hcongr, Stmt.lowerAllWith_eq]

/-- Compiling a statement compiles only lists that are smaller than it, counting the final bodies
around them; so what compiles lists of statements is determined by what a single statement asks
for, and the machine with explicit stacks ends on every program. -/
theorem compiling_ends (o : Options) :
    (∀ frames s (call call' : List Frame → List Stmt → Build Unit),
      (∀ frames' ss, Stmt.sizeWithin frames' ss < Stmt.sizeWithin frames [s] →
        call frames' ss = call' frames' ss) →
      Stmt.lowerWith o call frames s = Stmt.lowerWith o call' frames s) ∧
    (∀ f : List Frame → List Stmt → Build Unit,
      (∀ frames ss, f frames ss = Stmt.lowerAllWith o f frames ss) ↔ f = Stmt.lowerAll o) ∧
    ∀ p t, Program.drive p t o = some (compile p t o) := by
  refine ⟨fun frames s call call' h => Stmt.lowerWith_congr h (Nat.le_refl _), fun f => ⟨fun hf => ?_,
    fun hf => ?_⟩, fun p t => Program.drive_eq p t o⟩
  · exact funext fun frames => funext fun ss => Stmt.eq_lowerAll_of_solves hf frames ss
  · rw [hf]
    exact fun frames ss => (Stmt.lowerAllWith_eq o frames ss).symm

/-- Of what compiles lists it is enough that it compiles the smaller ones: `return` in a `try` whose
final body returns too asks for that body and for nothing as large as itself. -/
theorem returningFinal_asks_smaller : ∃ call : List Frame → List Stmt → Build Unit,
    call [] [.ret 2 none, .ret 2 none] = throw (.returnOutsideFunction 2) ∧
      Stmt.lowerWith {} call [.finallyTry [.ret 3 none]] (.ret 2 none) =
        Stmt.lower {} [.finallyTry [.ret 3 none]] (.ret 2 none) := by
  let call (frames : List Frame) (ss : List Stmt) : Build Unit :=
    if Stmt.sizeWithin frames ss < 2 then Stmt.lowerAll {} frames ss
    else throw (.returnOutsideFunction 2)
  have hcall (frames : List Frame) (ss : List Stmt) (hlt : Stmt.sizeWithin frames ss < 2) :
      call frames ss = Stmt.lowerAll {} frames ss := if_pos hlt
  have hsame := (compiling_ends {}).1 [.finallyTry [.ret 3 none]] (.ret 2 none) call
    (Stmt.lowerAll {}) hcall
  exact ⟨call, if_neg (by decide), hsame.trans (Stmt.lowerWith_eq {} _ _)⟩

end Wordcode
