import Wordcode.Proofs.LowerStmt

/-!
# Driving with explicit stacks

The compiler once more, as a machine that keeps the frames around a statement and the scopes around
the one at hand on stacks: it pushes and pops frames, takes them off while it unwinds them, and
checks whenever it closes a frame or a scope that the stack holds what it should. On its face it may
complain of its own stacks, and it may not end: what it compiles while it unwinds are the final
bodies that it finds on the stack. It does neither, for it does what the builds do.
-/

set_option autoImplicit false

namespace Wordcode

/-- A scope that waits for one nested in it. -/
structure Layer where
  draft : Draft
  frames : List Frame

/-- A session with the frames that are open in the scope at hand and the scopes around it, innermost
first. -/
structure Driver where
  session : Session
  frames : List Frame
  parents : List Layer

/-- Finishes the scope at hand, where no frame may be open. -/
def Driver.finish (st : Driver) (addNone : Bool) (filename : String) :
    Except CompileError CodeObject :=
  if st.session.draft.children.isEmpty && !st.frames.isEmpty then
    .error ((CompileError.fault (.other "frame blocks left open at end of scope")).withContext
      st.session.draft.qualname 0)
  else st.session.draft.finish addNone filename

/-- Finishes the outermost scope. -/
def Driver.close (st : Driver) (addNone : Bool) (filename : String) :
    Except CompileError CodeObject :=
  if st.parents.isEmpty then st.finish addNone filename
  else
    .error (.fault (.other (toString st.parents.length ++ " scope(s) still open at end of compile")))

/-- What the machine does: it need not end. -/
abbrev Drive := ExceptT CompileError (StateT Driver Option)

namespace Drive

def lift {α : Type} (b : Build α) : Drive α := fun st =>
  match b st.session with
  | .ok a s => some (.ok a, { st with session := s })
  | .error e s => some (.error e, { st with session := s })

instance : MonadLift Build Drive := ⟨lift⟩

def pushFrame (f : Frame) : Drive Unit := fun st =>
  some (.ok (), { st with frames := f :: st.frames })

/-- Closes the innermost frame, which must be of the expected kind. -/
def popFrame (expected : FrameKind) : Drive Unit := fun st =>
  match Frame.pop expected st.frames with
  | (.ok _, rest) => some (.ok (), { st with frames := rest })
  | (.error e, rest) => some (.error e, { st with frames := rest })

/-- Takes the innermost frame off, whatever it is. -/
def takeFrame : Drive (Option Frame) := fun st =>
  some (.ok st.frames.head?, { st with frames := st.frames.tail })

/-- Lays the scope at hand aside for one nested in it. -/
def enterScope (name : String) (kind : ScopeKind) (firstLine : UInt32) : Drive Unit := do
  let table ← Build.nextChild
  if table.kind ≠ kind then Build.fail (.childScopeMismatch kind name table.kind table.name)
  fun st => some (.ok (), {
    session := ⟨st.session.draft.child name table st.session.nextSerial firstLine,
      st.session.nextSerial + 1⟩
    frames := []
    parents := ⟨st.session.draft, st.frames⟩ :: st.parents })

/-- Goes back to the scope around the one at hand, which is finished. -/
def exitScope (filename : String) (addNone : Bool) : Drive CodeObject := fun st =>
  match st.parents with
  | [] => some (.error (.fault (.other "exit from the top-level scope")), st)
  | outer :: rest =>
    some (st.finish addNone filename, ⟨⟨outer.draft, st.session.nextSerial⟩, outer.frames, rest⟩)

/-- Where `continue` and `break` go in a frame that must be a loop. -/
def loopTargets (f : Frame) : Drive (BlockId × BlockId) :=
  match f.loopTargets? with
  | some targets => pure targets
  | none => throw (.fault (.other "unwinding stopped at a block that is not a loop"))

/-- An internal error learns the line and the scope at hand. -/
def addContext (line : UInt32) :
    Except CompileError Unit × Driver → Except CompileError Unit × Driver
  | (.ok a, st) => (.ok a, st)
  | (.error e, st) => (.error (e.withContext st.session.draft.qualname line), st)

end Drive

open Build Drive

mutual

def Options.drive (o : Options) (s : Stmt) : Drive Unit := fun st => do
  return addContext s.line (← o |>.driveKind s st)
partial_fixpoint

def Options.driveKind (o : Options) (s : Stmt) : Drive Unit := do
  setLine s.line
  match s with
  | .functionDef line name args body decorators returns =>
    Expr.lowerAll o.filename decorators
    let parts ← Arguments.lowerDefaults o.filename args
    let annotated ← annotations o.filename args returns
    enterScope name .function (definitionLine line decorators)
    let _ ← internConstant ((keptDocstring? o body).elim .none .str)
    o |>.driveAll (withoutDocstring o body)
    let code ← exitScope o.filename true
    makeClosure code { parts with annotations := annotated } code.qualname
    repeatEmit .callFunction 1 decorators.length
    accessName name .store
  | .classDef line name bases keywords body decorators =>
    Expr.lowerAll o.filename decorators
    enterScope name .classBody (definitionLine line decorators)
    classProlog
    bindDocstring o body
    o |>.driveAll (withoutDocstring o body)
    classEpilog
    let code ← exitScope o.filename true
    emit .loadBuildClass
    makeClosure code {} name
    loadConst (.str name)
    callWith 2 bases.length (Expr.lowerAll o.filename bases) (keywords.map Keyword.name)
      (Keyword.lowerValues o.filename keywords)
    repeatEmit .callFunction 1 decorators.length
    accessName name .store
  | .ret line value =>
    if !(← ask (·.kind.isFunctionLike)) then throw (.returnOutsideFunction line)
    match value with
    | none =>
      let _ ← o |>.driveUnwind false false
      loadConst .none
    | some e =>
      if e.isConstant then
        let _ ← o |>.driveUnwind false false
        e.lower o.filename .push
      else
        e.lower o.filename .push
        let _ ← o |>.driveUnwind true false
    emit .returnValue
  | .delete _ targets => Expr.lowerAll o.filename targets
  | .assign _ targets value =>
    value.lower o.filename .push
    storeAll o.filename targets
  | .augAssign _ target op value => augmentedAssign o.filename target op value
  | .raise _ exc cause => raiseStatement o.filename exc cause
  | .assert _ test msg => assertStatement o test msg
  | .importNames _ names => importAll names
  | .importFrom _ origin names level => Build.importFrom origin names level
  | .global .. | .nonlocal .. | .pass _ => pure ()
  | .expr _ value =>
    if value.isConstant then emit .nop
    else
      value.lower o.filename .push
      emit .popTop
  | .breakLoop line =>
    match ← o |>.driveUnwind false true with
    | none => throw (.breakOutsideLoop line)
    | some loop =>
      o |>.driveLeave false loop
      let targets ← loopTargets loop
      emitJump .jumpAbsolute targets.2
  | .continueLoop line =>
    match ← o |>.driveUnwind false true with
    | none => throw (.continueOutsideLoop line)
    | some loop =>
      let targets ← loopTargets loop
      emitJump .jumpAbsolute targets.1
  | .forLoop _ target iter body orelse =>
    let start ← newBlock
    let cleanup ← newBlock
    let done ← newBlock
    pushFrame (.forLoop start done)
    iter.lower o.filename .push
    emit .getIter
    fallInto start
    emitJump .forIter cleanup
    target.lower o.filename .push
    o |>.driveAll body
    emitJump .jumpAbsolute start
    fallInto cleanup
    popFrame .forLoop
    o |>.driveAll orelse
    fallInto done
  | .whileLoop _ test body orelse =>
    let start ← newBlock
    let done ← newBlock
    let anchor ← newBlock
    fallInto start
    pushFrame (.whileLoop start done)
    test.lower o.filename (.jump anchor false)
    o |>.driveAll body
    emitJump .jumpAbsolute start
    fallInto anchor
    popFrame .whileLoop
    o |>.driveAll orelse
    fallInto done
  | .ifElse _ test body [] =>
    let done ← newBlock
    test.lower o.filename (.jump done false)
    o |>.driveAll body
    fallInto done
  | .ifElse _ test body orelse =>
    let done ← newBlock
    let next ← newBlock
    test.lower o.filename (.jump next false)
    o |>.driveAll body
    emitJump .jumpForward done
    fallInto next
    o |>.driveAll orelse
    fallInto done
  | .tryExcept _ body handlers orelse [] => o |>.driveTry body handlers orelse
  | .tryExcept _ body handlers orelse finalbody =>
    let inside ← newBlock
    let final ← newBlock
    let exit ← newBlock
    emitJump .setupFinally final
    fallInto inside
    pushFrame (.finallyTry finalbody)
    if handlers.isEmpty then o |>.driveAll body
    else o |>.driveTry body handlers orelse
    emit .popBlock
    popFrame .finallyTry
    o |>.driveAll finalbody
    emitJump .jumpForward exit
    fallInto final
    pushFrame .finallyEnd
    o |>.driveAll finalbody
    popFrame .finallyEnd
    emit .reraise
    fallInto exit
partial_fixpoint

def Options.driveAll (o : Options) (ss : List Stmt) : Drive Unit :=
  match ss with
  | [] => pure ()
  | s :: ss => do
    o |>.drive s
    o |>.driveAll ss
partial_fixpoint

def Options.driveTry (o : Options) (body : List Stmt) (handlers : List Handler)
    (orelse : List Stmt) : Drive Unit := do
  let inside ← newBlock
  let except ← newBlock
  let otherwise ← newBlock
  let done ← newBlock
  emitJump .setupFinally except
  fallInto inside
  pushFrame .tryExcept
  o |>.driveAll body
  emit .popBlock
  popFrame .tryExcept
  emitJump .jumpForward otherwise
  fallInto except
  pushFrame .exceptionHandler
  o |>.driveHandlers done handlers
  popFrame .exceptionHandler
  emit .reraise
  fallInto otherwise
  o |>.driveAll orelse
  fallInto done
partial_fixpoint

def Options.driveHandlers (o : Options) (done : BlockId) (hs : List Handler) : Drive Unit :=
  match hs with
  | [] => pure ()
  | ⟨type, name, body, line⟩ :: rest => do
    if type.isNone && !rest.isEmpty then throw (.defaultExceptNotLast line)
    setLine line
    let next ← newBlock
    if let some t := type then
      emit .dupTop
      t.lower o.filename .push
      emitJump .jumpIfNotExcMatch next
    emit .popTop
    match name with
    | some n =>
      let cleanup ← newBlock
      let inside ← newBlock
      accessName n .store
      emit .popTop
      emitJump .setupFinally cleanup
      fallInto inside
      pushFrame (.handlerCleanup (some n))
      o |>.driveAll body
      popFrame .handlerCleanup
      emit .popBlock
      emit .popExcept
      clearName n
      emitJump .jumpForward done
      fallInto cleanup
      clearName n
      emit .reraise
    | none =>
      let inside ← newBlock
      emit .popTop
      emit .popTop
      fallInto inside
      pushFrame (.handlerCleanup none)
      o |>.driveAll body
      popFrame .handlerCleanup
      emit .popExcept
      emitJump .jumpForward done
    fallInto next
    o |>.driveHandlers done rest
partial_fixpoint

/-- Takes the frames off one by one, up to a loop if `toLoop`, and puts them back at the end. -/
def Options.driveUnwind (o : Options) (keep toLoop : Bool) : Drive (Option Frame) := do
  match ← takeFrame with
  | none => return none
  | some top =>
    if toLoop && top.isLoop then
      pushFrame top
      return some top
    o |>.driveLeave keep top
    let found ← o |>.driveUnwind keep toLoop
    pushFrame top
    return found
partial_fixpoint

def Options.driveLeave (o : Options) (keep : Bool) (f : Frame) : Drive Unit := do
  leave f keep
  match f with
  | .finallyTry finalbody =>
    if keep then pushFrame .popValue
    let saved ← ask (·.line)
    o |>.driveAll finalbody
    setLine saved
    if keep then popFrame .popValue
  | _ => pure ()
partial_fixpoint

end

/-- What the machine does for a statement. -/
def Stmt.drive (o : Options) (s : Stmt) : Drive Unit := o.drive s

def Stmt.driveAll (o : Options) (ss : List Stmt) : Drive Unit := o.driveAll ss

namespace Drive

/-- The outcome of the machine is that of a build: where the build succeeds the machine ends with the
frames `fs` and the scopes `ps`, and where it fails the machine fails with the same error in the same
scope. -/
def Agrees {α : Type} (r : EStateM.Result CompileError Session α) (fs : List Frame)
    (ps : List Layer) (out : Option (Except CompileError α × Driver)) : Prop :=
  match r with
  | .ok a s => out = some (.ok a, ⟨s, fs, ps⟩)
  | .error e s => ∃ fs' ps', out = some (.error e, ⟨s, fs', ps'⟩)

/-- Run with the frames `fs`, the machine does what a build does and ends with the frames `fs'`,
within the same scopes. -/
def Tracks {α : Type} (m : Drive α) (b : Build α) (fs fs' : List Frame) : Prop :=
  ∀ s ps, Agrees (b s) fs' ps (m ⟨s, fs, ps⟩)

theorem bind_run {α β : Type} (m : Drive α) (f : α → Drive β) (st : Driver) :
    (m >>= f) st =
      match m st with
      | none => none
      | some (.ok a, st') => f a st'
      | some (.error e, st') => some (.error e, st') := by
  change Option.bind (m st) _ = _
  cases m st with
  | none => rfl
  | some r =>
    obtain ⟨r, st'⟩ := r
    cases r <;> rfl

namespace Tracks

variable {α β : Type} {fs fs₁ fs' : List Frame}

theorem lift (b : Build α) : Tracks (liftM b) b fs fs := by
  intro s ps
  change Agrees (b s) fs ps (Drive.lift b ⟨s, fs, ps⟩)
  unfold Drive.lift
  cases b s with
  | ok a s' => rfl
  | error e s' => exact ⟨fs, ps, rfl⟩

theorem pure (a : α) : Tracks (Pure.pure a) (Pure.pure a) fs fs := fun _ _ => rfl

theorem throw (e : CompileError) :
    Tracks (MonadExcept.throw e : Drive α) (MonadExcept.throw e) fs fs' :=
  fun _ ps => ⟨fs, ps, rfl⟩

theorem refuse (e : CompileError) {f : α → Drive β} {g : α → Build β} :
    Tracks (MonadExcept.throw e >>= f) (MonadExcept.throw e >>= g) fs fs' :=
  fun _ ps => ⟨fs, ps, rfl⟩

theorem bind_agrees {m : Drive α} {b : Build α} {f : α → Drive β} {g : α → Build β} {s : Session}
    {st : Driver} {ps ps₁ : List Layer} (h : Agrees (b s) fs₁ ps₁ (m st))
    (h' : ∀ a s', b s = .ok a s' → Agrees (g a s') fs' ps (f a ⟨s', fs₁, ps₁⟩)) :
    Agrees ((b >>= g) s) fs' ps ((m >>= f) st) := by
  change Agrees (EStateM.bind b g s) fs' ps _
  rw [bind_run]
  unfold EStateM.bind
  cases hb : b s with
  | ok a s' =>
    rw [hb] at h
    rw [show m st = _ from h]
    exact h' a s' hb
  | error e s' =>
    rw [hb] at h
    obtain ⟨fs'', ps', h⟩ := h
    rw [h]
    exact ⟨fs'', ps', rfl⟩

/-- What comes next may depend on what the build can result in. -/
theorem bind_of {m : Drive α} {b : Build α} {f : α → Drive β} {g : α → Build β} {P : α → Prop}
    (h : Tracks m b fs fs₁) (hP : ∀ {s a s'}, b s = .ok a s' → P a)
    (h' : ∀ a, P a → Tracks (f a) (g a) fs₁ fs') : Tracks (m >>= f) (b >>= g) fs fs' :=
  fun s ps => bind_agrees (h s ps) fun a s' hb => h' a (hP hb) s' ps

theorem bind {m : Drive α} {b : Build α} {f : α → Drive β} {g : α → Build β}
    (h : Tracks m b fs fs₁) (h' : ∀ a, Tracks (f a) (g a) fs₁ fs') :
    Tracks (m >>= f) (b >>= g) fs fs' :=
  h.bind_of (fun _ => trivial) fun a _ => h' a

/-- The machine and the build do the same first. -/
theorem step (b : Build α) {f : α → Drive β} {g : α → Build β}
    (h : ∀ a, Tracks (f a) (g a) fs fs') : Tracks (liftM b >>= f) (b >>= g) fs fs' :=
  (lift b).bind h

theorem push {f : Frame} {m : Unit → Drive α} {b : Build α} (h : Tracks (m ()) b (f :: fs) fs') :
    Tracks (pushFrame f >>= m) b fs fs' :=
  fun s ps => h s ps

theorem pop {f : Frame} {kind : FrameKind} {m : Unit → Drive α} {b : Build α}
    (hkind : f.kind = kind) (h : Tracks (m ()) b fs fs') :
    Tracks (popFrame kind >>= m) b (f :: fs) fs' := by
  intro s ps
  have hrun : (popFrame kind >>= m) ⟨s, f :: fs, ps⟩ = m () ⟨s, fs, ps⟩ := by
    rw [bind_run, popFrame, Frame.pop, if_pos hkind]
  rw [hrun]
  exact h s ps

theorem take {f : Frame} {m : Option Frame → Drive α} {b : Build α}
    (h : Tracks (m (some f)) b fs fs') : Tracks (takeFrame >>= m) b (f :: fs) fs' :=
  fun s ps => h s ps

/-- A frame that was taken off is put back at the end. -/
theorem restore {m : Drive α} {b : Build α} (h : Tracks m b fs fs') (f : Frame) :
    Tracks (do let a ← m; pushFrame f; return a) b fs (f :: fs') := by
  have hall := h.bind fun a => (push (.pure a) : Tracks (do pushFrame f; return a) _ fs' (f :: fs'))
  rwa [bind_pure] at hall

/-- A nested scope is entered, finished with no frame open, and left again. -/
theorem inScope {filename name : String} {kind : ScopeKind} {line : UInt32} {m : Drive Bool}
    {b : Build Bool} (h : Tracks m b [] []) :
    Tracks (do enterScope name kind line; let addNone ← m; exitScope filename addNone)
      (Build.inScope filename name kind line b) fs fs := by
  unfold Build.inScope enterScope
  simp only [bind_assoc]
  refine step _ fun table => ?_
  split
  · exact fun _ ps => ⟨fs, ps, rfl⟩
  · intro s ps
    have hbody := h ⟨s.draft.child name table s.nextSerial line, s.nextSerial + 1⟩
      (⟨s.draft, fs⟩ :: ps)
    refine bind_agrees hbody fun addNone inner _ => ?_
    have hfinish : (Driver.mk inner [] (⟨s.draft, fs⟩ :: ps)).finish addNone filename =
        inner.draft.finish addNone filename := by
      rw [Driver.finish, List.isEmpty_nil, Bool.not_true, Bool.and_false, if_neg Bool.false_ne_true]
    change Agrees (ofExcept (inner.draft.finish addNone filename) ⟨s.draft, inner.nextSerial⟩) fs ps
      (some (_, _))
    rw [hfinish]
    cases inner.draft.finish addNone filename with
    | ok c => rfl
    | error e => exact ⟨fs, ps, rfl⟩

/-- A nested scope whose code is then used in the scope around it. -/
theorem scope (filename name : String) (kind : ScopeKind) (line : UInt32) {m : Drive Bool}
    {b : Build Bool} {f : CodeObject → Drive β} {g : CodeObject → Build β} (h : Tracks m b [] [])
    (h' : ∀ code, Tracks (f code) (g code) fs fs') :
    Tracks (do
      enterScope name kind line
      let addNone ← m
      let code ← exitScope filename addNone
      f code) (Build.inScope filename name kind line b >>= g) fs fs' := by
  have hscope : Tracks (do enterScope name kind line; let addNone ← m; exitScope filename addNone)
      (Build.inScope filename name kind line b) fs fs :=
    inScope h
  have hall := hscope.bind h'
  simp only [bind_assoc] at hall
  exact hall

end Tracks

theorem tracks_drive {o : Options} {s : Stmt} {b : Build Unit} {fs : List Frame}
    (h : Tracks (o.driveKind s) (do setLine s.line; b) fs fs) :
    Tracks (o.drive s) (inStatement s.line b) fs fs := by
  intro σ ps
  have hkind := h σ ps
  have hrun : inStatement s.line b σ = _ :=
    tryCatch_run b s.line ⟨σ.draft.setLine s.line, σ.nextSerial⟩
  change Agrees (b ⟨σ.draft.setLine s.line, σ.nextSerial⟩) fs ps _ at hkind
  rw [hrun, Options.drive]
  cases hb : b ⟨σ.draft.setLine s.line, σ.nextSerial⟩ with
  | ok a σ' =>
    rw [hb] at hkind
    rw [show o.driveKind s ⟨σ, fs, ps⟩ = _ from hkind]
    rfl
  | error e σ' =>
    rw [hb] at hkind
    obtain ⟨fs', ps', hkind⟩ := hkind
    rw [hkind]
    exact ⟨fs', ps', rfl⟩

end Drive

open Drive (Tracks)

theorem Frame.loop_of_unwind {o : Options} {keep : Bool} {frames : List Frame} {s s' : Session}
    {r : Option Frame} (h : Frame.unwind o keep true frames s = .ok r s') :
    ∀ f, r = some f → f.isLoop = true := by
  rintro f rfl
  obtain ⟨hr, _⟩ := (Frame.lowersUnwind o keep true frames s.draft).ok (.refl _) h
  rw [if_pos rfl] at hr
  exact List.find?_some hr.symm

mutual

theorem Stmt.tracks (o : Options) (frames : List Frame) (s : Stmt) :
    Tracks (o.drive s) (Stmt.lower o frames s) frames frames := by
  rw [Stmt.lower.eq_def]
  refine Drive.tracks_drive ?_
  rw [Options.driveKind.eq_def]
  refine .step _ fun _ => ?_
  cases s with
  | functionDef line name args body decorators returns =>
    refine .step _ fun _ => .step _ fun parts => .step _ fun annotated => ?_
    have hbody : Tracks (do
        let _ ← internConstant ((keptDocstring? o body).elim .none .str)
        o.driveAll (withoutDocstring o body)
        return true) (do
        let _ ← internConstant ((keptDocstring? o body).elim .none .str)
        Stmt.lowerAll o [] (withoutDocstring o body)
        return true) [] [] :=
      .step _ fun _ => .bind (Stmt.tracksAll o [] _) fun _ => .pure true
    have hstore : Tracks (liftM (accessName name .store)) (accessName name .store) frames frames :=
      .lift _
    have hall := Tracks.scope o.filename name .function (definitionLine line decorators) hbody
      fun code => .step (makeClosure code { parts with annotations := annotated } code.qualname)
        fun _ => .step (repeatEmit .callFunction 1 decorators.length) fun _ => hstore
    simp only [bind_assoc, pure_bind] at hall
    exact hall
  | classDef line name bases keywords body decorators =>
    refine .step _ fun _ => ?_
    have hbody : Tracks (do
        classProlog
        bindDocstring o body
        o.driveAll (withoutDocstring o body)
        classEpilog
        return true) (do
        classProlog
        bindDocstring o body
        Stmt.lowerAll o [] (withoutDocstring o body)
        classEpilog
        return true) [] [] :=
      .step _ fun _ => .step _ fun _ => .bind (Stmt.tracksAll o [] _) fun _ => .step _ fun _ =>
        .pure true
    have hstore : Tracks (liftM (accessName name .store)) (accessName name .store) frames frames :=
      .lift _
    have hall := Tracks.scope o.filename name .classBody (definitionLine line decorators) hbody
      fun code => .step (emit .loadBuildClass) fun _ => .step (makeClosure code {} name) fun _ =>
        .step (loadConst (.str name)) fun _ => .step (callWith 2 bases.length
          (Expr.lowerAll o.filename bases) (keywords.map Keyword.name)
          (Keyword.lowerValues o.filename keywords)) fun _ =>
        .step (repeatEmit .callFunction 1 decorators.length) fun _ => hstore
    simp only [bind_assoc, pure_bind] at hall
    exact hall
  | ret line value =>
    have hkeep := Frame.tracksUnwind o true false frames
    have hdrop := Frame.tracksUnwind o false false frames
    refine .step _ fun isFunction => ?_
    dsimp only
    by_cases hfunction : (!isFunction) = true
    · rw [if_pos hfunction, if_pos hfunction]
      exact .refuse _
    · rw [if_neg hfunction, if_neg hfunction]
      cases value with
      | none => exact .bind hdrop fun _ => .step _ fun _ => .lift _
      | some e =>
        dsimp only
        by_cases he : e.isConstant = true
        · rw [if_pos he, if_pos he]
          exact .bind hdrop fun _ => .step _ fun _ => .lift _
        · rw [if_neg he, if_neg he]
          exact .step _ fun _ => .bind hkeep fun _ => .lift _
  | delete line targets => exact .lift _
  | assign line targets value => exact .step _ fun _ => .lift _
  | augAssign line target op value => exact .lift _
  | raise line exc cause => exact .lift _
  | assert line test msg => exact .lift _
  | importNames line names => exact .lift _
  | importFrom line origin names level => exact .lift _
  | «global» | «nonlocal» | pass => exact .pure ()
  | expr line value =>
    dsimp only
    by_cases hvalue : value.isConstant = true
    · rw [if_pos hvalue, if_pos hvalue]
      exact .lift _
    · rw [if_neg hvalue, if_neg hvalue]
      exact .step _ fun _ => .lift _
  | breakLoop line =>
    refine .bind_of (Frame.tracksUnwind o false true frames) Frame.loop_of_unwind fun r hr => ?_
    cases r with
    | none => exact .throw _
    | some f =>
      dsimp only
      rw [Options.driveLeave.eq_def]
      cases f with
      | whileLoop => exact .lift _
      | forLoop =>
        simp only [bind_assoc]
        exact .step _ fun _ => .lift _
      | _ => cases hr _ rfl
  | continueLoop line =>
    refine .bind_of (Frame.tracksUnwind o false true frames) Frame.loop_of_unwind fun r hr => ?_
    cases r with
    | none => exact .throw _
    | some f =>
      cases f with
      | whileLoop | forLoop => exact .lift _
      | _ => cases hr _ rfl
  | forLoop line target iter body orelse =>
    refine .step _ fun start => .step _ fun cleanup => .step _ fun done => .push ?_
    refine .step _ fun _ => .step _ fun _ => .step _ fun _ => .step _ fun _ => .step _ fun _ => ?_
    refine .bind (Stmt.tracksAll o _ body) fun _ => .step _ fun _ => .step _ fun _ => .pop rfl ?_
    exact .bind (Stmt.tracksAll o frames orelse) fun _ => .lift _
  | whileLoop line test body orelse =>
    refine .step _ fun start => .step _ fun done => .step _ fun anchor => .step _ fun _ => .push ?_
    refine .step _ fun _ => .bind (Stmt.tracksAll o _ body) fun _ => ?_
    refine .step _ fun _ => .step _ fun _ => .pop rfl ?_
    exact .bind (Stmt.tracksAll o frames orelse) fun _ => .lift _
  | ifElse line test body orelse =>
    cases orelse with
    | nil =>
      refine .step _ fun done => .step _ fun _ => ?_
      exact .bind (Stmt.tracksAll o frames body) fun _ => .lift _
    | cons s ss =>
      refine .step _ fun done => .step _ fun next => .step _ fun _ => ?_
      refine .bind (Stmt.tracksAll o frames body) fun _ => .step _ fun _ => .step _ fun _ => ?_
      exact .bind (Stmt.tracksAll o frames (s :: ss)) fun _ => .lift _
  | tryExcept line body handlers orelse finalbody =>
    cases finalbody with
    | nil => exact Stmt.tracksTry o frames body handlers orelse
    | cons s ss =>
      refine .step _ fun inside => .step _ fun final => .step _ fun exit => .step _ fun _ =>
        .step _ fun _ => .push ?_
      have hrest : Tracks (do
          emit .popBlock
          Drive.popFrame .finallyTry
          o.driveAll (s :: ss)
          emitJump .jumpForward exit
          fallInto final
          Drive.pushFrame .finallyEnd
          o.driveAll (s :: ss)
          Drive.popFrame .finallyEnd
          emit .reraise
          fallInto exit) (do
          emit .popBlock
          Stmt.lowerAll o frames (s :: ss)
          emitJump .jumpForward exit
          fallInto final
          Stmt.lowerAll o (.finallyEnd :: frames) (s :: ss)
          emit .reraise
          fallInto exit) (.finallyTry (s :: ss) :: frames) frames :=
        .step _ fun _ => .pop rfl (.bind (Stmt.tracksAll o frames (s :: ss)) fun _ => .step _ fun _ =>
          .step _ fun _ => .push (.bind (Stmt.tracksAll o (.finallyEnd :: frames) (s :: ss)) fun _ =>
            .pop rfl (.step _ fun _ => .lift _)))
      cases handlers with
      | nil => exact .bind (Stmt.tracksAll o (.finallyTry (s :: ss) :: frames) body) fun _ => hrest
      | cons h hs =>
        exact .bind (Stmt.tracksTry o (.finallyTry (s :: ss) :: frames) body (h :: hs) orelse)
          fun _ => hrest
termination_by s.weight + Frame.weightOfAll frames
decreasing_by
  all_goals
    subst_vars
    simp only [Stmt.weight, Frame.weight, Frame.weightOfAll]
    first
    | omega
    | have := weightOfAll_withoutDocstring_le o body
      omega

theorem Stmt.tracksAll (o : Options) (frames : List Frame) (ss : List Stmt) :
    Tracks (o.driveAll ss) (Stmt.lowerAll o frames ss) frames frames := by
  cases ss with
  | nil =>
    rw [Options.driveAll, Stmt.lowerAll]
    exact .pure ()
  | cons s ss =>
    rw [Options.driveAll, Stmt.lowerAll]
    exact .bind (Stmt.tracks o frames s) fun _ => Stmt.tracksAll o frames ss
termination_by Stmt.weightOfAll ss + Frame.weightOfAll frames
decreasing_by
  all_goals
    subst_vars
    simp only [Stmt.weightOfAll]
    omega

theorem Stmt.tracksTry (o : Options) (frames : List Frame) (body : List Stmt)
    (handlers : List Handler) (orelse : List Stmt) :
    Tracks (o.driveTry body handlers orelse) (Stmt.lowerTry o frames body handlers orelse)
      frames frames := by
  rw [Options.driveTry, Stmt.lowerTry]
  refine .step _ fun inside => .step _ fun except => .step _ fun otherwise => .step _ fun done => ?_
  refine .step _ fun _ => .step _ fun _ => .push ?_
  refine .bind (Stmt.tracksAll o (.tryExcept :: frames) body) fun _ => ?_
  refine .step _ fun _ => .pop rfl (.step _ fun _ => .step _ fun _ => .push ?_)
  refine .bind (Handler.tracksAll o (.exceptionHandler :: frames) done handlers) fun _ => .pop rfl ?_
  refine .step _ fun _ => .step _ fun _ => ?_
  exact .bind (Stmt.tracksAll o frames orelse) fun _ => .lift _
termination_by Stmt.weightOfAll body + Handler.weightOfAll handlers + Stmt.weightOfAll orelse +
  Frame.weightOfAll frames + 2
decreasing_by
  all_goals first
  | omega
  | simp only [Frame.weight, Frame.weightOfAll]
    omega

theorem Handler.tracksAll (o : Options) (frames : List Frame) (done : BlockId)
    (hs : List Handler) :
    Tracks (o.driveHandlers done hs) (Handler.lowerAll o frames done hs) frames frames := by
  cases hs with
  | nil =>
    rw [Options.driveHandlers, Handler.lowerAll]
    exact .pure ()
  | cons h rest =>
    obtain ⟨type, name, body, line⟩ := h
    rw [Options.driveHandlers, Handler.lowerAll]
    dsimp only
    by_cases hlast : (type.isNone && !rest.isEmpty) = true
    · rw [if_pos hlast, if_pos hlast]
      exact .refuse _
    · rw [if_neg hlast, if_neg hlast]
      refine .step _ fun _ => .step _ fun next => ?_
      have htail := Handler.tracksAll o frames done rest
      have hbody := Stmt.tracksAll o (.handlerCleanup name :: frames) body
      -- a type adds a test; what follows is the same with it and without
      rcases type with _ | t
      on_goal 2 => refine .step _ fun _ => .step _ fun _ => .step _ fun _ => ?_
      all_goals
        refine .step _ fun _ => ?_
        cases name with
        | some x =>
          refine .step _ fun _ => .step _ fun _ => .step _ fun _ => .step _ fun _ => .step _ fun _ =>
            .step _ fun _ => .push (.bind hbody fun _ => .pop rfl ?_)
          exact .step _ fun _ => .step _ fun _ => .step _ fun _ => .step _ fun _ => .step _ fun _ =>
            .step _ fun _ => .step _ fun _ => .step _ fun _ => htail
        | none =>
          refine .step _ fun _ => .step _ fun _ => .step _ fun _ => .step _ fun _ =>
            .push (.bind hbody fun _ => .pop rfl ?_)
          exact .step _ fun _ => .step _ fun _ => .step _ fun _ => htail
termination_by Handler.weightOfAll hs + Frame.weightOfAll frames
decreasing_by
  all_goals
    simp only [Handler.weightOfAll, Frame.weight, Frame.weightOfAll]
    omega

theorem Frame.tracksUnwind (o : Options) (keep toLoop : Bool) (frames : List Frame) :
    Tracks (o.driveUnwind keep toLoop) (Frame.unwind o keep toLoop frames) frames frames := by
  cases frames with
  | nil =>
    rw [Options.driveUnwind, Frame.unwind]
    exact fun _ _ => rfl
  | cons f outer =>
    rw [Options.driveUnwind, Frame.unwind]
    refine .take ?_
    dsimp only
    by_cases hstop : (toLoop && f.isLoop) = true
    · rw [if_pos hstop, if_pos hstop]
      exact .push (.pure _)
    · rw [if_neg hstop, if_neg hstop]
      have houter := (Frame.tracksUnwind o keep toLoop outer).restore f
      rw [Options.driveLeave.eq_def]
      simp only [bind_assoc]
      refine .step _ fun _ => ?_
      cases f with
      | finallyTry finalbody =>
        have hbody := Stmt.tracksAll o (if keep then .popValue :: outer else outer) finalbody
        cases keep with
        | false =>
          simp only [Bool.false_eq_true, if_false, bind_assoc, pure_bind] at hbody ⊢
          exact .step _ fun saved => .bind hbody fun _ => .step _ fun _ => houter
        | true =>
          simp only [if_true, bind_assoc] at hbody ⊢
          exact .push (.step _ fun saved => .bind hbody fun _ => .step _ fun _ => .pop rfl houter)
      | _ =>
        simp only [pure_bind]
        exact houter
termination_by Frame.weightOfAll frames
decreasing_by
  · have := Frame.weight_pos f
    simp only [Frame.weightOfAll]
    omega
  · cases keep <;> simp [Frame.weightOfAll, Frame.weight]
    omega

end

def Stmt.driveModule (o : Options) (body : List Stmt) : Drive Unit := do
  if let some s := body.head? then setLine s.line
  bindDocstring o body
  o.driveAll (withoutDocstring o body)

/-- Runs the machine in the outermost scope, which a module's table must describe. -/
def Drive.compileScope (t : ScopeTable) (o : Options) (addNone : Bool) (m : Drive Unit) :
    Option (Except CompileError CodeObject) :=
  if t.kind = .module then
    (m ⟨⟨.ofModule t, 1⟩, [], []⟩).map fun
      | (.ok _, st) => st.close addNone o.filename
      | (.error e, _) => .error e
  else some (.error (.fault (.notAModule t.name t.kind)))

def Program.drive (p : Program) (t : ScopeTable) (o : Options) :
    Option (Except CompileError CodeObject) :=
  match p with
  | .module body => Drive.compileScope t o true (Stmt.driveModule o body)
  | .expression e => Drive.compileScope t o false (e.lower o.filename .push)
  | .interactive _ => some (.error (.unsupportedMode p.mode))

theorem Stmt.tracksModule (o : Options) (body : List Stmt) :
    Tracks (Stmt.driveModule o body) (Stmt.lowerModule o body) [] [] := by
  have hbody := Stmt.tracksAll o [] (withoutDocstring o body)
  unfold Stmt.driveModule Stmt.lowerModule
  cases body.head? with
  | none => exact .step _ fun _ => hbody
  | some s => exact .step _ fun _ => .step _ fun _ => hbody

theorem Drive.Tracks.compileScope {m : Drive Unit} {b : Build Unit} (h : Tracks m b [] [])
    (t : ScopeTable) (o : Options) (addNone : Bool) :
    Drive.compileScope t o addNone m = some (Wordcode.compileScope t o addNone b) := by
  have hrun := h ⟨.ofModule t, 1⟩ []
  unfold Drive.compileScope Wordcode.compileScope
  split
  · change Agrees (b.run ⟨Draft.ofTable "<module>" "<module>" t 0 1 false, 1⟩) [] [] _ at hrun
    cases hb : b.run ⟨Draft.ofTable "<module>" "<module>" t 0 1 false, 1⟩ with
    | ok a s =>
      rw [hb] at hrun
      rw [show m _ = _ from hrun, Option.map_some]
      congr 1
      simp only [Driver.close, Driver.finish, List.isEmpty_nil, Bool.not_true, Bool.and_false,
        Bool.false_eq_true, if_false, if_true]
    | error e s =>
      rw [hb] at hrun
      obtain ⟨fs, ps, hrun⟩ := hrun
      rw [hrun]
      rfl
  · rfl

/-- The machine with explicit stacks gives what compiling a program gives. -/
theorem Program.drive_eq (p : Program) (t : ScopeTable) (o : Options) :
    p.drive t o = some (compile p t o) := by
  cases p with
  | module body => exact (Stmt.tracksModule o body).compileScope t o true
  | expression e => exact (Tracks.lift _).compileScope t o false
  | interactive body => rfl

end Wordcode
