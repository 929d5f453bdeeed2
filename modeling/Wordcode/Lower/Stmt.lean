import Wordcode.Lower.Expr
import Wordcode.Options
import Wordcode.Tree.Scopes
import Wordcode.Tree.Weight

/-!
# Statements

A statement is compiled within the frames around it, innermost first. `break`, `continue` and
`return` unwind them: for each frame they leave they generate what undoes it, which for a `try`
statement with a final body is a copy of that body, compiled within the frames further out.
-/

set_option autoImplicit false

namespace Wordcode
namespace Build

/-- Builds a statement at its line. An internal error learns the line and the scope at hand. -/
def inStatement (line : UInt32) (b : Build Unit) : Build Unit := do
  setLine line
  tryCatch b fun e => do throw (e.withContext (← ask (·.qualname)) line)

def repeatEmit (op : Opcode) (arg : UInt32) : Nat → Build Unit
  | 0 => pure ()
  | n + 1 => do
    emitArg op arg
    repeatEmit op arg n

/-- Stores a value to every target; all but the last store a copy. -/
def storeAll (filename : String) : List Expr → Build Unit
  | [] => pure ()
  | [t] => t.lower filename .push
  | t :: ts => do
    emit .dupTop
    t.lower filename .push
    storeAll filename ts

def augmentedAssign (filename : String) (target : Expr) (op : Operator) (value : Expr) :
    Build Unit :=
  match target with
  | .attribute _ object attr _ => do
    object.lower filename .push
    emit .dupTop
    emitName .loadAttr attr
    value.lower filename .push
    emit op.inplaceOpcode
    emit .rotTwo
    emitName .storeAttr attr
  | .subscript _ object index _ => do
    object.lower filename .push
    index.lower filename .push
    emit .dupTopTwo
    emit .binarySubscr
    value.lower filename .push
    emit op.inplaceOpcode
    emit .rotThree
    emit .storeSubscr
  | .name _ id _ => do
    accessName id .load
    value.lower filename .push
    emit op.inplaceOpcode
    accessName id .store
  | _ => fail .badAugmentedTarget

/-- A cause without an exception is ignored. -/
def raiseStatement (filename : String) : Option Expr → Option Expr → Build Unit
  | none, _ => emitArg .raiseVarargs 0
  | some exc, none => do
    exc.lower filename .push
    emitArg .raiseVarargs 1
  | some exc, some cause => do
    exc.lower filename .push
    cause.lower filename .push
    emitArg .raiseVarargs 2

def assertStatement (o : Options) (test : Expr) (msg : Option Expr) : Build Unit :=
  if o.stripsAsserts then skipChildren (test.scopeCount + (msg.map Expr.scopeCount).getD 0)
  else do
    let done ← newBlock
    test.lower o.filename (.jump done true)
    emit .loadAssertionError
    if let some m := msg then
      m.lower o.filename .push
      emitArg .callFunction 1
    emitArg .raiseVarargs 1
    fallInto done

/-- The parts of a dotted name. -/
def dottedParts (name : String) : List String := name.splitOn "."

/-- Walks from a package down to a submodule, keeping the last one reached. -/
def importParts : List String → Build Unit
  | [] => pure ()
  | [part] => emitName .importFrom part
  | part :: rest => do
    emitName .importFrom part
    emit .rotTwo
    emit .popTop
    importParts rest

def bindImport (a : Alias) : Build Unit :=
  match a.asname, (dottedParts a.name).tail with
  | none, _ => accessName ((dottedParts a.name).headD "") .store
  | some asname, [] => accessName asname .store
  | some asname, parts => do
    importParts parts
    accessName asname .store
    emit .popTop

def importAll : List Alias → Build Unit
  | [] => pure ()
  | a :: rest => do
    loadConst (.int 0)
    loadConst .none
    emitName .importName a.name
    bindImport a
    importAll rest

def bindFrom : List Alias → Build Unit
  | [] => pure ()
  | a :: rest => do
    emitName .importFrom a.name
    accessName (a.asname.getD a.name) .store
    bindFrom rest

def importFrom (origin : Option String) (names : List Alias) (level : UInt32) : Build Unit := do
  loadConst (.int (Int64.ofNat level.toNat))
  loadConst (nameTuple (names.map Alias.name))
  emitName .importName (origin.getD "")
  if names.head?.map Alias.name = some "*" then emit .importStar
  else
    bindFrom names
    emit .popTop

/-- Pushes the annotations of parameters; gives the names of those that have one. -/
def pushAnnotations (filename : String) (out : Array String) : List Param → Build (Array String)
  | [] => return out
  | ⟨_, none⟩ :: ps => pushAnnotations filename out ps
  | ⟨name, some e⟩ :: ps => do
    e.lower filename .push
    pushAnnotations filename (out.push name) ps

/-- Pushes the dict of annotations unless there are none. -/
def annotations (filename : String) (args : Arguments) (returns : Option Expr) :
    Build Bool := do
  let params :=
    args.params ++ args.posonly ++ args.vararg.toList ++ args.kwonly ++ args.kwarg.toList
  let keys ← pushAnnotations filename #[] (params ++ returns.toList.map fun e =>
    ⟨"return", some e⟩)
  if keys.isEmpty then return false
  loadConst (nameTuple keys.toList)
  emitArg .buildConstKeyMap (UInt32.ofNat keys.size)
  return true

/-- The line of a definition is that of its first decorator. -/
def definitionLine (line : UInt32) (decorators : List Expr) : UInt32 :=
  (decorators.head?.map Expr.line).getD line

/-- Leaves a frame that holds no final body. With `keep` the value on top is to stay. -/
def leave (f : Frame) (keep : Bool) : Build Unit :=
  match f with
  | .whileLoop .. | .exceptionHandler => pure ()
  | .forLoop .. | .popValue => do
    if keep then emit .rotTwo
    emit .popTop
  | .tryExcept | .finallyTry _ => emit .popBlock
  | .finallyEnd => do
    if keep then emit .rotFour
    repeatEmit .popTop 0 3
    if keep then emit .rotFour
    emit .popExcept
  | .handlerCleanup name => do
    if name.isSome then emit .popBlock
    if keep then emit .rotFour
    emit .popExcept
    if let some n := name then clearName n

/-- The docstring of a body, if it is to be kept. -/
def keptDocstring? (o : Options) (body : List Stmt) : Option String :=
  if o.stripsDocstrings then none else docstring? body

/-- A body without the docstring that is kept. -/
def withoutDocstring (o : Options) (body : List Stmt) : List Stmt :=
  if (keptDocstring? o body).isSome then body.tail else body

/-- The start of a module or class body: its docstring is bound to a name. -/
def bindDocstring (o : Options) (body : List Stmt) : Build Unit := do
  if let some doc := keptDocstring? o body then
    if let some s := body.head? then setLine s.line
    loadConst (.str doc)
    accessName "__doc__" .store

/-- What a class body does before its first statement. -/
def classProlog : Build Unit := do
  accessName "__name__" .load
  accessName "__module__" .store
  loadConst (.str (← ask (·.qualname)))
  accessName "__qualname__" .store

/-- What a class body does at its end: it hands out its own cell if methods need it. -/
def classEpilog : Build Unit := do
  restamp
  if ← ask (·.needsClassCell) then
    emitArg .loadClosure (← derefSlot Draft.classCell)
    emit .dupTop
    accessName "__classcell__" .store
  else loadConst .none
  emit .returnValue

theorem weightOfAll_withoutDocstring_le (o : Options) (body : List Stmt) :
    Stmt.weightOfAll (withoutDocstring o body) ≤ Stmt.weightOfAll body := by
  unfold withoutDocstring
  split
  · exact Stmt.weightOfAll_tail_le body
  · exact Nat.le_refl _

end Build

open Build

mutual

def Stmt.lower (o : Options) (frames : List Frame) (s : Stmt) : Build Unit :=
  inStatement s.line <|
    match s with
    | .functionDef line name args body decorators returns => do
      Expr.lowerAll o.filename decorators
      let parts ← Arguments.lowerDefaults o.filename args
      let annotated ← annotations o.filename args returns
      let code ← inScope o.filename name .function (definitionLine line decorators) do
        let _ ← internConstant ((keptDocstring? o body).elim .none .str)
        Stmt.lowerAll o [] (withoutDocstring o body)
        return true
      makeClosure code { parts with annotations := annotated } code.qualname
      repeatEmit .callFunction 1 decorators.length
      accessName name .store
    | .classDef line name bases keywords body decorators => do
      Expr.lowerAll o.filename decorators
      let code ← inScope o.filename name .classBody (definitionLine line decorators) do
        classProlog
        bindDocstring o body
        Stmt.lowerAll o [] (withoutDocstring o body)
        classEpilog
        return true
      emit .loadBuildClass
      makeClosure code {} name
      loadConst (.str name)
      callWith 2 bases.length (Expr.lowerAll o.filename bases) (keywords.map Keyword.name)
        (Keyword.lowerValues o.filename keywords)
      repeatEmit .callFunction 1 decorators.length
      accessName name .store
    | .ret line value => do
      if !(← ask (·.kind.isFunctionLike)) then throw (.returnOutsideFunction line)
      match value with
      | none =>
        let _ ← Frame.unwind o false false frames
        loadConst .none
      | some e =>
        if e.isConstant then
          let _ ← Frame.unwind o false false frames
          e.lower o.filename .push
        else
          e.lower o.filename .push
          let _ ← Frame.unwind o true false frames
      emit .returnValue
    | .delete _ targets => Expr.lowerAll o.filename targets
    | .assign _ targets value => do
      value.lower o.filename .push
      storeAll o.filename targets
    | .augAssign _ target op value => augmentedAssign o.filename target op value
    | .raise _ exc cause => raiseStatement o.filename exc cause
    | .assert _ test msg => assertStatement o test msg
    | .importNames _ names => importAll names
    | .importFrom _ origin names level => importFrom origin names level
    | .global .. | .nonlocal .. | .pass _ => pure ()
    | .expr _ value =>
      if value.isConstant then emit .nop
      else do
        value.lower o.filename .push
        emit .popTop
    | .breakLoop line => do
      match ← Frame.unwind o false true frames with
      | some (.whileLoop _ exit) => emitJump .jumpAbsolute exit
      | some (.forLoop _ exit) =>
        emit .popTop
        emitJump .jumpAbsolute exit
      | _ => throw (.breakOutsideLoop line)
    | .continueLoop line => do
      match ← Frame.unwind o false true frames with
      | some (.whileLoop start _) | some (.forLoop start _) => emitJump .jumpAbsolute start
      | _ => throw (.continueOutsideLoop line)
    | .forLoop _ target iter body orelse => do
      let start ← newBlock
      let cleanup ← newBlock
      let done ← newBlock
      iter.lower o.filename .push
      emit .getIter
      fallInto start
      emitJump .forIter cleanup
      target.lower o.filename .push
      Stmt.lowerAll o (.forLoop start done :: frames) body
      emitJump .jumpAbsolute start
      fallInto cleanup
      Stmt.lowerAll o frames orelse
      fallInto done
    | .whileLoop _ test body orelse => do
      let start ← newBlock
      let done ← newBlock
      let anchor ← newBlock
      fallInto start
      test.lower o.filename (.jump anchor false)
      Stmt.lowerAll o (.whileLoop start done :: frames) body
      emitJump .jumpAbsolute start
      fallInto anchor
      Stmt.lowerAll o frames orelse
      fallInto done
    | .ifElse _ test body [] => do
      let done ← newBlock
      test.lower o.filename (.jump done false)
      Stmt.lowerAll o frames body
      fallInto done
    | .ifElse _ test body orelse => do
      let done ← newBlock
      let next ← newBlock
      test.lower o.filename (.jump next false)
      Stmt.lowerAll o frames body
      emitJump .jumpForward done
      fallInto next
      Stmt.lowerAll o frames orelse
      fallInto done
    | .tryExcept _ body handlers orelse [] => Stmt.lowerTry o frames body handlers orelse
    | .tryExcept _ body handlers orelse finalbody => do
      let inside ← newBlock
      let final ← newBlock
      let exit ← newBlock
      emitJump .setupFinally final
      fallInto inside
      if handlers.isEmpty then Stmt.lowerAll o (.finallyTry finalbody :: frames) body
      else Stmt.lowerTry o (.finallyTry finalbody :: frames) body handlers orelse
      emit .popBlock
      Stmt.lowerAll o frames finalbody
      emitJump .jumpForward exit
      fallInto final
      Stmt.lowerAll o (.finallyEnd :: frames) finalbody
      emit .reraise
      fallInto exit
termination_by s.weight + Frame.weightOfAll frames
decreasing_by
  all_goals
    simp only [Stmt.weight, Frame.weight, Frame.weightOfAll]
    first
    | omega
    | have := weightOfAll_withoutDocstring_le o body
      omega

def Stmt.lowerAll (o : Options) (frames : List Frame) : List Stmt → Build Unit
  | [] => pure ()
  | s :: ss => do
    Stmt.lower o frames s
    Stmt.lowerAll o frames ss
termination_by ss => Stmt.weightOfAll ss + Frame.weightOfAll frames
decreasing_by
  all_goals
    simp only [Stmt.weightOfAll]
    omega

/-- A `try` statement with handlers, its final body apart. -/
def Stmt.lowerTry (o : Options) (frames : List Frame) (body : List Stmt)
    (handlers : List Handler) (orelse : List Stmt) : Build Unit := do
  let inside ← newBlock
  let except ← newBlock
  let otherwise ← newBlock
  let done ← newBlock
  emitJump .setupFinally except
  fallInto inside
  Stmt.lowerAll o (.tryExcept :: frames) body
  emit .popBlock
  emitJump .jumpForward otherwise
  fallInto except
  Handler.lowerAll o (.exceptionHandler :: frames) done handlers
  emit .reraise
  fallInto otherwise
  Stmt.lowerAll o frames orelse
  fallInto done
termination_by Stmt.weightOfAll body + Handler.weightOfAll handlers + Stmt.weightOfAll orelse +
  Frame.weightOfAll frames + 2
decreasing_by
  · simp only [Frame.weight, Frame.weightOfAll]
    omega
  · simp only [Frame.weight, Frame.weightOfAll]
    omega
  · omega

/-- Handlers one after the other; the code of a handler that ran goes on at `done`. -/
def Handler.lowerAll (o : Options) (frames : List Frame) (done : BlockId) :
    List Handler → Build Unit
  | [] => pure ()
  | ⟨type, name, body, line⟩ :: rest => do
    if type.isNone && !rest.isEmpty then throw (.defaultExceptNotLast line)
    setLine line
    let next ← newBlock
    if let some t := type then
      emit .dupTop
      t.lower o.filename .push
      emitJump .jumpIfNotExcMatch next
    emit .popTop
    match name with
    | some n =>
      let cleanup ← newBlock
      let inside ← newBlock
      accessName n .store
      emit .popTop
      emitJump .setupFinally cleanup
      fallInto inside
      Stmt.lowerAll o (.handlerCleanup (some n) :: frames) body
      emit .popBlock
      emit .popExcept
      clearName n
      emitJump .jumpForward done
      fallInto cleanup
      clearName n
      emit .reraise
    | none =>
      let inside ← newBlock
      emit .popTop
      emit .popTop
      fallInto inside
      Stmt.lowerAll o (.handlerCleanup none :: frames) body
      emit .popExcept
      emitJump .jumpForward done
    fallInto next
    Handler.lowerAll o frames done rest
termination_by hs => Handler.weightOfAll hs + Frame.weightOfAll frames
decreasing_by
  all_goals
    simp only [Handler.weightOfAll, Frame.weight, Frame.weightOfAll]
    omega

/-- Leaves the frames one after the other, up to the innermost loop if `toLoop`; gives that loop.
With `keep` the value on top of the stack is to stay there. -/
def Frame.unwind (o : Options) (keep toLoop : Bool) : List Frame → Build (Option Frame)
  | [] => return none
  | f :: outer => do
    if toLoop && f.isLoop then return some f
    leave f keep
    if let .finallyTry finalbody := f then
      let saved ← ask (·.line)
      Stmt.lowerAll o (if keep then .popValue :: outer else outer) finalbody
      setLine saved
    Frame.unwind o keep toLoop outer
termination_by fs => Frame.weightOfAll fs
decreasing_by
  · have := Frame.weight_pos f
    simp only [Frame.weightOfAll]
    omega
  · cases keep <;> simp [Frame.weightOfAll, Frame.weight]
    omega

end

end Wordcode
