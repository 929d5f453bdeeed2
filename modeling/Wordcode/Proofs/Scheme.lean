import Wordcode.Compile
import Wordcode.Proofs.Script

/-!
# Code schemes

The code of each construct, written down as a scheme: how many labels it makes, and the steps that
follow in terms of these labels and of the constructs inside it. `Emits` says which scripts the
steps stand for.
-/

set_option autoImplicit false

namespace Wordcode

/-- What happens to a name in a scope: the opcode for it. -/
def Draft.nameOpcode (d : Draft) (name : String) (ctx : Ctx) : Opcode :=
  match d.access name with
  | .deref => derefOpcode d.kind ctx
  | .fast => fastOpcode ctx
  | .global => globalOpcode ctx
  | .name => Wordcode.nameOpcode ctx

/-- The constructs that have a scheme of their own. -/
inductive Task where
  | expr (e : Expr) (dest : Dest)
  | all (es : List Expr)
  | operands (jump : Opcode) (done : BlockId) (es : List Expr)
  | tests (decided : BlockId) (decisive : Bool) (target : BlockId) (sense : Bool) (es : List Expr)
  | links (jump : Opcode) (cleanup : BlockId) (last : CmpOp) (ops : List CmpOp) (es : List Expr)
  | chain (last : CmpOp) (ops : List CmpOp) (es : List Expr)
  | chainEnd (cleanup : BlockId) (dest : Dest)
  | filters (cleanup : BlockId) (es : List Expr)
  /-- A comprehension loop; the outermost one gets its iterator as a parameter. -/
  | loop (input : Option Expr) (target : Expr) (filters : List Expr) (rest : List Generator)
      (element : Expr) (depth : Nat)
  | inner (element : Expr) (depth : Nat) (gs : List Generator)
  | map (entries : List (Expr × Expr))
  | extendMap (entries : List (Expr × Expr))
  /-- A label of its own for what comes next. -/
  | block
  | storeAll (targets : List Expr)
  | stmt (frames : List Frame) (s : Stmt)
  | stmts (frames : List Frame) (ss : List Stmt)
  | tryExcept (frames : List Frame) (body : List Stmt) (handlers : List Handler)
      (orelse : List Stmt)
  | handlers (frames : List Frame) (done : BlockId) (hs : List Handler)
  | handler (frames : List Frame) (done : BlockId) (name : Option String) (body : List Stmt)
  | unwind (keep toLoop : Bool) (frames : List Frame)

/-- What a nested scope is made from. -/
inductive Body where
  | lambda (e : Expr)
  | comprehension (target : Expr) (filters : List Expr) (rest : List Generator) (element : Expr)
  | function (body : List Stmt)
  | classBody (body : List Stmt)

inductive Step where
  | emit (op : Opcode) (arg : UInt32)
  | named (op : Opcode) (name : String)
  | load (c : Constant)
  | jump (op : Opcode) (target : BlockId)
  | label (b : BlockId)
  | intern (c : Constant)
  /-- What is refused: no code is ever written for it. -/
  | refuse
  /-- A nested scope is finished and made into a function; its qualified name may be replaced. -/
  | closure (body : Body) (name : String) (line : UInt32) (parts : FunctionParts)
      (qualname : Option String)
  | run (t : Task)

namespace Step

abbrev value (e : Expr) : Step := .run (.expr e .push)

abbrev branch (e : Expr) (target : BlockId) (sense : Bool) : Step :=
  .run (.expr e (.jump target sense))

abbrev name (d : Draft) (id : String) (ctx : Ctx) : Step := .named (d.nameOpcode id ctx) id

abbrev simple (op : Opcode) : Step := .emit op 0

end Step

open Step (value branch simple)
open Build

def Dest.testSteps : Dest → List Step
  | .push => []
  | .jump target sense => [.jump (popJumpOpcode sense) target, .run .block]

def optionSteps : Option Expr → List Step
  | none => [.load .none]
  | some e => [value e]

def compareStep (op : CmpOp) : Step := .emit op.opcode.1 op.opcode.2

def sequenceSteps (build : Opcode) (ctx : Ctx) (es : List Expr) : List Step :=
  match ctx with
  | .load => [.run (.all es), .emit build (UInt32.ofNat es.length)]
  | .store => [.emit .unpackSequence (UInt32.ofNat es.length), .run (.all es)]
  | .del => [.run (.all es)]

def callSteps (extra : Nat) (args : List Expr) (keywords : List Keyword) : List Step :=
  .run (.all args) ::
    if keywords.isEmpty then
      [.emit .callFunction (UInt32.ofNat extra + UInt32.ofNat args.length)]
    else
      [.run (.all (keywords.map Keyword.value)), .load (nameTuple (keywords.map Keyword.name)),
        .emit .callFunctionKw
          (UInt32.ofNat extra + UInt32.ofNat args.length + UInt32.ofNat keywords.length)]

namespace Arguments

/-- The defaults of keyword-only parameters. -/
def kwDefaultValues (a : Arguments) : List Expr := (a.kwonly.zip a.kwDefaults).filterMap Prod.snd

def parts (a : Arguments) : FunctionParts :=
  { defaults := !a.defaults.isEmpty, kwDefaults := !a.kwDefaultNames.isEmpty }

def defaultSteps (a : Arguments) : List Step :=
  (if a.defaults.isEmpty then []
    else [.run (.all a.defaults), .emit .buildTuple (UInt32.ofNat a.defaults.length)]) ++
  .run (.all a.kwDefaultValues) ::
    if a.kwDefaultNames.isEmpty then []
    else [.load (nameTuple a.kwDefaultNames),
      .emit .buildConstKeyMap (UInt32.ofNat a.kwDefaultNames.length)]

/-- The annotated parameters and the result, in the order of evaluation. -/
def annotated (a : Arguments) (returns : Option Expr) : List (String × Expr) :=
  (a.params ++ a.posonly ++ a.vararg.toList ++ a.kwonly ++ a.kwarg.toList ++
    returns.toList.map fun e => Param.mk "return" (some e)).filterMap fun (p : Param) =>
      p.annotation.map (p.name, ·)

def annotationSteps (a : Arguments) (returns : Option Expr) : List Step :=
  .run (.all ((a.annotated returns).map Prod.snd)) ::
    if (a.annotated returns).isEmpty then []
    else [.load (nameTuple ((a.annotated returns).map Prod.fst)),
      .emit .buildConstKeyMap (UInt32.ofNat (a.annotated returns).length)]

end Arguments

/-- A map of so many entries; keys that are all constant become one constant. -/
def mapSteps (entries : List (Expr × Expr)) : List Step :=
  let plain := [.run (.all (entries.flatMap fun p => [p.1, p.2])),
    .emit .buildMap (UInt32.ofNat entries.length)]
  match entries.mapM fun p => p.1.constant? with
  | some keys =>
    if 1 < entries.length then
      [.run (.all (entries.map Prod.snd)), .load (.tuple keys),
        .emit .buildConstKeyMap (UInt32.ofNat entries.length)]
    else plain
  | none => plain

/-- The value of an expression that makes no labels of its own. -/
def Expr.valueSteps (d : Draft) : Expr → List Step
  | .boolOp .. | .ifExp .. | .listComp _ _ [] => [.refuse]
  | .binOp _ left op right => [value left, value right, simple op.opcode]
  | .unaryOp _ op operand => [value operand, simple op.opcode]
  | .lambda line args body =>
    args.defaultSteps ++ [.closure (.lambda body) "<lambda>" line args.parts none]
  | .dict _ keys values =>
    [.run (.map ((keys.zip values).take maxMapEntries)),
      .run (.extendMap ((keys.zip values).drop maxMapEntries))]
  | .set _ elts => [.run (.all elts), .emit .buildSet (UInt32.ofNat elts.length)]
  | .listComp line elt (⟨target, iter, filters⟩ :: rest) =>
    [.closure (.comprehension target filters rest elt) "<listcomp>" line {} none, value iter,
      simple .getIter, .emit .callFunction 1]
  | .yield _ e => optionSteps e ++ [simple .yieldValue]
  | .compare _ left [op] [comparator] => [value left, value comparator, compareStep op]
  | .compare _ left ops comparators =>
    match ops.getLast? with
    | none => [.refuse]
    | some last => [value left, .run (.chain last ops.dropLast comparators)]
  | .call _ (.attribute _ object attr .load) args [] =>
    [value object, .named .loadMethod attr, .run (.all args),
      .emit .callMethod (UInt32.ofNat args.length)]
  | .call _ func args keywords => value func :: callSteps 0 args keywords
  | .constant _ c => [.load c]
  | .attribute _ object attr ctx => [value object, .named (attributeOpcode ctx) attr]
  | .subscript _ object index ctx => [value object, value index, simple (subscriptOpcode ctx)]
  | .slice _ lower upper none =>
    optionSteps lower ++ optionSteps upper ++ [.emit .buildSlice 2]
  | .slice _ lower upper (some step) =>
    optionSteps lower ++ optionSteps upper ++ [value step, .emit .buildSlice 3]
  | .name _ id ctx => [Step.name d id ctx]
  | .list _ elts ctx => sequenceSteps .buildList ctx elts
  | .tuple _ elts ctx => sequenceSteps .buildTuple ctx elts

/-- How many labels an expression makes at its start. -/
def Expr.labelCount : Expr → Dest → Nat
  | .boolOp .., .push => 1
  | .boolOp _ op _, .jump _ sense => if decide (op = .or) = sense then 0 else 1
  | .ifExp .., _ => 2
  | .compare _ _ (_ :: _ :: _) _, .jump .. => 1
  | _, _ => 0

/-- The steps of an expression whose labels are numbered from `n`. -/
def Expr.steps (d : Draft) (n : Nat) : Expr → Dest → List Step
  | .boolOp _ op values, .push => [.run (.operands op.jumpOpcode n values), .label n]
  | .boolOp _ op values, .jump target sense =>
    let decisive := decide (op = .or)
    if decisive = sense then [.run (.tests target decisive target sense values)]
    else .run (.tests n decisive target sense values) :: if n = target then [] else [.label n]
  | .unaryOp _ .not operand, .jump target sense => [branch operand target !sense]
  | .ifExp _ test body orelse, dest =>
    [branch test (n + 1) false, .run (.expr body dest), .jump .jumpForward n, .label (n + 1),
      .run (.expr orelse dest), .label n]
  | .compare _ left (op :: op' :: ops) comparators, .jump target sense =>
    [value left, .run (.links .popJumpIfFalse n ((op' :: ops).getLast (List.cons_ne_nil _ _))
      (op :: (op' :: ops).dropLast) comparators)] ++ (Dest.jump target sense).testSteps ++
      [.run (.chainEnd n (.jump target sense))]
  | e, dest => e.valueSteps d ++ dest.testSteps

/-- What joins a comparison that failed with the others. -/
def Dest.cleanupSteps : Dest → List Step
  | .push => [simple .rotTwo, simple .popTop]
  | .jump target sense =>
    simple .popTop :: if sense then [] else [.jump .jumpForward target]

def inputSteps : Option Expr → List Step
  | none => [.named .loadFast ".0"]
  | some e => [value e, simple .getIter]

def clearSteps (d : Draft) (x : String) : List Step :=
  [.load .none, Step.name d x .store, Step.name d x .del]

def augmentedSteps (d : Draft) (op : Operator) (e : Expr) : Expr → List Step
  | .attribute _ object attr _ =>
    [value object, simple .dupTop, .named .loadAttr attr, value e, simple op.inplaceOpcode,
      simple .rotTwo, .named .storeAttr attr]
  | .subscript _ object index _ =>
    [value object, value index, simple .dupTopTwo, simple .binarySubscr, value e,
      simple op.inplaceOpcode, simple .rotThree, simple .storeSubscr]
  | .name _ id _ =>
    [Step.name d id .load, value e, simple op.inplaceOpcode, Step.name d id .store]
  | _ => [.refuse]

def raiseSteps : Option Expr → Option Expr → List Step
  | none, _ => [.emit .raiseVarargs 0]
  | some exc, none => [value exc, .emit .raiseVarargs 1]
  | some exc, some cause => [value exc, value cause, .emit .raiseVarargs 2]

def importPartSteps : List String → List Step
  | [] => []
  | [part] => [.named .importFrom part]
  | part :: rest =>
    [.named .importFrom part, simple .rotTwo, simple .popTop] ++ importPartSteps rest

def bindImportSteps (d : Draft) (a : Alias) : List Step :=
  match a.asname, (dottedParts a.name).tail with
  | none, _ => [Step.name d ((dottedParts a.name).headD "") .store]
  | some asname, [] => [Step.name d asname .store]
  | some asname, parts => importPartSteps parts ++ [Step.name d asname .store, simple .popTop]

def importSteps (d : Draft) (names : List Alias) : List Step :=
  names.flatMap fun a =>
    [.load (.int 0), .load .none, .named .importName a.name] ++ bindImportSteps d a

def bindFromSteps (d : Draft) (names : List Alias) : List Step :=
  names.flatMap fun a => [.named .importFrom a.name, Step.name d (a.asname.getD a.name) .store]

def importFromSteps (d : Draft) (origin : Option String) (names : List Alias) (level : UInt32) :
    List Step :=
  [.load (.int (Int64.ofNat level.toNat)), .load (nameTuple (names.map Alias.name)),
    .named .importName (origin.getD "")] ++
  if names.head?.map Alias.name = some "*" then [simple .importStar]
  else bindFromSteps d names ++ [simple .popTop]

def leaveSteps (d : Draft) (keep : Bool) : Frame → List Step
  | .whileLoop .. | .exceptionHandler => []
  | .forLoop .. | .popValue => (if keep then [simple .rotTwo] else []) ++ [simple .popTop]
  | .tryExcept | .finallyTry _ => [simple .popBlock]
  | .finallyEnd =>
    (if keep then [simple .rotFour] else []) ++
      [simple .popTop, simple .popTop, simple .popTop] ++
      (if keep then [simple .rotFour] else []) ++ [simple .popExcept]
  | .handlerCleanup x =>
    (if x.isSome then [simple .popBlock] else []) ++ (if keep then [simple .rotFour] else []) ++
      simple .popExcept :: (x.map (clearSteps d)).getD []

def docSteps (o : Options) (d : Draft) (body : List Stmt) : List Step :=
  match keptDocstring? o body with
  | none => []
  | some doc => [.load (.str doc), Step.name d "__doc__" .store]

/-- How many labels a statement makes at its start. -/
def Stmt.labelCount (o : Options) : Stmt → Nat
  | .assert .. => if o.stripsAsserts then 0 else 1
  | .forLoop .. | .whileLoop .. => 3
  | .ifElse _ _ _ [] => 1
  | .ifElse .. => 2
  | .tryExcept _ _ _ _ (_ :: _) => 3
  | _ => 0

def Stmt.steps (o : Options) (d : Draft) (frames : List Frame) (n : Nat) : Stmt → List Step
  | .functionDef line name args body decorators returns =>
    .run (.all decorators) :: (args.defaultSteps ++ args.annotationSteps returns ++
      [.closure (.function body) name (definitionLine line decorators)
        { args.parts with annotations := !(args.annotated returns).isEmpty } none] ++
      List.replicate decorators.length (.emit .callFunction 1) ++ [Step.name d name .store])
  | .classDef line name bases keywords body decorators =>
    [.run (.all decorators), simple .loadBuildClass,
      .closure (.classBody body) name (definitionLine line decorators) {} (some name),
      .load (.str name)] ++ callSteps 2 bases keywords ++
      List.replicate decorators.length (.emit .callFunction 1) ++ [Step.name d name .store]
  | .ret _ none => [.run (.unwind false false frames), .load .none, simple .returnValue]
  | .ret _ (some e) =>
    if e.isConstant then [.run (.unwind false false frames), value e, simple .returnValue]
    else [value e, .run (.unwind true false frames), simple .returnValue]
  | .delete _ targets => [.run (.all targets)]
  | .assign _ targets e => [value e, .run (.storeAll targets)]
  | .augAssign _ target op e => augmentedSteps d op e target
  | .raise _ exc cause => raiseSteps exc cause
  | .assert _ test msg =>
    if o.stripsAsserts then []
    else [branch test n true, simple .loadAssertionError] ++
      (match msg with
        | none => []
        | some m => [value m, .emit .callFunction 1]) ++ [.emit .raiseVarargs 1, .label n]
  | .importNames _ names => importSteps d names
  | .importFrom _ origin names level => importFromSteps d origin names level
  | .global .. | .nonlocal .. | .pass _ => []
  | .expr _ e => if e.isConstant then [simple .nop] else [value e, simple .popTop]
  | .breakLoop _ =>
    .run (.unwind false true frames) ::
      match frames.find? Frame.isLoop with
      | some (.whileLoop _ exit) => [.jump .jumpAbsolute exit]
      | some (.forLoop _ exit) => [simple .popTop, .jump .jumpAbsolute exit]
      | _ => [.refuse]
  | .continueLoop _ =>
    .run (.unwind false true frames) ::
      match frames.find? Frame.isLoop with
      | some (.whileLoop start _) | some (.forLoop start _) => [.jump .jumpAbsolute start]
      | _ => [.refuse]
  | .forLoop _ target iter body orelse =>
    [value iter, simple .getIter, .label n, .jump .forIter (n + 1), value target,
      .run (.stmts (.forLoop n (n + 2) :: frames) body), .jump .jumpAbsolute n, .label (n + 1),
      .run (.stmts frames orelse), .label (n + 2)]
  | .whileLoop _ test body orelse =>
    [.label n, branch test (n + 2) false, .run (.stmts (.whileLoop n (n + 1) :: frames) body),
      .jump .jumpAbsolute n, .label (n + 2), .run (.stmts frames orelse), .label (n + 1)]
  | .ifElse _ test body [] => [branch test n false, .run (.stmts frames body), .label n]
  | .ifElse _ test body orelse =>
    [branch test (n + 1) false, .run (.stmts frames body), .jump .jumpForward n, .label (n + 1),
      .run (.stmts frames orelse), .label n]
  | .tryExcept _ body handlers orelse [] => [.run (.tryExcept frames body handlers orelse)]
  | .tryExcept _ body handlers orelse finalbody =>
    [.jump .setupFinally (n + 1), .label n,
      .run (if handlers.isEmpty then .stmts (.finallyTry finalbody :: frames) body
        else .tryExcept (.finallyTry finalbody :: frames) body handlers orelse),
      simple .popBlock, .run (.stmts frames finalbody), .jump .jumpForward (n + 2),
      .label (n + 1), .run (.stmts (.finallyEnd :: frames) finalbody), simple .reraise,
      .label (n + 2)]

namespace Task

/-- How many labels a construct makes at its start. -/
def labelCount (o : Options) : Task → Nat
  | .expr e dest => e.labelCount dest
  | .stmt _ s => s.labelCount o
  | .chain .. | .chainEnd .. | .block => 1
  | .loop .. => 4
  | .tryExcept .. => 4
  | .handlers _ _ (_ :: _) => 1
  | .handler _ _ (some _) _ => 2
  | .handler _ _ none _ => 1
  | _ => 0

/-- The steps of a construct whose labels are numbered from `n`. -/
def steps (o : Options) (d : Draft) (n : Nat) : Task → List Step
  | .expr e dest => e.steps d n dest
  | .all [] => []
  | .all (e :: es) => [value e, .run (.all es)]
  | .operands _ _ [] => [.refuse]
  | .operands _ _ [e] => [value e]
  | .operands jump done (e :: es) =>
    [value e, .jump jump done, .run .block, .run (.operands jump done es)]
  | .tests _ _ _ _ [] => [.refuse]
  | .tests _ _ target sense [e] => [branch e target sense]
  | .tests decided decisive target sense (e :: es) =>
    [branch e decided decisive, .run (.tests decided decisive target sense es)]
  | .links _ _ _ _ [] => []
  | .links _ _ last _ [e] => [value e, compareStep last]
  | .links jump cleanup last [] (_ :: es) => [.run (.links jump cleanup last [] es)]
  | .links jump cleanup last (op :: ops) (e :: es) =>
    [value e, simple .dupTop, simple .rotThree, compareStep op, .jump jump cleanup, .run .block,
      .run (.links jump cleanup last ops es)]
  | .chain last ops es =>
    [.run (.links .jumpIfFalseOrPop n last ops es), .run (.chainEnd n .push)]
  | .chainEnd cleanup dest =>
    [.jump .jumpForward n, .label cleanup] ++ dest.cleanupSteps ++ [.label n]
  | .filters _ [] => []
  | .filters cleanup (e :: es) =>
    [branch e cleanup false, .run .block, .run (.filters cleanup es)]
  | .loop input target conditions rest element depth =>
    inputSteps input ++ [.label n, .jump .forIter (n + 3), .run .block, value target,
      .run (.filters (n + 2) conditions), .run (.inner element depth rest)] ++
      (if rest.isEmpty then [.label (n + 1)] else []) ++
      [.label (n + 2), .jump .jumpAbsolute n, .label (n + 3)]
  | .inner element depth [] => [value element, .emit .listAppend (UInt32.ofNat depth + 1)]
  | .inner element depth (⟨target, iter, conditions⟩ :: rest) =>
    [.run (.loop (some iter) target conditions rest element (depth + 1))]
  | .map entries => mapSteps entries
  | .extendMap [] => []
  | .extendMap entries =>
    [.run (.map (entries.take maxMapEntries)), .emit .dictUpdate 1,
      .run (.extendMap (entries.drop maxMapEntries))]
  | .block => [.label n]
  | .storeAll [] => []
  | .storeAll [t] => [value t]
  | .storeAll (t :: ts) => [simple .dupTop, value t, .run (.storeAll ts)]
  | .stmt frames s => s.steps o d frames n
  | .stmts _ [] => []
  | .stmts frames (s :: ss) => [.run (.stmt frames s), .run (.stmts frames ss)]
  | .tryExcept frames body hs orelse =>
    [.jump .setupFinally (n + 1), .label n, .run (.stmts (.tryExcept :: frames) body),
      simple .popBlock, .jump .jumpForward (n + 2), .label (n + 1),
      .run (.handlers (.exceptionHandler :: frames) (n + 3) hs), simple .reraise, .label (n + 2),
      .run (.stmts frames orelse), .label (n + 3)]
  | .handlers _ _ [] => []
  | .handlers frames done (⟨type, name, body, _⟩ :: rest) =>
    (match type with
      | none => []
      | some t => [simple .dupTop, value t, .jump .jumpIfNotExcMatch n]) ++
    [simple .popTop, .run (.handler frames done name body), .label n,
      .run (.handlers frames done rest)]
  | .handler frames done (some x) body =>
    [Step.name d x .store, simple .popTop, .jump .setupFinally n, .label (n + 1),
      .run (.stmts (.handlerCleanup (some x) :: frames) body), simple .popBlock,
      simple .popExcept] ++ clearSteps d x ++ [.jump .jumpForward done, .label n] ++
      clearSteps d x ++ [simple .reraise]
  | .handler frames done none body =>
    [simple .popTop, simple .popTop, .label n, .run (.stmts (.handlerCleanup none :: frames) body),
      simple .popExcept, .jump .jumpForward done]
  | .unwind _ _ [] => []
  | .unwind keep toLoop (f :: outer) =>
    if toLoop && f.isLoop then []
    else leaveSteps d keep f ++
      (match f with
        | .finallyTry finalbody =>
          [.run (.stmts (if keep then .popValue :: outer else outer) finalbody)]
        | _ => []) ++ [.run (.unwind keep toLoop outer)]

end Task

namespace Body

def kind : Body → ScopeKind
  | .lambda _ => .lambda
  | .comprehension .. => .comprehension
  | .function _ => .function
  | .classBody _ => .classBody

/-- The steps of a nested scope that is opened as the draft `d`. -/
def steps (o : Options) (d : Draft) : Body → List Step
  | .lambda e =>
    [.intern .none, value e] ++ if d.isGenerator then [] else [simple .returnValue]
  | .comprehension target filters rest element =>
    [.emit .buildList 0, .run (.loop none target filters rest element 1), simple .returnValue]
  | .function body =>
    [.intern ((keptDocstring? o body).elim .none .str),
      .run (.stmts [] (withoutDocstring o body))]
  | .classBody body =>
    [Step.name d "__name__" .load, Step.name d "__module__" .store, .load (.str d.qualname),
      Step.name d "__qualname__" .store] ++ docSteps o d body ++
    .run (.stmts [] (withoutDocstring o body)) ::
    (if d.needsClassCell then
      [.named .loadClosure Draft.classCell, simple .dupTop, Step.name d "__classcell__" .store]
      else [.load .none]) ++ [simple .returnValue]

/-- Whether the scope returns `None` at its end. -/
def addNone (d : Draft) : Body → Bool
  | .lambda _ => !d.isGenerator
  | _ => true

/-- What a nested scope is built by. -/
def build (o : Options) : Body → Build Bool
  | .lambda e => do
    let _ ← internConstant .none
    Expr.lower o.filename e .push
    if ← ask (·.isGenerator) then return false
    emit .returnValue
    return true
  | .comprehension target filters rest element => do
    emitArg .buildList 0
    comprehensionLoop (do emitArg .loadFast (← internVarname ".0"))
      (Expr.lower o.filename target .push)
      (fun cleanup => Expr.lowerFilters o.filename cleanup filters) rest.isEmpty
      (Generator.lowerInner o.filename (Expr.lower o.filename element .push) 1 rest)
    emit .returnValue
    return true
  | .function body => do
    let _ ← internConstant ((keptDocstring? o body).elim .none .str)
    Stmt.lowerAll o [] (withoutDocstring o body)
    return true
  | .classBody body => do
    classProlog
    bindDocstring o body
    Stmt.lowerAll o [] (withoutDocstring o body)
    classEpilog
    return true

end Body

/-- Run from the draft `d`, a build writes a script and leaves the draft `d'`. -/
structure Build.Drafts {α : Type} (b : Build α) (d : Draft) (log : Script) (d' : Draft) : Prop where
  writes : d.Writes log d'
  run : ∃ serial a s, b ⟨d, serial⟩ = .ok a s ∧ s.draft = d'

/-- What makes a function from a finished scope. -/
def closureSteps (code : CodeObject) (parts : FunctionParts) (qualname : String) : List Step :=
  (if code.freevars.isEmpty then []
    else code.freevars.map (Step.named .loadClosure) ++
      [.emit .buildTuple (UInt32.ofNat code.freevars.length)]) ++
  [.load (.code code), .load (.str qualname),
    .emit .makeFunction { parts with closure := !code.freevars.isEmpty }.operand]

/-- What a step writes by itself. -/
inductive Step.Puts : Step → Script → Prop where
  | emit (op : Opcode) (arg : UInt32) : Puts (.emit op arg) [.emit op arg]
  | named (op : Opcode) (arg : UInt32) (name : String) : Puts (.named op name) [.named op arg name]
  | load (arg : UInt32) (c : Constant) : Puts (.load c) [.intern c, .load arg c]
  | jump (op : Opcode) (b : BlockId) : Puts (.jump op b) [.jump op b]
  | label (b : BlockId) : Puts (.label b) [.label b]
  | intern (c : Constant) : Puts (.intern c) [.intern c]

/-- The script of an expression is one that the build of the expression writes. -/
def Task.Ran (o : Options) (t : Task) (log : Script) : Prop :=
  match t with
  | .expr e dest => ∃ s s', e.lower o.filename dest s = .ok () s' ∧ s.draft.Writes log s'.draft
  | _ => True

/-- The steps of the scope `d` stand for a script; there are `n` blocks before it and `m` after. -/
inductive Emits (o : Options) : Draft → List Step → Nat → Script → Nat → Prop where
  | nil {d : Draft} {n : Nat} : Emits o d [] n [] n
  | put {d : Draft} {x : Step} {steps : List Step} {n m : Nat} {out log : Script} : x.Puts out →
      Emits o d steps n log m → Emits o d (x :: steps) n (out ++ log) m
  | closure {d d' : Draft} {body : Body} {name : String} {line serial : UInt32}
      {parts : FunctionParts} {qualname : Option String} {table : ScopeTable}
      {code : CodeObject} {steps : List Step} {n m k : Nat} {inner log : Script} :
      table ∈ d.children → table.kind = body.kind →
      Emits o (d.child name table serial line)
        (body.steps o (d.child name table serial line)) 1 inner k →
      (body.build o).Drafts (d.child name table serial line) inner d' →
      d'.finish (body.addNone (d.child name table serial line)) o.filename = .ok code →
      Emits o d (closureSteps code parts (qualname.getD code.qualname) ++ steps) n log m →
      Emits o d (.closure body name line parts qualname :: steps) n log m
  | run {d : Draft} {t : Task} {steps : List Step} {n k m : Nat} {log log' : Script} :
      Emits o d (t.steps o d n) (n + t.labelCount o) log k →
      t.Ran o (List.replicate (t.labelCount o) .alloc ++ log) → Emits o d steps k log' m →
      Emits o d (.run t :: steps) n (List.replicate (t.labelCount o) .alloc ++ log ++ log') m

theorem Emits.append {o : Options} {d : Draft} {xs ys : List Step} {n k m : Nat}
    {log log' : Script} (h : Emits o d xs n log k) (h' : Emits o d ys k log' m) :
    Emits o d (xs ++ ys) n (log ++ log') m := by
  induction h with
  | nil => exact h'
  | put hx _ ih =>
    rw [List.append_assoc]
    exact .put hx (ih h')
  | closure ht hkind hinner hw hfinish _ _ ih =>
    exact .closure ht hkind hinner hw hfinish ((List.append_assoc ..) ▸ ih h')
  | run hsub hran _ _ ih =>
    rw [List.append_assoc]
    exact .run hsub hran (ih h')

def CompileError.fault? : CompileError → Option Fault
  | .internal f _ _ => some f
  | _ => none

/-- A nested scope of the steps cannot be assembled. -/
inductive Fails (o : Options) : Draft → List Step → Fault → Prop where
  | later {d : Draft} {x : Step} {steps : List Step} {f : Fault} :
      Fails o d steps f → Fails o d (x :: steps) f
  | run {d : Draft} {t : Task} {steps : List Step} {n : Nat} {f : Fault} :
      Fails o d (t.steps o d n) f → Fails o d (.run t :: steps) f
  | inner {d : Draft} {body : Body} {name : String} {line serial : UInt32}
      {parts : FunctionParts} {qualname : Option String} {table : ScopeTable}
      {steps : List Step} {f : Fault} : table ∈ d.children → table.kind = body.kind →
      Fails o (d.child name table serial line)
        (body.steps o (d.child name table serial line)) f →
      Fails o d (.closure body name line parts qualname :: steps) f
  | finish {d d' : Draft} {body : Body} {name : String} {line serial : UInt32}
      {parts : FunctionParts} {qualname : Option String} {table : ScopeTable}
      {steps : List Step} {k : Nat} {inner : Script} {e : CompileError} {f : Fault} :
      table ∈ d.children → table.kind = body.kind →
      Emits o (d.child name table serial line)
        (body.steps o (d.child name table serial line)) 1 inner k →
      (d.child name table serial line).Writes inner d' →
      d'.finish (body.addNone (d.child name table serial line)) o.filename = .error e →
      e.fault? = some f →
      Fails o d (.closure body name line parts qualname :: steps) f

theorem Fails.append_left {o : Options} {d : Draft} {xs ys : List Step} {f : Fault}
    (h : Fails o d xs f) : Fails o d (xs ++ ys) f := by
  induction h with
  | later _ ih => exact .later ih
  | run h _ => exact .run h
  | inner ht hkind h _ => exact .inner ht hkind h
  | finish ht hkind he hw hf hfault => exact .finish ht hkind he hw hf hfault

theorem Fails.append_right {o : Options} {d : Draft} {xs ys : List Step} {f : Fault}
    (h : Fails o d ys f) : Fails o d (xs ++ ys) f := by
  induction xs with
  | nil => exact h
  | cons _ _ ih => exact .later ih

end Wordcode
