import Wordcode.Lower.Name
import Wordcode.Lower.Operator
import Wordcode.Lower.Scope

/-!
# Expressions

Code is generated for a destination: either the value is to end up on the stack, or control is to
go to a block if the value is true (or false) and on to the next instruction otherwise. Boolean
operators, conditional expressions and chained comparisons have code of their own for the second
kind; the value of any other expression is computed and tested.
-/

set_option autoImplicit false

namespace Wordcode

/-- What becomes of an expression's value. -/
inductive Dest where
  | push
  | jump (target : BlockId) (sense : Bool)

namespace Build

/-- Runs a build at a line, unless it is 0, and returns to the line before. -/
def atLine (line : UInt32) (b : Build Unit) : Build Unit := do
  let saved ← ask (·.line)
  if line ≠ 0 then setLine line
  b
  setLine saved

/-- Tests the value on top of the stack if the destination asks for it. -/
def test : Dest → Build Unit
  | .push => pure ()
  | .jump target sense => do
    emitJump (popJumpOpcode sense) target
    let _ ← nextBlock

/-- Brings a value that `b` computes to its destination. -/
def deliver (line : UInt32) (d : Dest) (b : Build Unit) : Build Unit := do
  atLine line b
  test d

def emitCompare (op : CmpOp) : Build Unit := emitArg op.opcode.1 op.opcode.2

/-- The constants that hold names. -/
def nameTuple (names : List String) : Constant := .tuple (names.map .str)

/-- An entry of a dict display, with the builds of its key and value. -/
structure DictEntry where
  constantKey : Option Constant
  key : Build Unit
  value : Build Unit

/-- The most entries that one instruction builds a map from. -/
def maxMapEntries : Nat := 0xFFFF

def buildEntries : List DictEntry → Build Unit
  | [] => pure ()
  | e :: rest => do
    e.key
    e.value
    buildEntries rest

def buildValues : List DictEntry → Build Unit
  | [] => pure ()
  | e :: rest => do
    e.value
    buildValues rest

/-- A map of at most `maxMapEntries` entries. Two or more keys that are all constant become one
constant. -/
def buildMap (entries : List DictEntry) : Build Unit := do
  let count := UInt32.ofNat entries.length
  match entries.mapM DictEntry.constantKey with
  | some keys =>
    if 1 < entries.length then
      buildValues entries
      loadConst (.tuple keys)
      emitArg .buildConstKeyMap count
    else
      buildEntries entries
      emitArg .buildMap count
  | none =>
    buildEntries entries
    emitArg .buildMap count

/-- Adds entries to the map on the stack, as many at a time as one instruction can take. -/
def extendMap (entries : List DictEntry) : Build Unit :=
  if entries.isEmpty then pure ()
  else do
    buildMap (entries.take maxMapEntries)
    emitArg .dictUpdate 1
    extendMap (entries.drop maxMapEntries)
termination_by entries.length
decreasing_by
  have : entries ≠ [] := by simp_all
  have := List.length_pos_iff.mpr this
  simp only [List.length_drop, maxMapEntries]
  omega

def dictDisplay (entries : List DictEntry) : Build Unit := do
  buildMap (entries.take maxMapEntries)
  extendMap (entries.drop maxMapEntries)

/-- Joins the two ways out of a comparison chain: the last comparison goes around `rest`, which a
comparison that failed before jumps to. -/
def chainEnd (cleanup : BlockId) (rest : Build Unit) : Build Unit := do
  let done ← newBlock
  emitJump .jumpForward done
  fallInto cleanup
  rest
  fallInto done

/-- One loop of a comprehension around `inner`, over the iterator that `input` pushes. -/
def comprehensionLoop (input target : Build Unit) (filters : BlockId → Build Unit)
    (innermost : Bool) (inner : Build Unit) : Build Unit := do
  let start ← newBlock
  let skip ← newBlock
  let cleanup ← newBlock
  let anchor ← newBlock
  input
  fallInto start
  emitJump .forIter anchor
  let _ ← nextBlock
  target
  filters cleanup
  inner
  if innermost then fallInto skip
  fallInto cleanup
  emitJump .jumpAbsolute start
  fallInto anchor

/-- Elements of a list or tuple, given their number and how to go through them. -/
def sequence (build : Opcode) (ctx : Ctx) (count : Nat) (elements : Build Unit) : Build Unit :=
  match ctx with
  | .load => do
    elements
    emitArg build (UInt32.ofNat count)
  | .store => do
    emitArg .unpackSequence (UInt32.ofNat count)
    elements
  | .del => elements

/-- A call with `extra` values on the stack already, given how to push arguments and keyword
values. -/
def callWith (extra argCount : Nat) (args : Build Unit) (keywords : List String)
    (values : Build Unit) : Build Unit := do
  args
  let positional := UInt32.ofNat extra + UInt32.ofNat argCount
  if keywords.isEmpty then emitArg .callFunction positional
  else
    values
    loadConst (nameTuple keywords)
    emitArg .callFunctionKw (positional + UInt32.ofNat keywords.length)

end Build

open Build

/-- The names of the keyword-only parameters that have a default. -/
def Arguments.kwDefaultNames (a : Arguments) : List String :=
  (a.kwonly.zip a.kwDefaults).filterMap fun p => p.2.map fun _ => p.1.name

mutual

/-- Generates the code of an expression. -/
def Expr.lower (filename : String) : Expr → Dest → Build Unit
  | .boolOp line op values, .push =>
    atLine line do
      if values.isEmpty then fail (.noOperands "boolean operation")
      let done ← newBlock
      Expr.lowerOperands filename op.jumpOpcode done values
      fallInto done
  | .boolOp _ op values, .jump target sense => do
    if values.isEmpty then fail (.noOperands "boolean operation")
    let decisive := decide (op = .or)
    let inner ← if decisive = sense then pure target else newBlock
    Expr.lowerTests filename inner decisive target sense values
    if inner ≠ target then fallInto inner
  | .binOp line left op right, d =>
    deliver line d do
      Expr.lower filename left .push
      Expr.lower filename right .push
      emit op.opcode
  | .unaryOp _ .not operand, .jump target sense =>
    Expr.lower filename operand (.jump target (!sense))
  | .unaryOp line op operand, d =>
    deliver line d do
      Expr.lower filename operand .push
      emit op.opcode
  | .lambda line args body, d =>
    deliver line d do
      let parts ← Arguments.lowerDefaults filename args
      let code ← inScope filename "<lambda>" .lambda line do
        let _ ← internConstant .none
        Expr.lower filename body .push
        if ← ask (·.isGenerator) then return false
        emit .returnValue
        return true
      makeClosure code parts code.qualname
  | .ifExp line test body orelse, .push =>
    atLine line do
      let done ← newBlock
      let next ← newBlock
      Expr.lower filename test (.jump next false)
      Expr.lower filename body .push
      emitJump .jumpForward done
      fallInto next
      Expr.lower filename orelse .push
      fallInto done
  | .ifExp _ test body orelse, .jump target sense => do
    let done ← newBlock
    let next ← newBlock
    Expr.lower filename test (.jump next false)
    Expr.lower filename body (.jump target sense)
    emitJump .jumpForward done
    fallInto next
    Expr.lower filename orelse (.jump target sense)
    fallInto done
  | .dict line keys values, d =>
    deliver line d do
      if keys.length ≠ values.length then fail (.dictArity keys.length values.length)
      let keyBuilds := Expr.lowerEach filename #[] keys
      let valueBuilds := Expr.lowerEach filename #[] values
      dictDisplay (List.zipWith (fun k (b : Build Unit × Build Unit) => ⟨k, b.1, b.2⟩)
        (keys.map Expr.constant?) (keyBuilds.zip valueBuilds).toList)
  | .set line elts, d =>
    deliver line d do
      Expr.lowerAll filename elts
      emitArg .buildSet (UInt32.ofNat elts.length)
  | .listComp line _ [], d => deliver line d (fail .noGenerators)
  | .listComp line elt (⟨target, iter, filters⟩ :: rest), d =>
    deliver line d do
      let code ← inScope filename "<listcomp>" .comprehension line do
        emitArg .buildList 0
        comprehensionLoop (do emitArg .loadFast (← internVarname ".0"))
          (Expr.lower filename target .push)
          (fun cleanup => Expr.lowerFilters filename cleanup filters) rest.isEmpty
          (Generator.lowerInner filename (Expr.lower filename elt .push) 1 rest)
        emit .returnValue
        return true
      makeClosure code {} code.qualname
      Expr.lower filename iter .push
      emit .getIter
      emitArg .callFunction 1
  | .yield line value, d =>
    deliver line d do
      if !(← ask (·.kind.isFunctionLike)) then throw (.yieldOutsideFunction line)
      Expr.lowerOrNone filename value
      emit .yieldValue
  | .compare _ left (op :: op' :: ops) comparators, .jump target sense => do
    if comparators.isEmpty then fail (.noOperands "comparison")
    let cleanup ← newBlock
    Expr.lower filename left .push
    Expr.lowerLinks filename .popJumpIfFalse cleanup ((op' :: ops).getLast (by simp))
      (op :: (op' :: ops).dropLast) comparators
    test (.jump target sense)
    chainEnd cleanup do
      emit .popTop
      if !sense then emitJump .jumpForward target
  | .compare line left [op] [comparator], d =>
    deliver line d do
      Expr.lower filename left .push
      Expr.lower filename comparator .push
      emitCompare op
  | .compare line left ops comparators, d =>
    deliver line d do
      if ops.length ≠ comparators.length then
        fail (.comparisonArity ops.length comparators.length)
      match ops.getLast? with
      | none => fail (.noOperands "comparison")
      | some last =>
        Expr.lower filename left .push
        let cleanup ← newBlock
        Expr.lowerLinks filename .jumpIfFalseOrPop cleanup last ops.dropLast comparators
        chainEnd cleanup do
          emit .rotTwo
          emit .popTop
  | .call line (.attribute _ object attr .load) args [], d =>
    deliver line d do
      Expr.lower filename object .push
      emitName .loadMethod attr
      Expr.lowerAll filename args
      emitArg .callMethod (UInt32.ofNat args.length)
  | .call line func args keywords, d =>
    deliver line d do
      Expr.lower filename func .push
      callWith 0 args.length (Expr.lowerAll filename args) (keywords.map Keyword.name)
        (Keyword.lowerValues filename keywords)
  | .constant line value, d => deliver line d (loadConst value)
  | .attribute line object attr ctx, d =>
    deliver line d do
      Expr.lower filename object .push
      emitName (attributeOpcode ctx) attr
  | .subscript line object index ctx, d =>
    deliver line d do
      Expr.lower filename object .push
      Expr.lower filename index .push
      emit (subscriptOpcode ctx)
  | .slice line lower upper none, d =>
    deliver line d do
      Expr.lowerOrNone filename lower
      Expr.lowerOrNone filename upper
      emitArg .buildSlice 2
  | .slice line lower upper (some step), d =>
    deliver line d do
      Expr.lowerOrNone filename lower
      Expr.lowerOrNone filename upper
      Expr.lower filename step .push
      emitArg .buildSlice 3
  | .name line id ctx, d => deliver line d (accessName id ctx)
  | .list line elts ctx, d =>
    deliver line d (sequence .buildList ctx elts.length (Expr.lowerAll filename elts))
  | .tuple line elts ctx, d =>
    deliver line d (sequence .buildTuple ctx elts.length (Expr.lowerAll filename elts))

/-- Each expression in turn, with its value on the stack. -/
def Expr.lowerAll (filename : String) : List Expr → Build Unit
  | [] => pure ()
  | e :: es => do
    Expr.lower filename e .push
    Expr.lowerAll filename es

/-- The builds of the expressions one by one, behind those in `out`. -/
def Expr.lowerEach (filename : String) (out : Array (Build Unit)) :
    List Expr → Array (Build Unit)
  | [] => out
  | e :: es => Expr.lowerEach filename (out.push (Expr.lower filename e .push)) es

def Expr.lowerOrNone (filename : String) : Option Expr → Build Unit
  | none => loadConst .none
  | some e => Expr.lower filename e .push

/-- The operands of a boolean operation; all but the last may end it by `jump`. -/
def Expr.lowerOperands (filename : String) (jump : Opcode) (done : BlockId) :
    List Expr → Build Unit
  | [] => pure ()
  | [e] => Expr.lower filename e .push
  | e :: es => do
    Expr.lower filename e .push
    emitJump jump done
    let _ ← nextBlock
    Expr.lowerOperands filename jump done es

/-- The operands of a boolean operation as a condition; all but the last decide it if they are
`decisive`. -/
def Expr.lowerTests (filename : String) (inner : BlockId) (decisive : Bool) (target : BlockId)
    (sense : Bool) : List Expr → Build Unit
  | [] => pure ()
  | [e] => Expr.lower filename e (.jump target sense)
  | e :: es => do
    Expr.lower filename e (.jump inner decisive)
    Expr.lowerTests filename inner decisive target sense es

/-- The operands of a comparison chain behind its left one. All but the last are kept for the
next comparison and leave the chain by `jump` if theirs fails. -/
def Expr.lowerLinks (filename : String) (jump : Opcode) (cleanup : BlockId) (last : CmpOp) :
    List CmpOp → List Expr → Build Unit
  | _, [] => pure ()
  | _, [e] => do
    Expr.lower filename e .push
    emitCompare last
  | [], _ :: es => Expr.lowerLinks filename jump cleanup last [] es
  | op :: ops, e :: es => do
    Expr.lower filename e .push
    emit .dupTop
    emit .rotThree
    emitCompare op
    emitJump jump cleanup
    let _ ← nextBlock
    Expr.lowerLinks filename jump cleanup last ops es

/-- The filters of a comprehension loop, which go to `cleanup` if they fail. -/
def Expr.lowerFilters (filename : String) (cleanup : BlockId) : List Expr → Build Unit
  | [] => pure ()
  | e :: es => do
    Expr.lower filename e (.jump cleanup false)
    let _ ← nextBlock
    Expr.lowerFilters filename cleanup es

/-- The loops of a comprehension within `depth` others, and the element in the innermost. -/
def Generator.lowerInner (filename : String) (element : Build Unit) (depth : Nat) :
    List Generator → Build Unit
  | [] => do
    element
    emitArg .listAppend (UInt32.ofNat depth + 1)
  | ⟨target, iter, filters⟩ :: rest =>
    comprehensionLoop
      (do
        Expr.lower filename iter .push
        emit .getIter)
      (Expr.lower filename target .push)
      (fun cleanup => Expr.lowerFilters filename cleanup filters) rest.isEmpty
      (Generator.lowerInner filename element (depth + 1) rest)

def Keyword.lowerValues (filename : String) : List Keyword → Build Unit
  | [] => pure ()
  | ⟨_, value⟩ :: ks => do
    Expr.lower filename value .push
    Keyword.lowerValues filename ks

/-- The defaults of keyword-only parameters; what goes beyond the parameters is ignored. -/
def Expr.lowerKwDefaults (filename : String) : List Param → List (Option Expr) → Build Unit
  | _ :: ps, some e :: es => do
    Expr.lower filename e .push
    Expr.lowerKwDefaults filename ps es
  | _ :: ps, none :: es => Expr.lowerKwDefaults filename ps es
  | _, _ => pure ()

/-- Pushes the defaults of parameters and tells which there are. -/
def Arguments.lowerDefaults (filename : String) : Arguments → Build FunctionParts
  | ⟨posonly, params, vararg, kwonly, kwDefaults, kwarg, defaults⟩ => do
    if !defaults.isEmpty then
      Expr.lowerAll filename defaults
      emitArg .buildTuple (UInt32.ofNat defaults.length)
    let keys := Arguments.kwDefaultNames
      ⟨posonly, params, vararg, kwonly, kwDefaults, kwarg, defaults⟩
    Expr.lowerKwDefaults filename kwonly kwDefaults
    if !keys.isEmpty then
      loadConst (nameTuple keys)
      emitArg .buildConstKeyMap (UInt32.ofNat keys.length)
    return { defaults := !defaults.isEmpty, kwDefaults := !keys.isEmpty }

end

end Wordcode
