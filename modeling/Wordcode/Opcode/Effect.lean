import Wordcode.Error

/-!
# Stack effects

How far an instruction moves the operand stack. The operand is read as a signed word of the same
bits, and every number that is computed from it must be a signed word again.
-/

set_option autoImplicit false

namespace Wordcode

/-- The number fits in a signed machine word. -/
def InWord (x : Int) : Prop := Int32.minValue.toInt ≤ x ∧ x ≤ Int32.maxValue.toInt

instance (x : Int) : Decidable (InWord x) := inferInstanceAs (Decidable (_ ∧ _))

/-- A number as a signed word. -/
def signedWord (x : Int) : Except CompileError Int32 :=
  if InWord x then .ok (Int32.ofInt x) else .error .overflow

namespace Opcode

/-- How many of the four low bits of `arg` are set. -/
def lowBits (arg : UInt32) : UInt32 :=
  arg % 2 + arg / 2 % 2 + arg / 4 % 2 + arg / 8 % 2

/-- The numbers that are computed on the way to the change of depth, one after the other. The last
one is the change, on the way to the next instruction, or to the target if `taken`. -/
def effectSteps (op : Opcode) (arg : UInt32) (taken : Bool) : List Int :=
  let n := arg.toInt32.toInt
  match op with
  | .nop | .extendedArg => [0]
  | .popTop => [-1]
  | .rotTwo | .rotThree | .rotFour => [0]
  | .dupTop => [1]
  | .dupTopTwo => [2]
  | .unaryPositive | .unaryNegative | .unaryNot | .unaryInvert => [0]
  | .binaryMatrixMultiply | .inplaceMatrixMultiply | .binaryPower | .binaryMultiply
  | .binaryModulo | .binaryAdd | .binarySubtract | .binarySubscr | .binaryFloorDivide
  | .binaryTrueDivide | .inplaceFloorDivide | .inplaceTrueDivide | .inplaceAdd
  | .inplaceSubtract | .inplaceMultiply | .inplaceModulo | .binaryLshift | .binaryRshift
  | .binaryAnd | .binaryXor | .binaryOr | .inplacePower | .inplaceLshift | .inplaceRshift
  | .inplaceAnd | .inplaceXor | .inplaceOr => [-1]
  | .storeSubscr => [-3]
  | .deleteSubscr => [-2]
  | .getIter | .getYieldFromIter | .getAwaitable | .getAiter => [0]
  | .getAnext | .beforeAsyncWith => [1]
  | .endAsyncFor => [-7]
  | .printExpr => [-1]
  | .loadBuildClass | .loadAssertionError => [1]
  | .returnValue | .importStar => [-1]
  | .setupAnnotations | .yieldValue => [0]
  | .yieldFrom => [-1]
  | .popBlock => [0]
  | .popExcept | .reraise => [-3]
  | .withExceptStart => [1]
  | .listToTuple => [0]
  | .storeName | .storeGlobal | .storeFast | .storeDeref => [-1]
  | .deleteName | .deleteGlobal | .deleteFast | .deleteDeref => [0]
  | .loadConst | .loadName | .loadGlobal | .loadFast | .loadClosure | .loadDeref
  | .loadClassderef | .loadMethod => [1]
  | .unpackSequence => [n - 1]
  -- the low byte of a signed word and what stands above it, which rounds down
  | .unpackEx => [n % 256 + n / 256]
  | .forIter => [if taken then -1 else 1]
  | .storeAttr => [-2]
  | .deleteAttr => [-1]
  | .loadAttr => [0]
  | .buildTuple | .buildList | .buildSet | .buildString => [1 - n]
  | .buildMap => [2 * n, 1 - 2 * n]
  | .buildConstKeyMap => [-n]
  | .listAppend | .setAdd => [-1]
  | .mapAdd => [-2]
  | .listExtend | .setUpdate | .dictMerge | .dictUpdate => [-1]
  | .compareOp | .isOp | .containsOp => [-1]
  | .jumpIfNotExcMatch => [-2]
  | .importName => [-1]
  | .importFrom => [1]
  | .jumpForward | .jumpAbsolute => [0]
  | .jumpIfTrueOrPop | .jumpIfFalseOrPop => [if taken then 0 else -1]
  | .popJumpIfFalse | .popJumpIfTrue => [-1]
  | .setupFinally => [if taken then 6 else 0]
  | .setupWith => [if taken then 6 else 1]
  | .setupAsyncWith => [if taken then 5 else 0]
  | .raiseVarargs | .callFunction => [-n]
  | .callMethod | .callFunctionKw => [-n, -n - 1]
  | .callFunctionEx => [-1 - n % 2]
  | .makeFunction => [-1 - (lowBits arg).toNat]
  | .buildSlice => [if n = 3 then -2 else -1]
  | .formatValue => [if arg &&& 4 = 4 then -1 else 0]

/-- The change of depth, if all numbers on the way to it are words. -/
def stackEffect (op : Opcode) (arg : UInt32) (taken : Bool) : Except CompileError Int32 :=
  (op.effectSteps arg taken).foldlM (fun _ x => signedWord x) 0

end Opcode
end Wordcode
