import Wordcode.Opcode
import Wordcode.Tree

/-!
# Opcodes of operators
-/

set_option autoImplicit false

namespace Wordcode

def Operator.opcode : Operator → Opcode
  | .add => .binaryAdd
  | .sub => .binarySubtract
  | .mult => .binaryMultiply
  | .matMult => .binaryMatrixMultiply
  | .div => .binaryTrueDivide
  | .mod => .binaryModulo
  | .pow => .binaryPower
  | .lshift => .binaryLshift
  | .rshift => .binaryRshift
  | .bitOr => .binaryOr
  | .bitXor => .binaryXor
  | .bitAnd => .binaryAnd
  | .floorDiv => .binaryFloorDivide

def Operator.inplaceOpcode : Operator → Opcode
  | .add => .inplaceAdd
  | .sub => .inplaceSubtract
  | .mult => .inplaceMultiply
  | .matMult => .inplaceMatrixMultiply
  | .div => .inplaceTrueDivide
  | .mod => .inplaceModulo
  | .pow => .inplacePower
  | .lshift => .inplaceLshift
  | .rshift => .inplaceRshift
  | .bitOr => .inplaceOr
  | .bitXor => .inplaceXor
  | .bitAnd => .inplaceAnd
  | .floorDiv => .inplaceFloorDivide

def UnaryOp.opcode : UnaryOp → Opcode
  | .invert => .unaryInvert
  | .not => .unaryNot
  | .plus => .unaryPositive
  | .minus => .unaryNegative

/-- The opcode of a comparison and its operand. -/
def CmpOp.opcode : CmpOp → Opcode × UInt32
  | .lt => (.compareOp, 0)
  | .le => (.compareOp, 1)
  | .eq => (.compareOp, 2)
  | .notEq => (.compareOp, 3)
  | .gt => (.compareOp, 4)
  | .ge => (.compareOp, 5)
  | .is => (.isOp, 0)
  | .isNot => (.isOp, 1)
  | .in => (.containsOp, 0)
  | .notIn => (.containsOp, 1)

/-- Leaves the value that decides the operation on the stack and jumps, or drops it. -/
def BoolOp.jumpOpcode : BoolOp → Opcode
  | .and => .jumpIfFalseOrPop
  | .or => .jumpIfTrueOrPop

def attributeOpcode : Ctx → Opcode
  | .load => .loadAttr
  | .store => .storeAttr
  | .del => .deleteAttr

def subscriptOpcode : Ctx → Opcode
  | .load => .binarySubscr
  | .store => .storeSubscr
  | .del => .deleteSubscr

/-- Jumps if the value on top, which it takes off, has the given truth. -/
def popJumpOpcode (sense : Bool) : Opcode := if sense then .popJumpIfTrue else .popJumpIfFalse

end Wordcode
