import Wordcode.FrameKind
import Wordcode.Opcode
import Wordcode.Scope

/-!
# Errors

What can go wrong, one constructor per cause, and the text of each. An internal error is a broken
promise between the parts of the compiler (or of whoever supplied the scope tables); it gains the
scope and line where it was noticed. A position error is a mistake of the program being compiled.
Arithmetic on machine words is checked: an overflow ends everything.
-/

set_option autoImplicit false

namespace Wordcode

/-- Causes of internal errors. -/
inductive Fault where
  | operandNotTaken (op : Opcode) (arg : UInt32)
  | targetNotTaken (op : Opcode)
  | stackUnderflow (block index : Nat) (op : Opcode)
  | notADerefName (name scope : String)
  | noChildScope (scope : String)
  | childScopeMismatch (expected : ScopeKind) (name : String) (found : ScopeKind) (table : String)
  | notAModule (table : String) (kind : ScopeKind)
  | childScopesLeft (count : Nat)
  | unboundFreeName (name child scope : String)
  | frameMismatch (expected found : FrameKind)
  | frameStackEmpty (expected : FrameKind)
  | notLaidOutAfter (block next : Nat)
  | targetNotLaidOut (op : Opcode) (target : Nat)
  | backwardJump (op : Opcode) (offset target : Nat)
  | offsetMismatch (block start assigned : Nat)
  | noOperands (construct : String)
  | comparisonArity (operators operands : Nat)
  | dictArity (keys values : Nat)
  | badAugmentedTarget
  | noGenerators
  | other (text : String)
  deriving DecidableEq

def Fault.message : Fault → String
  | .operandNotTaken op arg => s!"{op.mnemonic} takes no operand, got {arg}"
  | .targetNotTaken op => s!"{op.mnemonic} cannot take a block target"
  | .stackUnderflow block index op =>
    s!"stack underflow in block {block} at instruction {index} ({op.mnemonic})"
  | .notADerefName name scope => s!"'{name}' is neither a cell nor a free variable of '{scope}'"
  | .noChildScope scope => s!"symbol table of '{scope}' has no entry for a nested scope"
  | .childScopeMismatch expected name found table =>
    s!"expected a {expected.text} symbol table for '{name}', found {found.text} '{table}'"
  | .notAModule table kind =>
    s!"top-level symbol table '{table}' is a {kind.text} scope, expected a module"
  | .childScopesLeft count => s!"{count} nested scope(s) in the symbol table were never compiled"
  | .unboundFreeName name child scope =>
    s!"free variable '{name}' of '{child}' has no binding in '{scope}'"
  | .frameMismatch expected found =>
    s!"frame block mismatch: expected {expected.label}, found {found.label}"
  | .frameStackEmpty expected => s!"frame block stack empty while closing {expected.label}"
  | .notLaidOutAfter block next =>
    s!"block {block} falls through to block {next} which is not laid out after it"
  | .targetNotLaidOut op target =>
    s!"{op.mnemonic} targets block {target} which was never laid out"
  | .backwardJump op offset target =>
    s!"{op.mnemonic} at offset {offset} jumps backwards to {target}"
  | .offsetMismatch block start assigned =>
    s!"block {block} starts at {start} but was assigned offset {assigned}"
  | .noOperands construct => s!"{construct} without operands"
  | .comparisonArity operators operands =>
    s!"comparison with {operators} operators and {operands} operands"
  | .dictArity keys values => s!"dict display with {keys} keys and {values} values"
  | .badAugmentedTarget =>
    "augmented assignment to something other than a name, attribute or subscript"
  | .noGenerators => "list comprehension without generators"
  | .other text => text

/-- Why compilation stopped. -/
inductive CompileError where
  | internal (fault : Fault) (scope : Option String) (line : Option UInt32)
  | unsupportedMode (mode : String)
  | invalidPosition (node reason : String) (line : UInt32)
  /-- A sum of machine words is no word. This is not reported: the program stops where it is. -/
  | overflow
  deriving DecidableEq

namespace CompileError

def fault (f : Fault) : CompileError := .internal f none none

def breakOutsideLoop : UInt32 → CompileError := .invalidPosition "break" "outside loop"

def continueOutsideLoop : UInt32 → CompileError :=
  .invalidPosition "continue" "not properly in loop"

def returnOutsideFunction : UInt32 → CompileError := .invalidPosition "return" "outside function"

def yieldOutsideFunction : UInt32 → CompileError := .invalidPosition "yield" "outside function"

def defaultExceptNotLast : UInt32 → CompileError :=
  .invalidPosition "except" "default 'except:' must be last"

def isInternal : CompileError → Bool
  | .internal .. => true
  | _ => false

/-- Names the scope, and the line unless it is 0, of an internal error that has no scope yet. A
line already known stays. -/
def withContext (scope : String) (line : UInt32) : CompileError → CompileError
  | .internal f none l => .internal f (some scope) (l.or (if line = 0 then none else some line))
  | e => e

private def place : Option String → Option UInt32 → String
  | some s, some l => s!" in '{s}' at line {l}"
  | some s, none => s!" in '{s}'"
  | none, some l => s!" at line {l}"
  | none, none => ""

def message : CompileError → String
  | .internal f scope line => s!"compile error: internal error{place scope line}: {f.message}"
  | .unsupportedMode mode =>
    s!"compile error: unsupported mode '{mode}'\n" ++
      "  hint: only module and expression input can be compiled"
  | .invalidPosition node reason line => s!"compile error: '{node}' {reason} (line {line})"
  | .overflow => "arithmetic overflow"

@[simp] theorem withContext_internal_some (f : Fault) (s : String) (l : Option UInt32)
    (scope : String) (line : UInt32) :
    withContext scope line (.internal f (some s) l) = .internal f (some s) l := rfl

end CompileError

/-- Why a byte string is not wordcode. -/
inductive DecodeError where
  | oddLength (length : Nat)
  | unknownOpcode (offset : Nat) (byte : UInt8)
  | danglingExtendedArg (offset : Nat)
  deriving DecidableEq

def DecodeError.message : DecodeError → String
  | .oddLength length =>
    s!"decode error: bytecode length {length} is not a whole number of code units"
  | .unknownOpcode offset byte => s!"decode error: unknown opcode {byte} at offset {offset}"
  | .danglingExtendedArg offset =>
    s!"decode error: EXTENDED_ARG at offset {offset} is not followed by an instruction"

end Wordcode
