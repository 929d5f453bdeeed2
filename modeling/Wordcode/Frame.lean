import Wordcode.Instruction
import Wordcode.Tree

/-!
# Frames

The regions that enclose a statement within its scope, innermost first. Leaving them by a jump or
a return takes code of its own for each kind.
-/

set_option autoImplicit false

namespace Wordcode

inductive Frame where
  | whileLoop (start exit : BlockId)
  | forLoop (start exit : BlockId)
  | tryExcept
  /-- The protected part of a `try` statement with a final body. -/
  | finallyTry (finalbody : List Stmt)
  /-- A final body that runs because of an exception. -/
  | finallyEnd
  | exceptionHandler
  /-- The body of an `except` clause and the name it binds. -/
  | handlerCleanup (name : Option String)
  /-- A value kept on the stack while a final body runs. -/
  | popValue

namespace Frame

def kind : Frame → FrameKind
  | .whileLoop .. => .whileLoop
  | .forLoop .. => .forLoop
  | .tryExcept => .tryExcept
  | .finallyTry .. => .finallyTry
  | .finallyEnd => .finallyEnd
  | .exceptionHandler => .exceptionHandler
  | .handlerCleanup .. => .handlerCleanup
  | .popValue => .popValue

/-- Where `continue` and `break` go in a loop. -/
def loopTargets? : Frame → Option (BlockId × BlockId)
  | .whileLoop start exit | .forLoop start exit => some (start, exit)
  | _ => none

def isLoop (f : Frame) : Bool := f.loopTargets?.isSome

/-- Takes the innermost frame off, which must be of the expected kind. On a mismatch it is taken
off all the same. -/
def pop (expected : FrameKind) (frames : List Frame) :
    Except CompileError Frame × List Frame :=
  match frames with
  | [] => (.error (.fault (.frameStackEmpty expected)), [])
  | f :: rest =>
    if f.kind = expected then (.ok f, rest)
    else (.error (.fault (.frameMismatch expected f.kind)), rest)

end Frame
end Wordcode
