/-!
# Kinds of frame

A frame is a region of a scope's code that a jump out of it has to unwind.
-/

set_option autoImplicit false

namespace Wordcode

inductive FrameKind where
  | whileLoop
  | forLoop
  | tryExcept
  | finallyTry
  | finallyEnd
  | exceptionHandler
  | handlerCleanup
  | popValue
  deriving DecidableEq

def FrameKind.label : FrameKind → String
  | .whileLoop => "while loop"
  | .forLoop => "for loop"
  | .tryExcept => "try/except"
  | .finallyTry => "try/finally"
  | .finallyEnd => "finally"
  | .exceptionHandler => "exception handler"
  | .handlerCleanup => "handler cleanup"
  | .popValue => "preserved value"

end Wordcode
