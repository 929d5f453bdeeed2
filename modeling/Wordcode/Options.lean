/-!
# Options
-/

set_option autoImplicit false

namespace Wordcode

structure Options where
  /-- Recorded in every code object. -/
  filename : String := "<string>"
  /-- 0 keeps everything, 1 drops assertions, 2 drops docstrings too. -/
  optimize : UInt8 := 0
  deriving DecidableEq

namespace Options

def stripsAsserts (o : Options) : Bool := 1 ≤ o.optimize

def stripsDocstrings (o : Options) : Bool := 2 ≤ o.optimize

end Options
end Wordcode
