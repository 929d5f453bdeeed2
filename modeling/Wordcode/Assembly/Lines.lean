import Wordcode.Code
import Wordcode.Instruction

/-!
# Line tables

Which bytes come from which source line. An instruction without a stamp belongs to the line of the
one before it, and at the beginning to the scope's first line.
-/

set_option autoImplicit false

namespace Wordcode.Lines

/-- The line of an instruction stamped `stamp`, behind the ranges found so far. -/
def lineAfter (firstLine : UInt32) (ranges : Array LineRange) (stamp : UInt32) : UInt32 :=
  if stamp ≠ 0 then stamp
  else
    match ranges.back? with
    | some last => last.line
    | none => firstLine

/-- Adds an instruction's bytes, lengthening the last range if it goes on there. -/
def add (firstLine : UInt32) (ranges : Array LineRange) (start stop : UInt32) (stamp : UInt32) :
    Array LineRange :=
  let line := lineAfter firstLine ranges stamp
  match ranges.back? with
  | some last =>
    if last.line = line && last.stop = start then ranges.pop.push { last with stop := stop }
    else ranges.push ⟨start, stop, line⟩
  | none => ranges.push ⟨start, stop, line⟩

end Wordcode.Lines
