import Wordcode.Frame

/-!
# Weight of statements

Why compiling a statement ends. Its code may contain further copies of the final bodies around it,
so the statement alone says little. But a frame weighs more than the final body that leaving it
runs, and a compound statement more than its parts within the frames it opens: the weight of what
is compiled together with that of the frames around it goes down at every step.
-/

set_option autoImplicit false

namespace Wordcode

mutual

/-- A compound statement leaves room for the two frames that it may open and a final body among
them. -/
def Stmt.weight : Stmt → Nat
  | .functionDef _ _ _ body _ _ => Stmt.weightOfAll body + 5
  | .classDef _ _ _ _ body _ => Stmt.weightOfAll body + 5
  | .forLoop _ _ _ body orelse => Stmt.weightOfAll body + Stmt.weightOfAll orelse + 5
  | .whileLoop _ _ body orelse => Stmt.weightOfAll body + Stmt.weightOfAll orelse + 5
  | .ifElse _ _ body orelse => Stmt.weightOfAll body + Stmt.weightOfAll orelse + 5
  | .tryExcept _ body handlers orelse finalbody =>
    Stmt.weightOfAll body + Handler.weightOfAll handlers + Stmt.weightOfAll orelse +
      Stmt.weightOfAll finalbody + 5
  | _ => 1

def Stmt.weightOfAll : List Stmt → Nat
  | [] => 0
  | s :: ss => Stmt.weight s + Stmt.weightOfAll ss + 1

def Handler.weightOfAll : List Handler → Nat
  | [] => 0
  | ⟨_, _, body, _⟩ :: hs => Stmt.weightOfAll body + Handler.weightOfAll hs + 2

end

/-- A frame weighs more than its final body within one further frame. -/
def Frame.weight : Frame → Nat
  | .finallyTry finalbody => Stmt.weightOfAll finalbody + 2
  | _ => 1

def Frame.weightOfAll : List Frame → Nat
  | [] => 0
  | f :: fs => f.weight + weightOfAll fs

theorem Stmt.weight_pos (s : Stmt) : 0 < s.weight := by
  cases s <;> simp [Stmt.weight]

theorem Stmt.weightOfAll_tail_le (body : List Stmt) :
    Stmt.weightOfAll body.tail ≤ Stmt.weightOfAll body := by
  cases body with
  | nil => exact Nat.le_refl _
  | cons s ss =>
    simp only [List.tail_cons, Stmt.weightOfAll]
    omega

theorem Frame.weight_pos (f : Frame) : 0 < f.weight := by
  cases f <;> simp [Frame.weight]

end Wordcode
