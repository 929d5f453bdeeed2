import Wordcode.Instruction

/-!
# Jump operands

A jump's operand depends on the offsets of blocks, these depend on the widths of instructions, and
a width depends on its operand. Starting from operands of one byte, offsets and operands are
computed in turn until the code no longer grows. Offsets are words: they are computed as numbers,
and code whose size is no word overflows.
-/

set_option autoImplicit false

namespace Wordcode

/-- A block at its place in the finished code. -/
structure Placed where
  id : BlockId
  body : List Instruction

def bodySize (body : List Instruction) : Nat := body.foldr (fun i n => i.size + n) 0

def codeSize (code : List Placed) : Nat := code.foldr (fun p n => bodySize p.body + n) 0

def instructionCount (code : List Placed) : Nat := code.foldr (fun p n => p.body.length + n) 0

@[simp] theorem instructionCount_nil : instructionCount [] = 0 := rfl

@[simp] theorem instructionCount_cons (p : Placed) (code : List Placed) :
    instructionCount (p :: code) = p.body.length + instructionCount code := rfl

@[simp] theorem instructionCount_append (code code' : List Placed) :
    instructionCount (code ++ code') = instructionCount code + instructionCount code' := by
  induction code with
  | nil => simp
  | cons p rest ih =>
    simp only [List.cons_append, instructionCount_cons, ih]
    omega

/-- Where each block starts, for blocks that have a place. -/
abbrev Offsets := Array (Option Nat)

/-- A number as a word. -/
def wordOf (n : Nat) : Except CompileError UInt32 :=
  if n < UInt32.size then .ok (UInt32.ofNat n) else .error .overflow

theorem wordOf_eq_ok {n : Nat} {w : UInt32} : wordOf n = .ok w ↔ w.toNat = n := by
  unfold wordOf
  split
  · next h =>
    rw [Except.ok.injEq]
    constructor
    · rintro rfl
      exact UInt32.toNat_ofNat_of_lt' h
    · rintro rfl
      exact UInt32.ofNat_toNat
  · next h => exact ⟨nofun, fun hw => absurd (hw ▸ w.toNat_lt) h⟩

namespace Sizing

/-- Assigns offsets to blocks one after the other, starting from a total size. -/
def assign : Nat × Offsets → Placed → Nat × Offsets
  | (total, offs), p => (total + bodySize p.body, offs.setIfInBounds p.id (some total))

def offsets (blockCount : Nat) (code : List Placed) : Offsets :=
  (code.foldl assign (0, Array.replicate blockCount none)).2

/-- The operand of a jump that ends at `stop`: the target's offset or the distance to it. -/
def operand (offs : Offsets) (i : Instruction) (stop : Nat) (target : BlockId) :
    Except CompileError UInt32 :=
  match offs.getD target none with
  | none => .error (.fault (.targetNotLaidOut i.opcode target))
  | some offset =>
    if !i.opcode.isRelativeJump then wordOf offset
    else if stop ≤ offset then wordOf (offset - stop)
    else .error (.fault (.backwardJump i.opcode (stop - i.size) offset))

/-- Gives an instruction that ends at `stop` its operand. -/
def resolve (offs : Offsets) (i : Instruction) (stop : Nat) : Except CompileError Instruction :=
  match i.target with
  | none => .ok i
  | some target => (operand offs i stop target).map fun arg => { i with arg := arg }

/-- Resolves the instructions from `pos` on, behind those in `out`. Positions go by the widths
before resolving. -/
def resolveBody (offs : Offsets) (out : Array Instruction) (pos : Nat) :
    List Instruction → Except CompileError (List Instruction)
  | [] => .ok out.toList
  | i :: rest =>
    match resolve offs i (pos + i.size) with
    | .error e => .error e
    | .ok j => resolveBody offs (out.push j) (pos + i.size) rest

def resolveCode (offs : Offsets) (out : Array Placed) :
    List Placed → Except CompileError (List Placed)
  | [] => .ok out.toList
  | p :: rest =>
    match resolveBody offs #[] ((offs.getD p.id none).getD 0) p.body with
    | .error e => .error e
    | .ok body => resolveCode offs (out.push ⟨p.id, body⟩) rest

/-- One round: offsets by the present widths, then operands by these offsets. The sums of sizes that
make the offsets only grow, so all of them are words if the last one is. -/
def pass (blockCount : Nat) (code : List Placed) : Except CompileError (List Placed) := do
  let _ ← wordOf (codeSize code)
  resolveCode (offsets blockCount code) #[] code

theorem pass_eq_ok {blockCount : Nat} {code code' : List Placed} :
    pass blockCount code = .ok code' ↔
      codeSize code < UInt32.size ∧ resolveCode (offsets blockCount code) #[] code = .ok code' := by
  simp only [pass, wordOf]
  split
  · next h => exact (and_iff_right h).symm
  · next h => exact ⟨nofun, fun hok => absurd hok.1 h⟩

theorem length_resolveBody {offs : Offsets} {out : Array Instruction} {pos : Nat}
    {body body' : List Instruction} (h : resolveBody offs out pos body = .ok body') :
    body'.length = out.size + body.length := by
  induction body generalizing out pos with
  | nil => cases h; simp
  | cons i rest ih =>
    unfold resolveBody at h
    split at h
    · cases h
    · have := ih h
      simp only [Array.size_push, List.length_cons] at this ⊢
      omega

theorem instructionCount_resolveCode {offs : Offsets} {out : Array Placed}
    {code code' : List Placed} (h : resolveCode offs out code = .ok code') :
    instructionCount code' = instructionCount out.toList + instructionCount code := by
  induction code generalizing out with
  | nil => cases h; simp
  | cons p rest ih =>
    unfold resolveCode at h
    split at h
    · cases h
    · next body hb =>
      have := ih h
      have hl := length_resolveBody hb
      simp at this hl ⊢
      omega

theorem instructionCount_pass {n : Nat} {code code' : List Placed}
    (h : pass n code = .ok code') : instructionCount code' = instructionCount code := by
  simpa using instructionCount_resolveCode (pass_eq_ok.mp h).2

theorem size_le (i : Instruction) : i.size ≤ 8 := by
  have := codeUnits_le i.arg
  simp only [Instruction.size]
  omega

theorem bodySize_le (body : List Instruction) : bodySize body ≤ 8 * body.length := by
  induction body with
  | nil => exact Nat.le_refl 0
  | cons i rest ih =>
    have := size_le i
    simp only [bodySize, List.foldr_cons, List.length_cons] at ih ⊢
    omega

theorem codeSize_le (code : List Placed) : codeSize code ≤ 8 * instructionCount code := by
  induction code with
  | nil => exact Nat.le_refl 0
  | cons p rest ih =>
    have := bodySize_le p.body
    simp only [codeSize, instructionCount_cons, List.foldr_cons] at ih ⊢
    omega

/-- Repeats `pass` for as long as the code grows. Gives the settled code and the offsets by which
its operands were computed. -/
def settle (blockCount : Nat) (code : List Placed) :
    Except CompileError (Offsets × List Placed) :=
  match _h : pass blockCount code with
  | .error e => .error e
  | .ok code' =>
    if codeSize code < codeSize code' then settle blockCount code'
    else .ok (offsets blockCount code, code')
termination_by 8 * instructionCount code - codeSize code
decreasing_by
  have h₁ := instructionCount_pass _h
  have h₂ := codeSize_le code'
  omega

end Sizing
end Wordcode
