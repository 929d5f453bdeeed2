import Mathlib.Algebra.Group.Nat.Defs
import Mathlib.Data.Nat.Bits
import Wordcode.Assembly.Sizing
import Wordcode.Decode

/-!
# Wordcode reads back as it was written

The widening units in front of an instruction carry the higher bytes of its operand. A run of
them stands for a number, and each unit appends one byte to it; so reading the units of an
instruction gives its operand again. Code of which every instruction is known by the byte it
starts at is read back as a whole.
-/

set_option autoImplicit false

namespace Wordcode

/-- The operand bits that a run of widening units has gathered. -/
def runBits (run : Option WideningRun) : Nat := (run.map fun r => r.bits.toNat).getD 0

/-- Where the instruction at hand starts: at its first widening unit, if it has one. -/
def runStart (offset : Nat) (run : Option WideningRun) : Nat :=
  (run.map WideningRun.start).getD offset

@[simp] theorem runBits_none : runBits none = 0 := rfl

@[simp] theorem runBits_some (start : Nat) (bits : UInt32) :
    runBits (some ⟨start, bits⟩) = bits.toNat := rfl

@[simp] theorem runStart_none (offset : Nat) : runStart offset none = offset := rfl

@[simp] theorem runStart_some (offset start : Nat) (bits : UInt32) :
    runStart offset (some ⟨start, bits⟩) = start := rfl

theorem toNat_operandByte (arg : UInt32) (k : Nat) :
    (operandByte arg k).toNat = arg.toNat / 256 ^ k % 256 := by
  have hpow : 2 ^ (8 * k) = 256 ^ k := by rw [Nat.pow_mul]
  simp [operandByte, Nat.shiftRight_eq_div_pow, hpow]

/-- A byte is appended to the bits gathered, of which those above a word are lost. -/
theorem toNat_widen_mod (run : Option WideningRun) (b : UInt8) :
    (Decode.widen run b).toNat = (runBits run * 256 + b.toNat) % 2 ^ 32 := by
  have hb : b.toNat < 2 ^ 8 := b.toNat_lt
  cases run with
  | none =>
    rw [runBits_none, Decode.widen, UInt8.toNat_toUInt32]
    omega
  | some r =>
    obtain ⟨start, bits⟩ := r
    have hshift : bits.toNat <<< 8 % 2 ^ 32 = (bits.toNat % 2 ^ 24) <<< 8 := by
      rw [Nat.shiftLeft_eq, Nat.shiftLeft_eq]
      omega
    have hor := Nat.shiftLeft_add_eq_or_of_lt hb (bits.toNat % 2 ^ 24)
    simp only [Decode.widen, UInt32.toNat_or, UInt32.toNat_shiftLeft, UInt8.toNat_toUInt32]
    rw [show (8 : UInt32).toNat % 32 = 8 from rfl, hshift, ← hor, Nat.shiftLeft_eq, runBits_some]
    omega

theorem toNat_widen (run : Option WideningRun) (b : UInt8) (h : runBits run < 2 ^ 24) :
    (Decode.widen run b).toNat = runBits run * 256 + b.toNat := by
  have hb : b.toNat < 2 ^ 8 := b.toNat_lt
  rw [toNat_widen_mod]
  omega

namespace Decode

/-- One unit of an open instruction: a widening unit lengthens the run. -/
theorem units_extendedArg (out : Array Decoded) (offset : Nat) (run : Option WideningRun)
    (a : UInt8) (rest : List UInt8) :
    units out offset run (Opcode.extendedArg.byte :: a :: rest) =
      units out (offset + 2) (some ⟨runStart offset run, widen run a⟩) rest := by
  rcases run with _ | ⟨start, bits⟩ <;> simp [units, Opcode.ofByte?_byte]

/-- Any other unit ends the instruction. -/
theorem units_opcode (out : Array Decoded) (offset : Nat) (run : Option WideningRun)
    {op : Opcode} (hop : op ≠ .extendedArg) (a : UInt8) (rest : List UInt8) :
    units out offset run (op.byte :: a :: rest) =
      units (out.push ⟨UInt32.ofNat (runStart offset run),
        UInt32.ofNat (offset + 2 - runStart offset run), op, widen run a⟩) (offset + 2) none rest := by
  rcases run with _ | ⟨start, bits⟩ <;> simp [units, Opcode.ofByte?_byte, hop]

theorem codeUnits_bound (arg : UInt32) : arg.toNat < 256 ^ codeUnits arg := by
  have h := arg.toNat_lt
  unfold codeUnits
  split
  · next hle => exact Nat.lt_of_le_of_lt (UInt32.le_iff_toNat_le.mp hle) (by decide)
  · split
    · next hle => exact Nat.lt_of_le_of_lt (UInt32.le_iff_toNat_le.mp hle) (by decide)
    · split
      · next hle => exact Nat.lt_of_le_of_lt (UInt32.le_iff_toNat_le.mp hle) (by decide)
      · exact h

theorem pow_le_of_one_lt_codeUnits {arg : UInt32} (h : 1 < codeUnits arg) :
    256 ^ (codeUnits arg - 1) ≤ arg.toNat := by
  unfold codeUnits at h ⊢
  simp only [UInt32.le_iff_toNat_le] at h ⊢
  split at h
  · omega
  · next hbyte =>
    rw [if_neg hbyte]
    have hbyte' := Nat.lt_of_not_le hbyte
    split
    · exact hbyte'
    · next hpair =>
      have hpair' := Nat.lt_of_not_le hpair
      split
      · exact hpair'
      · next htriple => exact Nat.lt_of_not_le htriple

theorem codeUnits_le_of_lt {arg : UInt32} {n : Nat} (hn : 1 ≤ n) (h : arg.toNat < 256 ^ n) :
    codeUnits arg ≤ n := by
  apply Nat.le_of_not_lt
  intro hgt
  have hwide : 1 < codeUnits arg := by omega
  have hle := pow_le_of_one_lt_codeUnits hwide
  have hpow : 256 ^ n ≤ 256 ^ (codeUnits arg - 1) := Nat.pow_le_pow_right (by decide) (by omega)
  omega

theorem div_pow_succ (n k : Nat) : n / 256 ^ (k + 1) * 256 + n / 256 ^ k % 256 = n / 256 ^ k := by
  rw [Nat.pow_succ, ← Nat.div_div_eq_div_mul]
  omega

/-- After the widening units the run stands for the operand without its lowest byte. -/
theorem units_widening (out : Array Decoded) (arg : UInt32) (tail : List UInt8) :
    ∀ (k offset : Nat) (run : Option WideningRun), runBits run = arg.toNat / 256 ^ (k + 1) →
      ∃ run' : Option WideningRun, runBits run' = arg.toNat / 256 ∧
        runStart (offset + 2 * k) run' = runStart offset run ∧
        units out offset run (((List.range k).reverse.flatMap fun j =>
          [Opcode.extendedArg.byte, operandByte arg (j + 1)]) ++ tail) =
          units out (offset + 2 * k) run' tail := by
  intro k
  induction k with
  | zero =>
    intro offset run hrun
    exact ⟨run, by simpa using hrun, by cases run <;> rfl, rfl⟩
  | succ k ih =>
    intro offset run hrun
    have hsmall : runBits run < 2 ^ 24 := by
      have hle : (256 : Nat) ^ 1 ≤ 256 ^ (k + 1 + 1) := Nat.pow_le_pow_right (by omega) (by omega)
      have hdiv : arg.toNat / 256 ^ (k + 1 + 1) ≤ arg.toNat / 256 ^ 1 :=
        Nat.div_le_div_left hle (by decide)
      have := arg.toNat_lt
      omega
    have hbits : (widen run (operandByte arg (k + 1))).toNat = arg.toNat / 256 ^ (k + 1) := by
      rw [toNat_widen run _ hsmall, hrun, toNat_operandByte]
      exact div_pow_succ _ _
    obtain ⟨run', hbits', hstart, hunits⟩ :=
      ih (offset + 2) (some ⟨runStart offset run, widen run (operandByte arg (k + 1))⟩) hbits
    refine ⟨run', hbits', ?_, ?_⟩
    · rw [show offset + 2 * (k + 1) = offset + 2 + 2 * k by omega, hstart, runStart_some]
    · rw [List.range_succ, List.reverse_append, List.reverse_singleton, List.singleton_append,
        List.flatMap_cons, List.append_assoc, List.cons_append, List.cons_append,
        List.nil_append, units_extendedArg, hunits]
      congr 1
      omega

/-- The units of an instruction are read as that instruction. -/
theorem units_encode (out : Array Decoded) (offset : Nat) {op : Opcode} (hop : op ≠ .extendedArg)
    (arg : UInt32) (tail : List UInt8) :
    units out offset none (encode op arg ++ tail) =
      units (out.push ⟨UInt32.ofNat offset, UInt32.ofNat (2 * codeUnits arg), op, arg⟩)
        (offset + 2 * codeUnits arg) none tail := by
  have hpos := codeUnits_pos arg
  have hzero : runBits none = arg.toNat / 256 ^ (codeUnits arg - 1 + 1) := by
    rw [Nat.sub_add_cancel hpos, Nat.div_eq_of_lt (codeUnits_bound arg), runBits_none]
  obtain ⟨run, hbits, hstart, hunits⟩ := units_widening out arg
    (op.byte :: operandByte arg 0 :: tail) (codeUnits arg - 1) offset none hzero
  have harg : widen run (operandByte arg 0) = arg := by
    apply UInt32.toNat_inj.mp
    have := arg.toNat_lt
    rw [toNat_widen run _ (by omega), hbits, toNat_operandByte]
    omega
  rw [encode, wideningUnits, List.append_assoc]
  refine hunits.trans ?_
  rw [units_opcode _ _ _ hop, hstart, runStart_none, harg,
    show offset + 2 * (codeUnits arg - 1) + 2 = offset + 2 * codeUnits arg by omega,
    Nat.add_sub_cancel_left]

end Decode

/-- The instructions of a body as they are found when it starts at `offset`. -/
def decodedBody (offset : Nat) : List Instruction → List Decoded
  | [] => []
  | i :: rest =>
    ⟨UInt32.ofNat offset, UInt32.ofNat i.size, i.opcode, i.arg⟩ ::
      decodedBody (offset + i.size) rest

@[simp] theorem length_decodedBody (offset : Nat) (body : List Instruction) :
    (decodedBody offset body).length = body.length := by
  induction body generalizing offset with
  | nil => rfl
  | cons i rest ih => simp [decodedBody, ih]

theorem bodySize_cons (i : Instruction) (body : List Instruction) :
    bodySize (i :: body) = i.size + bodySize body := rfl

theorem bodySize_append (body body' : List Instruction) :
    bodySize (body ++ body') = bodySize body + bodySize body' := by
  induction body with
  | nil => simp [bodySize]
  | cons i rest ih =>
    rw [List.cons_append, bodySize_cons, bodySize_cons, ih]
    omega

/-- The entry for an instruction tells the byte it starts at. -/
theorem getElem?_decodedBody (offset : Nat) (body : List Instruction) (k : Nat) :
    (decodedBody offset body)[k]? = body[k]?.map fun i =>
      ⟨UInt32.ofNat (offset + bodySize (body.take k)), UInt32.ofNat i.size, i.opcode, i.arg⟩ := by
  induction body generalizing offset k with
  | nil => simp [decodedBody]
  | cons i rest ih =>
    cases k with
    | zero => simp [decodedBody, bodySize]
    | succ k => simp [decodedBody, ih, bodySize_cons, Nat.add_assoc]

def bodyBytes (body : List Instruction) : List UInt8 := body.flatMap Instruction.bytes

theorem length_bodyBytes (body : List Instruction) : (bodyBytes body).length = bodySize body := by
  induction body with
  | nil => rfl
  | cons i rest ih =>
    rw [bodyBytes, List.flatMap_cons, List.length_append, Instruction.length_bytes, bodySize_cons]
    exact congrArg (i.size + ·) ih

theorem units_bodyBytes (out : Array Decoded) (offset : Nat) {body : List Instruction}
    (h : ∀ i ∈ body, i.opcode ≠ .extendedArg) :
    Decode.units out offset none (bodyBytes body) = .ok (out ++ (decodedBody offset body).toArray) := by
  induction body generalizing out offset with
  | nil => simp [bodyBytes, Decode.units, decodedBody]
  | cons i rest ih =>
    have hi := h i List.mem_cons_self
    rw [bodyBytes, List.flatMap_cons, Instruction.bytes, Decode.units_encode out offset hi]
    refine (ih _ _ fun j hj => h j (List.mem_cons_of_mem i hj)).trans ?_
    simp [decodedBody, Instruction.size]

theorem bodySize_even (body : List Instruction) : bodySize body % 2 = 0 := by
  induction body with
  | nil => rfl
  | cons i rest ih =>
    rw [bodySize_cons, Instruction.size]
    omega

/-- The bytes of instructions, none of them a bare widening unit, are read back as these. -/
theorem decode_bodyBytes {body : List Instruction} (h : ∀ i ∈ body, i.opcode ≠ .extendedArg) :
    decode (bodyBytes body) = .ok (decodedBody 0 body) := by
  have heven : (bodyBytes body).length % 2 = 0 := by
    rw [length_bodyBytes]
    exact bodySize_even body
  rw [decode, if_neg (by omega), units_bodyBytes #[] 0 h]
  simp [Except.map]

end Wordcode
