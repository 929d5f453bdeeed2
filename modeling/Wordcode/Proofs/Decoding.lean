import Mathlib.Data.List.Induction
import Wordcode.Proofs.Assembly

/-!
# What reads as wordcode

Every byte string of even length is, from its start, a row of instructions with their widening
units, then perhaps a run of widening units that widen nothing, and then either its end or a byte
that is no opcode. Reading follows this division: it gives the instructions if nothing else is
there, and otherwise says what is wrong first. Written again, an instruction takes as many units as
its operand needs, which may be fewer than it had.
-/

set_option autoImplicit false

namespace Wordcode

/-- An instruction as it stands in wordcode: the operand bytes of its widening units, its opcode,
and its own operand byte. -/
structure Spelling where
  high : List UInt8
  opcode : Opcode
  low : UInt8
  not_widening : opcode ≠ .extendedArg

/-- Widening units that carry these bytes. -/
def wideningRun (high : List UInt8) : List UInt8 :=
  high.flatMap fun b => [Opcode.extendedArg.byte, b]

/-- The number that operand bytes stand for, highest first, behind those of a number before. -/
def appendBytes (n : Nat) (bs : List UInt8) : Nat := bs.foldl (fun n b => n * 256 + b.toNat) n

theorem appendBytes_concat (n : Nat) (bs : List UInt8) (b : UInt8) :
    appendBytes n (bs ++ [b]) = appendBytes n bs * 256 + b.toNat := by
  rw [appendBytes, List.foldl_append]
  rfl

theorem appendBytes_zero_lt (bs : List UInt8) : appendBytes 0 bs < 256 ^ bs.length := by
  induction bs using List.reverseRecOn with
  | nil => exact Nat.one_pos
  | append_singleton bs b ih =>
    have hb : b.toNat < 256 := b.toNat_lt
    rw [appendBytes_concat, List.length_append, List.length_singleton, Nat.pow_succ]
    omega

theorem length_wideningRun (high : List UInt8) : (wideningRun high).length = 2 * high.length := by
  induction high with
  | nil => rfl
  | cons b rest ih =>
    rw [wideningRun, List.flatMap_cons, List.length_append, List.length_cons]
    simp only [wideningRun] at ih
    simp only [List.length_cons, List.length_nil, ih]
    omega

namespace Spelling

def bytes (s : Spelling) : List UInt8 := wideningRun s.high ++ [s.opcode.byte, s.low]

/-- The bytes that it covers. -/
def size (s : Spelling) : Nat := 2 * (s.high.length + 1)

/-- The operand, of which only the lowest four bytes are kept. -/
def arg (s : Spelling) : UInt32 := UInt32.ofNat (appendBytes 0 (s.high ++ [s.low]))

/-- What is found where it starts at `offset`. -/
def decoded (offset : Nat) (s : Spelling) : Decoded :=
  ⟨UInt32.ofNat offset, UInt32.ofNat s.size, s.opcode, s.arg⟩

def decodedAll (offset : Nat) : List Spelling → List Decoded
  | [] => []
  | s :: rest => s.decoded offset :: decodedAll (offset + s.size) rest

theorem length_bytes (s : Spelling) : s.bytes.length = s.size := by
  rw [bytes, List.length_append, length_wideningRun, size]
  rfl

end Spelling

namespace Decode

/-- A run of widening units is gathered. -/
theorem units_wideningRun (out : Array Decoded) (rest : List UInt8) (bs : List UInt8) (n : Nat)
    (offset : Nat) (run : Option WideningRun) (hrun : runBits run = n % 2 ^ 32) :
    ∃ run' : Option WideningRun, runBits run' = appendBytes n bs % 2 ^ 32 ∧
      runStart (offset + 2 * bs.length) run' = runStart offset run ∧
      (run'.isSome = (run.isSome || !bs.isEmpty)) ∧
      units out offset run (wideningRun bs ++ rest) =
        units out (offset + 2 * bs.length) run' rest := by
  induction bs generalizing n offset run with
  | nil => exact ⟨run, hrun, rfl, by simp, rfl⟩
  | cons b bs ih =>
    have hbits : runBits (some ⟨runStart offset run, widen run b⟩) =
        (n * 256 + b.toNat) % 2 ^ 32 := by
      rw [runBits_some, toNat_widen_mod, hrun]
      omega
    obtain ⟨run', hbits', hstart, hsome, hunits⟩ := ih _ (offset + 2) _ hbits
    have hstop : offset + 2 * (b :: bs).length = offset + 2 + 2 * bs.length := by
      rw [List.length_cons]
      omega
    rw [hstop]
    refine ⟨run', hbits', ?_, by simpa using hsome, ?_⟩
    · rw [hstart, runStart_some]
    · rw [← hunits]
      exact units_extendedArg out offset run b _

theorem units_unknown (out : Array Decoded) (offset : Nat) (run : Option WideningRun) {x : UInt8}
    (h : Opcode.ofByte? x = none) (a : UInt8) (rest : List UInt8) :
    units out offset run (x :: a :: rest) = .error (.unknownOpcode offset x) := by
  simp [units, h]

/-- One instruction is read. -/
theorem units_spelling (out : Array Decoded) (rest : List UInt8) (offset : Nat) (s : Spelling) :
    units out offset none (s.bytes ++ rest) =
      units (out.push (s.decoded offset)) (offset + s.size) none rest := by
  obtain ⟨run, hbits, hstart, _, hunits⟩ := units_wideningRun out
    (s.opcode.byte :: s.low :: rest) s.high 0 offset none rfl
  have harg : widen run s.low = s.arg := by
    apply UInt32.toNat_inj.mp
    rw [toNat_widen_mod, hbits, Spelling.arg, appendBytes_concat, UInt32.toNat_ofNat']
    omega
  rw [Spelling.bytes, List.append_assoc]
  refine hunits.trans ?_
  rw [units_opcode _ _ _ s.not_widening, hstart, runStart_none, harg, Spelling.decoded,
    Spelling.size]
  have hstop : offset + 2 * s.high.length + 2 = offset + 2 * (s.high.length + 1) := by omega
  rw [hstop, Nat.add_sub_cancel_left]

theorem units_spelled (out : Array Decoded) (rest : List UInt8) (offset : Nat)
    (ss : List Spelling) :
    units out offset none (ss.flatMap Spelling.bytes ++ rest) =
      units (out ++ (Spelling.decodedAll offset ss).toArray)
        (offset + (ss.flatMap Spelling.bytes).length) none rest := by
  induction ss generalizing out offset with
  | nil => simp [Spelling.decodedAll]
  | cons s ss ih =>
    rw [List.flatMap_cons, List.append_assoc, units_spelling, ih, List.length_append,
      s.length_bytes, Nat.add_assoc]
    simp [Spelling.decodedAll]

end Decode

theorem exists_spelled : ∀ b : List UInt8, b.length % 2 = 0 →
    ∃ (ss : List Spelling) (run rest : List UInt8),
      b = ss.flatMap Spelling.bytes ++ (wideningRun run ++ rest) ∧
      (rest = [] ∨ ∃ x a more, rest = x :: a :: more ∧ Opcode.ofByte? x = none)
  | [], _ => ⟨[], [], [], rfl, .inl rfl⟩
  | [_], h => by cases h
  | x :: a :: more, h => by
    cases hop : Opcode.ofByte? x with
    | none => exact ⟨[], [], x :: a :: more, rfl, .inr ⟨x, a, more, rfl, hop⟩⟩
    | some op =>
      obtain ⟨ss, run, rest, rfl, hrest⟩ := exists_spelled more (by
        simp only [List.length_cons] at h
        omega)
      obtain rfl := Opcode.byte_of_ofByte? hop
      by_cases hext : op = .extendedArg
      · subst hext
        cases ss with
        | nil => exact ⟨[], a :: run, rest, rfl, hrest⟩
        | cons s ss =>
          refine ⟨{ s with high := a :: s.high } :: ss, run, rest, ?_, hrest⟩
          simp [Spelling.bytes, wideningRun]
      · refine ⟨⟨[], op, a, hext⟩ :: ss, run, rest, ?_, hrest⟩
        simp [Spelling.bytes, wideningRun]

/-- Every unit starts with an opcode. -/
def KnownOpcodes (b : List UInt8) : Prop :=
  ∀ k x, b[2 * k]? = some x → (Opcode.ofByte? x).isSome = true

/-- Whole units that all start with an opcode, the last one with no widening opcode. -/
structure WellFormed (b : List UInt8) : Prop where
  even : b.length % 2 = 0
  known : KnownOpcodes b
  last : b[b.length - 2]? ≠ some Opcode.extendedArg.byte

/-- What is wrong with a byte string: its length is odd; or else unit `k` is the first that starts
with no opcode; or else all units from number `k` on widen nothing, and the one before does not. -/
inductive Refused (b : List UInt8) : DecodeError → Prop where
  | oddLength : b.length % 2 = 1 → Refused b (.oddLength b.length)
  | unknownOpcode {k : Nat} {x : UInt8} : b.length % 2 = 0 → b[2 * k]? = some x →
      Opcode.ofByte? x = none →
      (∀ j < k, ∀ y, b[2 * j]? = some y → (Opcode.ofByte? y).isSome = true) →
      Refused b (.unknownOpcode (2 * k) x)
  | danglingExtendedArg {k : Nat} : b.length % 2 = 0 → KnownOpcodes b → 2 * k < b.length →
      (∀ j, k ≤ j → 2 * j < b.length → b[2 * j]? = some Opcode.extendedArg.byte) →
      (∀ j, k = j + 1 → b[2 * j]? ≠ some Opcode.extendedArg.byte) →
      Refused b (.danglingExtendedArg (2 * k))

theorem Refused.unique {b : List UInt8} {e e' : DecodeError} (h : Refused b e)
    (h' : Refused b e') : e = e' := by
  cases h with
  | oddLength hodd =>
    cases h' with
    | oddLength _ => rfl
    | unknownOpcode heven => omega
    | danglingExtendedArg heven => omega
  | @unknownOpcode k x heven hx hnone hfirst =>
    cases h' with
    | oddLength hodd => omega
    | @unknownOpcode k' x' _ hx' hnone' hfirst' =>
      rcases Nat.lt_trichotomy k k' with hlt | rfl | hlt
      · have := hfirst' k hlt x hx
        rw [hnone] at this
        cases this
      · rw [Option.some.inj (hx.symm.trans hx')]
      · have := hfirst k' hlt x' hx'
        rw [hnone'] at this
        cases this
    | danglingExtendedArg _ hknown =>
      have := hknown k x hx
      rw [hnone] at this
      cases this
  | @danglingExtendedArg k heven hknown hlt hall hbefore =>
    cases h' with
    | oddLength hodd => omega
    | @unknownOpcode k' x' _ hx' hnone' =>
      have := hknown k' x' hx'
      rw [hnone'] at this
      cases this
    | @danglingExtendedArg k' _ _ hlt' hall' hbefore' =>
      rcases Nat.lt_trichotomy k k' with hk | rfl | hk
      · exact absurd (hall (k' - 1) (by omega) (by omega)) (hbefore' (k' - 1) (by omega))
      · rfl
      · exact absurd (hall' (k - 1) (by omega) (by omega)) (hbefore (k - 1) (by omega))

theorem WellFormed.not_refused {b : List UInt8} (h : WellFormed b) {e : DecodeError} :
    ¬ Refused b e := by
  intro hrefused
  have heven := h.even
  cases hrefused with
  | oddLength hodd => omega
  | unknownOpcode _ hx hnone =>
    have := h.known _ _ hx
    rw [hnone] at this
    cases this
  | @danglingExtendedArg k _ _ hlt hall _ =>
    apply h.last
    have hlast := hall (b.length / 2 - 1) (by omega) (by omega)
    have hplace : 2 * (b.length / 2 - 1) = b.length - 2 := by omega
    rwa [hplace] at hlast

theorem getElem?_append_unit {pre : List UInt8} {m : Nat} (h : pre.length = 2 * m)
    (b : List UInt8) (k : Nat) : (pre ++ b)[2 * (m + k)]? = b[2 * k]? := by
  rw [List.getElem?_append_right (by omega), h, Nat.mul_add, Nat.add_sub_cancel_left]

theorem getElem?_wideningRun {bs : List UInt8} {k : Nat} (hk : k < bs.length) (b : List UInt8) :
    (wideningRun bs ++ b)[2 * k]? = some Opcode.extendedArg.byte := by
  induction bs generalizing k with
  | nil => cases hk
  | cons x bs ih =>
    cases k with
    | zero => rfl
    | succ k => exact ih (Nat.lt_of_succ_lt_succ hk)

namespace KnownOpcodes

theorem nil : KnownOpcodes [] := by
  intro k x hx
  cases hx

theorem unit {b : List UInt8} (h : KnownOpcodes b) (op : Opcode) (a : UInt8) :
    KnownOpcodes (op.byte :: a :: b) := by
  intro k x hx
  cases k with
  | zero =>
    obtain rfl : op.byte = x := by simpa using hx
    rw [Opcode.ofByte?_byte]
    rfl
  | succ k => exact h k x hx

theorem wideningRun {b : List UInt8} (h : KnownOpcodes b) (bs : List UInt8) :
    KnownOpcodes (wideningRun bs ++ b) := by
  induction bs with
  | nil => exact h
  | cons x bs ih => exact ih.unit .extendedArg x

theorem spelled {b : List UInt8} (h : KnownOpcodes b) (ss : List Spelling) :
    KnownOpcodes (ss.flatMap Spelling.bytes ++ b) := by
  induction ss with
  | nil => exact h
  | cons s ss ih =>
    rw [List.flatMap_cons, Spelling.bytes, List.append_assoc, List.append_assoc]
    exact (ih.unit s.opcode s.low).wideningRun s.high

end KnownOpcodes

theorem exists_length_spelled (ss : List Spelling) :
    ∃ m, (ss.flatMap Spelling.bytes).length = 2 * m := by
  induction ss with
  | nil => exact ⟨0, rfl⟩
  | cons s ss ih =>
    obtain ⟨m, hm⟩ := ih
    refine ⟨s.high.length + 1 + m, ?_⟩
    rw [List.flatMap_cons, List.length_append, s.length_bytes, hm, Spelling.size]
    omega

/-- The last unit of instructions is no widening unit. -/
theorem last_spelled (ss : List Spelling) :
    (ss.flatMap Spelling.bytes)[(ss.flatMap Spelling.bytes).length - 2]? ≠
      some Opcode.extendedArg.byte := by
  rcases List.eq_nil_or_concat ss with rfl | ⟨ss, s, rfl⟩
  · simp
  · intro hlast
    apply s.not_widening
    apply Opcode.byte_injective
    simpa [Spelling.bytes, ← List.append_assoc] using hlast

/-- Instructions are read whatever follows them. -/
theorem decode_append (ss : List Spelling) {rest : List UInt8} (heven : rest.length % 2 = 0) :
    decode (ss.flatMap Spelling.bytes ++ rest) =
      (Decode.units (Spelling.decodedAll 0 ss).toArray (ss.flatMap Spelling.bytes).length none
        rest).map Array.toList := by
  obtain ⟨m, hm⟩ := exists_length_spelled ss
  have hlen : (ss.flatMap Spelling.bytes ++ rest).length % 2 = 0 := by
    rw [List.length_append]
    omega
  have hunits := Decode.units_spelled #[] rest 0 ss
  rw [Nat.zero_add, Array.empty_append] at hunits
  rw [decode, if_neg (by omega), hunits]

theorem decode_spelled (ss : List Spelling) :
    decode (ss.flatMap Spelling.bytes) = .ok (Spelling.decodedAll 0 ss) := by
  have hread := @decode_append ss [] rfl
  rw [List.append_nil] at hread
  rw [hread, Decode.units]
  simp [Except.map]

theorem wellFormed_spelled (ss : List Spelling) : WellFormed (ss.flatMap Spelling.bytes) := by
  obtain ⟨m, hm⟩ := exists_length_spelled ss
  have hknown := KnownOpcodes.nil.spelled ss
  rw [List.append_nil] at hknown
  exact ⟨by omega, hknown, last_spelled ss⟩

/-- A run of widening units at the end is refused at its start. -/
theorem refused_of_run (ss : List Spelling) {run : List UInt8} (h : run ≠ []) :
    ∃ e, Refused (ss.flatMap Spelling.bytes ++ wideningRun run) e ∧
      decode (ss.flatMap Spelling.bytes ++ wideningRun run) = .error e := by
  obtain ⟨m, hm⟩ := exists_length_spelled ss
  have hrun := length_wideningRun run
  have hpos : 0 < run.length := List.length_pos_iff.mpr h
  have heven : (ss.flatMap Spelling.bytes ++ wideningRun run).length % 2 = 0 := by
    rw [List.length_append]
    omega
  have hknown := (KnownOpcodes.nil.wideningRun run).spelled ss
  rw [List.append_nil] at hknown
  refine ⟨.danglingExtendedArg (2 * m), .danglingExtendedArg heven hknown ?_ ?_ ?_, ?_⟩
  · rw [List.length_append]
    omega
  · intro j hj hlt
    obtain ⟨k, rfl⟩ := Nat.exists_eq_add_of_le hj
    rw [List.length_append] at hlt
    have hk : k < run.length := by omega
    have hget := getElem?_wideningRun hk []
    rw [List.append_nil] at hget
    rw [getElem?_append_unit hm, hget]
  · rintro j rfl
    have hplace : 2 * j = (ss.flatMap Spelling.bytes).length - 2 := by omega
    rw [List.getElem?_append_left (by omega), hplace]
    exact last_spelled ss
  · obtain ⟨run', _, hstart, hsome, hunits⟩ := Decode.units_wideningRun
      (Spelling.decodedAll 0 ss).toArray [] run 0 (2 * m) none rfl
    rw [List.append_nil] at hunits
    rw [decode_append ss (by omega), hm, hunits]
    cases run' with
    | none =>
      have hempty : run.isEmpty = true := by simpa using hsome
      exact absurd (List.isEmpty_iff.mp hempty) h
    | some r =>
      obtain ⟨start, bits⟩ := r
      rw [runStart_some, runStart_none] at hstart
      rw [hstart]
      rfl

/-- A byte that is no opcode is refused if none stands before it. -/
theorem refused_of_unknown (ss : List Spelling) (run : List UInt8) {x a : UInt8}
    {more : List UInt8} (h : Opcode.ofByte? x = none) (heven : more.length % 2 = 0) :
    ∃ e, Refused (ss.flatMap Spelling.bytes ++ (wideningRun run ++ x :: a :: more)) e ∧
      decode (ss.flatMap Spelling.bytes ++ (wideningRun run ++ x :: a :: more)) = .error e := by
  obtain ⟨m, hm⟩ := exists_length_spelled ss
  have hrun := length_wideningRun run
  have hrest : (wideningRun run ++ x :: a :: more).length % 2 = 0 := by
    simp only [List.length_append, List.length_cons]
    omega
  have hlen :
      (ss.flatMap Spelling.bytes ++ (wideningRun run ++ x :: a :: more)).length % 2 = 0 := by
    rw [List.length_append]
    omega
  have hpre : (ss.flatMap Spelling.bytes ++ wideningRun run).length = 2 * (m + run.length) := by
    rw [List.length_append]
    omega
  have hknown := (KnownOpcodes.nil.wideningRun run).spelled ss
  rw [List.append_nil] at hknown
  refine ⟨.unknownOpcode (2 * (m + run.length)) x, .unknownOpcode hlen ?_ h ?_, ?_⟩
  · have hget := getElem?_append_unit hpre (x :: a :: more) 0
    rw [List.append_assoc] at hget
    exact hget
  · intro j hj y hy
    rw [← List.append_assoc, List.getElem?_append_left (by omega)] at hy
    exact hknown j y hy
  · obtain ⟨run', _, _, _, hunits⟩ := Decode.units_wideningRun
      (Spelling.decodedAll 0 ss).toArray (x :: a :: more) run 0 (2 * m) none rfl
    rw [decode_append ss hrest, hm, hunits, Decode.units_unknown _ _ _ h, Nat.mul_add]
    rfl

/-- Either a byte string spells instructions, and these are read, or it is refused. -/
theorem decode_cases (b : List UInt8) :
    (∃ ss : List Spelling, b = ss.flatMap Spelling.bytes) ∨
      ∃ e, Refused b e ∧ decode b = .error e := by
  by_cases heven : b.length % 2 = 0
  · obtain ⟨ss, run, rest, rfl, rfl | ⟨x, a, more, rfl, hnone⟩⟩ := exists_spelled b heven
    · rw [List.append_nil]
      cases run with
      | nil => exact .inl ⟨ss, List.append_nil _⟩
      | cons a run => exact .inr (refused_of_run ss (List.cons_ne_nil a run))
    · refine .inr (refused_of_unknown ss run hnone ?_)
      obtain ⟨m, hm⟩ := exists_length_spelled ss
      have hrun := length_wideningRun run
      simp only [List.length_append, List.length_cons] at heven
      omega
  · refine .inr ⟨_, .oddLength (by omega), ?_⟩
    rw [decode, if_pos heven]

/-- The ranges of instructions follow each other from one offset to another, none of them empty. -/
inductive Tiles : Nat → List Decoded → Nat → Prop where
  | nil {stop : Nat} : Tiles stop [] stop
  | cons {stop : Nat} {d : Decoded} {ds : List Decoded} : 0 < d.size.toNat →
      Tiles (d.offset.toNat + d.size.toNat) ds stop → Tiles d.offset.toNat (d :: ds) stop

theorem tiles_decodedAll (ss : List Spelling) (offset : Nat)
    (h : offset + (ss.flatMap Spelling.bytes).length < UInt32.size) :
    Tiles offset (Spelling.decodedAll offset ss)
      (offset + (ss.flatMap Spelling.bytes).length) := by
  induction ss generalizing offset with
  | nil => exact .nil
  | cons s ss ih =>
    rw [List.flatMap_cons, List.length_append, s.length_bytes, ← Nat.add_assoc] at h ⊢
    have hoffset : (s.decoded offset).offset.toNat = offset :=
      UInt32.toNat_ofNat_of_lt' (by omega)
    have hsize : (s.decoded offset).size.toNat = s.size := UInt32.toNat_ofNat_of_lt' (by omega)
    have htiles := ih (offset + s.size) h
    have hcons : Tiles (s.decoded offset).offset.toNat (s.decoded offset ::
        Spelling.decodedAll (offset + s.size) ss)
        (offset + s.size + (ss.flatMap Spelling.bytes).length) := by
      refine .cons ?_ ?_
      · rw [hsize, Spelling.size]
        omega
      · rw [hoffset, hsize]
        exact htiles
    rwa [hoffset] at hcons

/-- What an instruction does, wherever it stands. -/
def Decoded.operation (d : Decoded) : Opcode × UInt32 := (d.opcode, d.arg)

/-- The wordcode that assembly writes for opcodes with their operands. -/
def wordcode (ops : List (Opcode × UInt32)) : List UInt8 :=
  ((ops.map fun op => (⟨op.1, op.2, none, 0⟩ : Instruction)).foldl
    (Assembly.Output.write 0) {}).code.toList

theorem wordcode_eq (ops : List (Opcode × UInt32)) :
    wordcode ops = ops.flatMap fun op => encode op.1 op.2 := by
  rw [wordcode, Assembly.Output.toList_foldl_write, bodyBytes, List.flatMap_map]
  rfl

/-- What is written reads back. -/
theorem decode_wordcode {ops : List (Opcode × UInt32)} (h : ∀ op ∈ ops, op.1 ≠ .extendedArg) :
    ∃ ds, decode (wordcode ops) = .ok ds ∧ ds.map Decoded.operation = ops := by
  have hbody (offset : Nat) : (decodedBody offset
      (ops.map fun op => (⟨op.1, op.2, none, 0⟩ : Instruction))).map Decoded.operation = ops := by
    induction ops generalizing offset with
    | nil => rfl
    | cons op ops ih =>
      have hrest := fun o ho => h o (List.mem_cons_of_mem op ho)
      rw [List.map_cons, decodedBody, List.map_cons, ih hrest]
      rfl
  refine ⟨_, ?_, hbody 0⟩
  rw [wordcode, Assembly.Output.toList_foldl_write]
  apply decode_bodyBytes
  intro i hi
  obtain ⟨op, hop, rfl⟩ := List.mem_map.mp hi
  exact h op hop

/-- The digits of a number that bytes stand for are these bytes. -/
theorem map_digits (bs : List UInt8) :
    (List.range bs.length).reverse.map (fun k => UInt8.ofNat (appendBytes 0 bs / 256 ^ k)) =
      bs := by
  induction bs using List.reverseRecOn with
  | nil => rfl
  | append_singleton bs b ih =>
    have hb : b.toNat < 256 := b.toNat_lt
    rw [List.length_append, List.length_singleton, List.range_succ_eq_map, List.reverse_cons,
      ← List.map_reverse, List.map_append, List.map_map, appendBytes_concat]
    congr 1
    · refine Eq.trans (List.map_congr_left fun k _ => ?_) ih
      have hdiv : (appendBytes 0 bs * 256 + b.toNat) / 256 = appendBytes 0 bs := by omega
      rw [Function.comp_apply, Nat.pow_succ', ← Nat.div_div_eq_div_mul, hdiv]
    · have hlast : UInt8.ofNat (appendBytes 0 bs * 256 + b.toNat) = b := by
        apply UInt8.toNat_inj.mp
        rw [UInt8.toNat_ofNat']
        omega
      rw [List.map_singleton, Nat.pow_zero, Nat.div_one, hlast]

namespace Spelling

/-- The operand needs no more units than it has. -/
theorem codeUnits_arg_le (s : Spelling) : 2 * codeUnits s.arg ≤ s.size := by
  have hlt := appendBytes_zero_lt (s.high ++ [s.low])
  rw [List.length_append, List.length_singleton] at hlt
  apply Nat.mul_le_mul_left
  apply Decode.codeUnits_le_of_lt (Nat.succ_pos _)
  rw [arg, UInt32.toNat_ofNat']
  exact Nat.lt_of_le_of_lt (Nat.mod_le _ _) hlt

theorem encode_eq_bytes {s : Spelling} (h : 2 * codeUnits s.arg = s.size) :
    encode s.opcode s.arg = s.bytes := by
  have hunits : codeUnits s.arg = s.high.length + 1 := Nat.eq_of_mul_eq_mul_left (by decide) h
  have hle := codeUnits_le s.arg
  have hvalue : s.arg.toNat = appendBytes 0 s.high * 256 + s.low.toNat := by
    have hlt := appendBytes_zero_lt (s.high ++ [s.low])
    have hpow : 256 ^ (s.high ++ [s.low]).length ≤ 256 ^ 4 :=
      Nat.pow_le_pow_right (by decide) (by simpa [← hunits] using hle)
    rw [appendBytes_concat] at hlt
    rw [arg, appendBytes_concat, UInt32.toNat_ofNat']
    omega
  have hlow : s.low.toNat < 256 := s.low.toNat_lt
  have hhigh : (List.range s.high.length).reverse.map (fun k => operandByte s.arg (k + 1)) =
      s.high := by
    refine Eq.trans (List.map_congr_left fun k _ => ?_) (map_digits s.high)
    have hdiv : (appendBytes 0 s.high * 256 + s.low.toNat) / 256 = appendBytes 0 s.high := by omega
    apply UInt8.toNat_inj.mp
    rw [toNat_operandByte, UInt8.toNat_ofNat', hvalue, Nat.pow_succ', ← Nat.div_div_eq_div_mul,
      hdiv]
  have hfirst : operandByte s.arg 0 = s.low := by
    apply UInt8.toNat_inj.mp
    rw [toNat_operandByte, hvalue]
    omega
  rw [encode, hfirst, wideningUnits, hunits, Nat.add_sub_cancel, bytes]
  conv_rhs => rw [← hhigh, wideningRun, List.flatMap_map]

theorem length_flatMap_encode_le (ss : List Spelling) :
    (ss.flatMap fun s => encode s.opcode s.arg).length ≤ (ss.flatMap bytes).length := by
  induction ss with
  | nil => exact Nat.le_refl 0
  | cons s ss ih =>
    have hs := s.codeUnits_arg_le
    rw [List.flatMap_cons, List.flatMap_cons, List.length_append, List.length_append,
      length_encode, s.length_bytes]
    omega

/-- Writing again changes nothing exactly if every instruction was as narrow as its operand. -/
theorem flatMap_encode_eq_iff (ss : List Spelling) :
    (ss.flatMap fun s => encode s.opcode s.arg) = ss.flatMap bytes ↔
      ∀ s ∈ ss, s.size = 2 * codeUnits s.arg := by
  constructor
  · intro h
    induction ss with
    | nil => simp
    | cons s ss ih =>
      have hs := s.codeUnits_arg_le
      have hrest := length_flatMap_encode_le ss
      rw [List.flatMap_cons, List.flatMap_cons] at h
      have hlen := congrArg List.length h
      rw [List.length_append, List.length_append, length_encode, s.length_bytes] at hlen
      have hsize : s.size = 2 * codeUnits s.arg := by omega
      obtain ⟨_, htail⟩ := List.append_inj h (by rw [length_encode, s.length_bytes, hsize])
      exact List.forall_mem_cons.mpr ⟨hsize, ih htail⟩
  · intro h
    induction ss with
    | nil => rfl
    | cons s ss ih =>
      obtain ⟨hs, hss⟩ := List.forall_mem_cons.mp h
      rw [List.flatMap_cons, List.flatMap_cons, encode_eq_bytes hs.symm, ih hss]

theorem wordcode_decodedAll (ss : List Spelling) (offset : Nat) :
    wordcode ((decodedAll offset ss).map Decoded.operation) =
      ss.flatMap fun s => encode s.opcode s.arg := by
  rw [wordcode_eq]
  induction ss generalizing offset with
  | nil => rfl
  | cons s ss ih =>
    rw [decodedAll, List.map_cons, List.flatMap_cons, ih, List.flatMap_cons]
    rfl

theorem forall_decodedAll_iff (ss : List Spelling) (offset : Nat)
    (h : (ss.flatMap bytes).length < UInt32.size) :
    (∀ d ∈ decodedAll offset ss, d.size.toNat = 2 * codeUnits d.arg) ↔
      ∀ s ∈ ss, s.size = 2 * codeUnits s.arg := by
  induction ss generalizing offset with
  | nil => simp [decodedAll]
  | cons s ss ih =>
    rw [List.flatMap_cons, List.length_append, s.length_bytes] at h
    have hsize : (s.decoded offset).size.toNat = s.size := UInt32.toNat_ofNat_of_lt' (by omega)
    rw [decodedAll, List.forall_mem_cons, List.forall_mem_cons, ih _ (by omega), hsize]
    rfl

end Spelling

/-- Reading accepts exactly well-formed wordcode and says what is wrong with any other byte string.
The instructions that are read cover the bytes without gap or overlap. What assembly writes reads
back; and what is read, written again, is never longer, and the same exactly if no instruction had
more units than its operand needs. -/
theorem decode_exact {b : List UInt8} (h : b.length < UInt32.size) :
    ((∃ ds, decode b = .ok ds) ↔ WellFormed b) ∧
    (∀ e, decode b = .error e ↔ Refused b e) ∧
    (∀ ds, decode b = .ok ds → Tiles 0 ds b.length ∧
      (wordcode (ds.map Decoded.operation)).length ≤ b.length ∧
      (wordcode (ds.map Decoded.operation) = b ↔
        ∀ d ∈ ds, d.size.toNat = 2 * codeUnits d.arg)) ∧
    ∀ ops : List (Opcode × UInt32), (∀ op ∈ ops, op.1 ≠ .extendedArg) →
      ∃ ds, decode (wordcode ops) = .ok ds ∧ ds.map Decoded.operation = ops := by
  refine ⟨?_, ?_, ?_, fun ops => decode_wordcode⟩
  · rcases decode_cases b with ⟨ss, rfl⟩ | ⟨e, hrefused, herror⟩
    · exact ⟨fun _ => wellFormed_spelled ss, fun _ => ⟨_, decode_spelled ss⟩⟩
    · rw [herror]
      constructor
      · rintro ⟨ds, hds⟩
        cases hds
      · intro hwell
        exact absurd hrefused hwell.not_refused
  · intro e
    rcases decode_cases b with ⟨ss, rfl⟩ | ⟨e', hrefused, herror⟩
    · rw [decode_spelled]
      constructor
      · intro herror
        cases herror
      · intro hrefused
        exact absurd hrefused (wellFormed_spelled ss).not_refused
    · rw [herror]
      constructor
      · rintro ⟨⟩
        exact hrefused
      · intro hrefused'
        rw [hrefused.unique hrefused']
  · intro ds hds
    rcases decode_cases b with ⟨ss, rfl⟩ | ⟨e, _, herror⟩
    · rw [decode_spelled] at hds
      cases hds
      rw [Spelling.wordcode_decodedAll, Spelling.forall_decodedAll_iff ss 0 h,
        Spelling.flatMap_encode_eq_iff]
      have htiles := tiles_decodedAll ss 0 (by rwa [Nat.zero_add])
      rw [Nat.zero_add] at htiles
      exact ⟨htiles, Spelling.length_flatMap_encode_le ss, Iff.rfl⟩
    · rw [herror] at hds
      cases hds

/-- A load whose operand 5 stands behind a widening unit that adds nothing, and a return. -/
theorem redundantWidening_decode_exact : [144, 0, 100, 5, 83, 0].length < UInt32.size ∧
    ∃ ds, decode [144, 0, 100, 5, 83, 0] = .ok ds ∧ Tiles 0 ds 6 ∧
      wordcode (ds.map Decoded.operation) ≠ [144, 0, 100, 5, 83, 0] := by
  have hlt : [144, 0, 100, 5, 83, 0].length < UInt32.size := by decide
  obtain ⟨_, _, hread, _⟩ := @decode_exact [144, 0, 100, 5, 83, 0] hlt
  have hok : decode [144, 0, 100, 5, 83, 0] =
      .ok [⟨0, 4, .loadConst, 5⟩, ⟨4, 2, .returnValue, 0⟩] := by decide
  obtain ⟨htiles, _, hsame⟩ := hread _ hok
  refine ⟨hlt, _, hok, htiles, ?_⟩
  rw [ne_eq, hsame]
  decide

end Wordcode
