import Wordcode.Listing
import Wordcode.Proofs.Decoding

/-!
# Where relative jumps lead

A relative jump leads as many bytes behind its own end as its operand says. Reading wordcode of any
origin, the end of an instruction never lies behind that of the code, but the operand may be any
word; so the sum can overflow where the operand has the highest of its four bytes.
-/

set_option autoImplicit false

namespace Wordcode

/-- Where a relative jump leads to, as a number. -/
def Decoded.landing (d : Decoded) : Nat := d.offset.toNat + d.size.toNat + d.arg.toNat

/-- No instruction reaches beyond the end of the code. -/
theorem Tiles.end_le {start stop : Nat} {ds : List Decoded} (h : Tiles start ds stop) :
    start ≤ stop ∧ ∀ d ∈ ds, d.offset.toNat + d.size.toNat ≤ stop := by
  induction h with
  | nil => exact ⟨Nat.le_refl _, nofun⟩
  | cons _ _ ih =>
    refine ⟨Nat.le_trans (Nat.le_add_right _ _) ih.1, fun d hd => ?_⟩
    rcases List.mem_cons.mp hd with rfl | hd
    · exact ih.1
    · exact ih.2 d hd

/-- An instruction that was read has the units that its operand needs. -/
theorem Spelling.codeUnits_le_size {ss : List Spelling} {offset : Nat}
    (h : (ss.flatMap bytes).length < UInt32.size) {d : Decoded} (hd : d ∈ decodedAll offset ss) :
    2 * codeUnits d.arg ≤ d.size.toNat := by
  induction ss generalizing offset with
  | nil => cases hd
  | cons s ss ih =>
    rw [List.flatMap_cons, List.length_append, s.length_bytes] at h
    rcases List.mem_cons.mp hd with rfl | hd
    · have hsize : (s.decoded offset).size.toNat = s.size := UInt32.toNat_ofNat_of_lt' (by omega)
      rw [hsize]
      exact s.codeUnits_arg_le
    · exact ih (by omega) hd

namespace Decoded

theorem jumpTarget_of_relative {d : Decoded} (h : d.opcode.isRelativeJump = true) :
    d.jumpTarget =
      if d.landing < 2 ^ 32 then .ok (some (UInt32.ofNat d.landing)) else .error .overflow := by
  have habs : d.opcode.isAbsoluteJump = false := by
    by_contra hne
    rw [Bool.not_eq_false] at hne
    exact absurd h (by simp [Opcode.not_relative_of_absolute hne])
  rw [jumpTarget, habs, h]
  rfl

end Decoded

theorem Overflow.of_foldlM {α β : Type} {f : β → α → Except Overflow β} {a : α}
    (h : ∀ s, f s a = .error .overflow) {as : List α} (ha : a ∈ as) (s : β) :
    as.foldlM f s = .error .overflow := by
  induction as generalizing s with
  | nil => cases ha
  | cons a' as ih =>
    rw [List.foldlM_cons]
    rcases List.mem_cons.mp ha with rfl | ha
    · rw [h]
      rfl
    · cases f s a' with
      | error e =>
        cases e
        rfl
      | ok s' => exact ih ha s'

/-- A code object that has such a jump cannot be listed. -/
theorem CodeObject.listing_overflows {c : CodeObject} {ds : List Decoded}
    (hds : Wordcode.decode c.code = .ok ds) {d : Decoded} (hd : d ∈ ds)
    (h : d.jumpTarget = .error .overflow) : c.listing = .error .overflow := by
  have htargets : Listing.jumpTargets ds = .error .overflow :=
    Overflow.of_foldlM (fun s => by rw [h]; rfl) hd ∅
  obtain ⟨_, _, _, _, _, _, _, _, _, _, _, _, _, _, _, _, _⟩ := c
  simp only at hds
  simp only [listing, Listing.addCode, hds, Listing.instructions, htargets, bind, Except.bind]

/-- Of the two additions that the target of a relative jump takes, the first never overflows. If the
second does not either, the target is exact; that is so unless the operand is above `2 ^ 31`, for
which it has at least three widening units. A code object with a jump for which it does cannot be
listed. -/
theorem decode_landing {b : List UInt8} (h : b.length < 2 ^ 31) {ds : List Decoded}
    (hds : decode b = .ok ds) {d : Decoded} (hd : d ∈ ds)
    (hjump : d.opcode.isRelativeJump = true) :
    d.offset.toNat + d.size.toNat ≤ b.length ∧
    (d.landing < 2 ^ 32 → ∃ t, d.jumpTarget = .ok (some t) ∧ t.toNat = d.landing) ∧
    (2 ^ 32 ≤ d.landing → d.jumpTarget = .error .overflow ∧
      2 ^ 31 < d.arg.toNat ∧ 8 ≤ d.size.toNat ∧
      ∀ c : CodeObject, c.code = b → c.listing = .error .overflow) := by
  have hword : b.length < UInt32.size := Nat.lt_trans h (by decide)
  obtain ⟨ss, rfl⟩ : ∃ ss : List Spelling, b = ss.flatMap Spelling.bytes := by
    rcases decode_cases b with hss | ⟨e, _, herror⟩
    · exact hss
    · rw [herror] at hds
      cases hds
  have hread := hds
  rw [decode_spelled] at hds
  cases hds
  have hend := (tiles_decodedAll ss 0 (by rwa [Nat.zero_add])).end_le.2 d hd
  rw [Nat.zero_add] at hend
  have hunits := Spelling.codeUnits_le_size hword hd
  have htarget := Decoded.jumpTarget_of_relative hjump
  refine ⟨hend, fun hlt => ?_, fun hge => ?_⟩
  · exact ⟨_, htarget.trans (if_pos hlt), UInt32.toNat_ofNat_of_lt' hlt⟩
  · have hhigh : 2 ^ 31 < d.arg.toNat := by
      unfold Decoded.landing at hge
      omega
    have hfour : ¬ codeUnits d.arg ≤ 3 := fun hle => by
      have hbound := Nat.lt_of_lt_of_le (Decode.codeUnits_bound d.arg)
        (Nat.pow_le_pow_right (by decide) hle)
      omega
    have hover := htarget.trans (if_neg (Nat.not_lt.mpr hge))
    refine ⟨hover, hhigh, by omega, fun c hc => ?_⟩
    exact CodeObject.listing_overflows (hc ▸ hread) hd hover

/-- A jump over one unit, and behind it a jump by `0xFFFFFFF8` bytes. -/
def farthestJump : List UInt8 := [110, 2, 144, 255, 144, 255, 144, 255, 110, 248]

theorem decode_farthestJump : decode farthestJump =
    .ok [⟨0, 2, .jumpForward, 2⟩, ⟨2, 8, .jumpForward, 0xFFFFFFF8⟩] := by
  decide

theorem farthestJump_landing : farthestJump.length < 2 ^ 31 ∧
    ∃ ds, decode farthestJump = .ok ds ∧
      ∃ d ∈ ds, d.opcode.isRelativeJump = true ∧ d.landing < 2 ^ 32 ∧
        (∃ t, d.jumpTarget = .ok (some t) ∧ t.toNat = d.landing) ∧
      ∃ d ∈ ds, d.opcode.isRelativeJump = true ∧ 2 ^ 32 ≤ d.landing ∧
        d.jumpTarget = .error .overflow := by
  have hlt : farthestJump.length < 2 ^ 31 := by decide
  have hnear : (⟨0, 2, .jumpForward, 2⟩ : Decoded) ∈
      [⟨0, 2, .jumpForward, 2⟩, ⟨2, 8, .jumpForward, 0xFFFFFFF8⟩] := by decide
  have hfar : (⟨2, 8, .jumpForward, 0xFFFFFFF8⟩ : Decoded) ∈
      [⟨0, 2, .jumpForward, 2⟩, ⟨2, 8, .jumpForward, 0xFFFFFFF8⟩] := by decide
  have hle : (⟨0, 2, .jumpForward, 2⟩ : Decoded).landing < 2 ^ 32 := by decide
  have hge : 2 ^ 32 ≤ (⟨2, 8, .jumpForward, 0xFFFFFFF8⟩ : Decoded).landing := by decide
  refine ⟨hlt, _, decode_farthestJump, _, hnear, rfl, hle, ?_, _, hfar, rfl, hge, ?_⟩
  · exact (decode_landing hlt decode_farthestJump hnear rfl).2.1 hle
  · exact ((decode_landing hlt decode_farthestJump hfar rfl).2.2 hge).1

/-- The sum that the target of a relative jump takes can overflow. -/
theorem landing_exceeds_word : ¬ ∀ (b : List UInt8) (ds : List Decoded) (d : Decoded),
    b.length < 2 ^ 31 → decode b = .ok ds → d ∈ ds → d.opcode.isRelativeJump = true →
      d.landing < 2 ^ 32 := by
  intro h
  exact absurd (h farthestJump _ ⟨2, 8, .jumpForward, 0xFFFFFFF8⟩ (by decide) decode_farthestJump
    (by decide) rfl) (by decide)

end Wordcode
