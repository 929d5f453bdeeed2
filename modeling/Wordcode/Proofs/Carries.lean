import Mathlib.Algebra.Group.Nat.Defs
import Wordcode.Wire.Field
import Wordcode.Wire.Reader

/-!
# Reading what was written

A reader reads bytes as a value if it finds the value in front of whatever follows them, and if
every shorter beginning of them is too short for it. Both are kept when one reader takes over from
another, so they hold of a value as soon as they hold of its parts.

Readers of nested values have a budget of levels. It is as large as the input, and every level
begins with a part that takes at least a byte: a value that is there in full does not use it up, and
for one that is cut off it is used up no earlier than the input.
-/

set_option autoImplicit false

namespace Wordcode.Wire

/-- On no more bytes than `budget`, `r` finds `a` in front of what follows `bs`, and comes to the
end of every shorter beginning of `bs`. -/
structure Reads {α : Type} (budget : Nat) (r : Reader α) (a : α) (bs : List UInt8) : Prop where
  whole : bs.length ≤ budget → ∀ rest, r (bs ++ rest) = .ok (a, rest)
  short : ∀ p, p <+: bs → p ≠ bs → p.length ≤ budget → r p = .error .unexpectedEnd

namespace Reads
open Reader

variable {α β : Type} {budget : Nat} {r : Reader α} {a : α} {bs bs' : List UInt8}

/-- A shorter beginning of two parts ends in the first one or behind it. -/
theorem short_append {p : List UInt8} (hp : p <+: bs ++ bs') (hne : p ≠ bs ++ bs') :
    (p <+: bs ∧ p ≠ bs) ∨ ∃ q, p = bs ++ q ∧ q <+: bs' ∧ q ≠ bs' := by
  rcases List.prefix_or_prefix_of_prefix hp (List.prefix_append bs bs') with hshort | ⟨q, rfl⟩
  · by_cases heq : p = bs
    · subst heq
      exact .inr ⟨[], by simp, List.nil_prefix, fun h => hne (by simp [← h])⟩
    · exact .inl ⟨hshort, heq⟩
  · exact .inr ⟨q, rfl, (List.prefix_append_right_inj bs).mp hp, fun h => hne (h ▸ rfl)⟩

theorem bind_ok {k : α → Reader β} {input rest : List UInt8} (h : r input = .ok (a, rest)) :
    (r >>= k) input = k a rest := by
  show (r input >>= fun p => k p.1 p.2) = _
  rw [h]
  rfl

theorem bind_error {k : α → Reader β} {input : List UInt8} {e : ReadError}
    (h : r input = .error e) : (r >>= k) input = .error e := by
  show (r input >>= fun p => k p.1 p.2) = _
  rw [h]
  rfl

protected theorem pure (budget : Nat) (a : α) : Reads budget (pure a : Reader α) a [] where
  whole _ _ := rfl
  short _ hp hne _ := absurd (List.prefix_nil.mp hp) hne

protected theorem bind {k : α → Reader β} {b : β} (h : Reads budget r a bs)
    (h' : Reads budget (k a) b bs') : Reads budget (r >>= k) b (bs ++ bs') where
  whole hle rest := by
    rw [List.length_append] at hle
    rw [List.append_assoc, bind_ok (h.whole (by omega) _)]
    exact h'.whole (by omega) rest
  short p hp hne hle := by
    rcases short_append hp hne with ⟨hp, hne⟩ | ⟨q, rfl, hq, hne⟩
    · exact bind_error (h.short p hp hne hle)
    · rw [List.length_append] at hle
      rw [bind_ok (h.whole (by omega) q)]
      exact h'.short q hq hne (by omega)

/-- Behind a part that takes at least a byte one level less will do. -/
theorem bind_succ {k : α → Reader β} {b : β} (h : Reads (budget + 1) r a bs) (hpos : bs ≠ [])
    (h' : Reads budget (k a) b bs') : Reads (budget + 1) (r >>= k) b (bs ++ bs') where
  whole hle rest := by
    have := List.length_pos_iff.mpr hpos
    rw [List.length_append] at hle
    rw [List.append_assoc, bind_ok (h.whole (by omega) _)]
    exact h'.whole (by omega) rest
  short p hp hne hle := by
    rcases short_append hp hne with ⟨hp, hne⟩ | ⟨q, rfl, hq, hne⟩
    · exact bind_error (h.short p hp hne hle)
    · have := List.length_pos_iff.mpr hpos
      rw [List.length_append] at hle
      rw [bind_ok (h.whole (by omega) q)]
      exact h'.short q hq hne (by omega)

/-- Without a level left only the empty beginning is to be read. -/
theorem of_budget_zero (hpos : bs ≠ []) : Reads 0 (fail .unexpectedEnd) a bs where
  whole hle _ := absurd (List.length_eq_zero_iff.mp (Nat.le_zero.mp hle)) hpos
  short _ _ _ _ := rfl

/-- A reader that finds nothing in no bytes was given some. -/
theorem ne_nil {e : ReadError} (h : Reads budget r a bs) (hr : r [] = .error e) : bs ≠ [] := by
  rintro rfl
  have hwhole := h.whole (Nat.zero_le _) []
  rw [List.append_nil, hr] at hwhole
  cases hwhole

theorem map {f : α → β} {b : β} (h : Reads budget r a bs) (hb : f a = b) :
    Reads budget (do return f (← r)) b bs := by
  have hbind := h.bind (k := fun x => pure (f x)) (Reads.pure budget (f a))
  rwa [List.append_nil, hb] at hbind

theorem byte (budget : Nat) (b : UInt8) : Reads budget Reader.byte b [b] where
  whole _ _ := rfl
  short p hp hne _ := by
    rcases List.prefix_cons_iff.mp hp with rfl | ⟨t, rfl, ht⟩
    · rfl
    · exact absurd (by rw [List.prefix_nil.mp ht]) hne

theorem take (budget : Nat) (bs : List UInt8) : Reads budget (Reader.take bs.length) bs bs where
  whole _ rest := by simp [Reader.take]
  short p hp hne _ := by
    have hlt : p.length < bs.length := by
      rcases Nat.lt_or_eq_of_le hp.length_le with hlt | heq
      · exact hlt
      · exact absurd (hp.eq_of_length heq) hne
    simp only [Reader.take]
    rw [List.take_of_length_le (Nat.le_of_lt hlt), if_neg (Nat.ne_of_lt hlt)]

theorem toNat_ofNat {m : Nat} (h : m < 256) : (UInt8.ofNat m).toNat = m :=
  UInt8.toNat_ofNat_of_lt' h

/-- A number of at most `7 * n` bits and those of `top`. -/
theorem groups {top : UInt8} (htop : top < 128) (budget : Nat) {n m : Nat}
    (hm : m < 128 ^ n * (top.toNat + 1)) : Reads budget (Reader.groups top (n + 1)) m (varint m) := by
  replace htop : top.toNat < 128 := UInt8.lt_iff_toNat_lt.mp htop
  induction n generalizing m with
  | zero =>
    have hb : (UInt8.ofNat m).toNat = m := toNat_ofNat (by omega)
    have hlow : UInt8.ofNat m < 128 := UInt8.lt_iff_toNat_lt.mpr (hb.symm ▸ (by omega : m < 128))
    have hle : ¬ top < UInt8.ofNat m := fun h => by
      have := UInt8.lt_iff_toNat_lt.mp h
      omega
    rw [varint, if_pos (by omega)]
    refine (byte budget (UInt8.ofNat m)).bind (?_ : Reads budget _ m [])
    rw [if_pos hlow, if_neg (by simp [hle]), hb]
    exact .pure budget m
  | succ n ih =>
    by_cases hm128 : m < 128
    · have hb : (UInt8.ofNat m).toNat = m := toNat_ofNat (by omega)
      have hlow : UInt8.ofNat m < 128 := UInt8.lt_iff_toNat_lt.mpr (hb.symm ▸ hm128)
      rw [varint, if_pos hm128]
      refine (byte budget (UInt8.ofNat m)).bind (?_ : Reads budget _ m [])
      rw [if_pos hlow, if_neg (by simp), hb]
      exact .pure budget m
    · have hb : (UInt8.ofNat (m % 128 + 128)).toNat = m % 128 + 128 := toNat_ofNat (by omega)
      have hmore : ¬ UInt8.ofNat (m % 128 + 128) < 128 := fun h => by
        have h' : (UInt8.ofNat (m % 128 + 128)).toNat < 128 := UInt8.lt_iff_toNat_lt.mp h
        omega
      have hhigh : m / 128 < 128 ^ n * (top.toNat + 1) := by
        rw [Nat.div_lt_iff_lt_mul (by decide), Nat.mul_right_comm, ← Nat.pow_succ]
        exact hm
      rw [varint, if_neg hm128]
      refine (byte budget (UInt8.ofNat (m % 128 + 128))).bind ?_
      rw [if_neg hmore]
      exact (ih hhigh).map (by rw [hb]; omega)

theorem word (budget : Nat) (n : UInt32) : Reads budget Reader.word n (varint n.toNat) :=
  (groups (by decide) budget n.toNat_lt).map (UInt32.ofNat_toNat)

theorem size (budget : Nat) {n : Nat} (h : n < 2 ^ 64) : Reads budget Reader.size n (varint n) :=
  groups (by decide) budget h

theorem unzigzag_zigzag (n : Int64) : unzigzag (zigzag n) = n := by
  unfold zigzag unzigzag
  apply Int64.toInt_inj.mp
  have := n.toInt_lt
  have := n.le_toInt
  split
  · rw [if_pos (by omega), Int64.toInt_ofInt_of_le (by omega) (by omega)]
    omega
  · rw [if_neg (by omega), Int64.toInt_ofInt_of_le (by omega) (by omega)]
    omega

theorem int (budget : Nat) (n : Int64) : Reads budget Reader.int n (varint (zigzag n)) := by
  refine (size budget ?_).map (unzigzag_zigzag n)
  have := n.toInt_lt
  have := n.le_toInt
  unfold zigzag
  split <;> omega

theorem length_littleEndian (k n : Nat) : (littleEndian k n).length = k := by
  induction k generalizing n with
  | zero => rfl
  | succ k ih => rw [littleEndian, List.length_cons, ih]

theorem ofLittleEndian_littleEndian (k n : Nat) :
    ofLittleEndian (littleEndian k n) = n % 256 ^ k := by
  induction k generalizing n with
  | zero => rw [littleEndian, ofLittleEndian, Nat.pow_zero, Nat.mod_one]
  | succ k ih =>
    rw [Nat.pow_succ', Nat.mod_mul, littleEndian, ofLittleEndian, ih, UInt8.toNat_ofNat']

theorem float (budget : Nat) (x : Binary64) :
    Reads budget Reader.float x (littleEndian 8 x.bits.toNat) := by
  have htake := take budget (littleEndian 8 x.bits.toNat)
  rw [length_littleEndian] at htake
  refine htake.map ?_
  have hlt : x.bits.toNat < 256 ^ 8 := Nat.lt_of_lt_of_le x.bits.toNat_lt (by decide)
  rw [ofLittleEndian_littleEndian, Nat.mod_eq_of_lt hlt, UInt64.ofNat_toNat]

end Reads

/-- A length is that of something that has room in memory. -/
def Field.Fits : Field → Prop
  | .size n => n < 2 ^ 64
  | _ => True

instance : DecidablePred Field.Fits
  | .size n => inferInstanceAs (Decidable (n < 2 ^ 64))
  | .byte _ | .word _ | .int _ | .float _ | .raw _ => inferInstanceAs (Decidable True)

/-- What is written behind `fs` to come to `fs'` is read by `r` as `a`. -/
def Carries {α : Type} (budget : Nat) (fs fs' : Fields) (r : Reader α) (a : α) : Prop :=
  ∃ added : List Field, fs'.toList = fs.toList ++ added ∧
    ((∀ f ∈ added, f.Fits) → Reads budget r a (added.flatMap Field.encode))

/-- What `write` writes of `a` is read by `read`, however many levels that may go down. -/
def Carried {α : Type} (write : Fields → α → Fields) (read : Nat → Reader α) (a : α) : Prop :=
  ∀ budget fs, Carries budget fs (write fs a) (read budget) a

namespace Carries
open Reader

variable {α β : Type} {budget : Nat} {fs fs₁ fs' : Fields} {r : Reader α} {k : α → Reader β}
  {a : α} {b : β}

protected theorem pure (budget : Nat) (fs : Fields) (a : α) :
    Carries budget fs fs (pure a : Reader α) a :=
  ⟨[], by simp, fun _ => .pure budget a⟩

theorem bind (h : Carries budget fs fs₁ r a) (h' : Carries budget fs₁ fs' (k a) b) :
    Carries budget fs fs' (r >>= k) b := by
  obtain ⟨added, hadded, hreads⟩ := h
  obtain ⟨added', hadded', hreads'⟩ := h'
  refine ⟨added ++ added', by rw [hadded', hadded, List.append_assoc], fun hfit => ?_⟩
  obtain ⟨hfit, hfit'⟩ := List.forall_mem_append.mp hfit
  rw [List.flatMap_append]
  exact (hreads hfit).bind (hreads' hfit')

/-- The first part of a nested value may use up a level, if it is never empty. -/
theorem descend (h : Carries (budget + 1) fs fs₁ r a) (hr : r [] = .error .unexpectedEnd)
    (h' : Carries budget fs₁ fs' (k a) b) : Carries (budget + 1) fs fs' (r >>= k) b := by
  obtain ⟨added, hadded, hreads⟩ := h
  obtain ⟨added', hadded', hreads'⟩ := h'
  refine ⟨added ++ added', by rw [hadded', hadded, List.append_assoc], fun hfit => ?_⟩
  obtain ⟨hfit, hfit'⟩ := List.forall_mem_append.mp hfit
  rw [List.flatMap_append]
  exact (hreads hfit).bind_succ ((hreads hfit).ne_nil hr) (hreads' hfit')

theorem map {f : α → β} (h : Carries budget fs fs' r a) (hb : f a = b) :
    Carries budget fs fs' (do return f (← r)) b :=
  hb ▸ h.bind (k := fun x => pure (f x)) (.pure budget fs' (f a))

theorem of_budget_zero (h : Carries 1 fs fs' r a) (hr : r [] = .error .unexpectedEnd) :
    Carries 0 fs fs' (fail .unexpectedEnd) a := by
  obtain ⟨added, hadded, hreads⟩ := h
  exact ⟨added, hadded, fun hfit => .of_budget_zero ((hreads hfit).ne_nil hr)⟩

/-- One field. -/
theorem push {f : Field} (h : f.Fits → Reads budget r a f.encode) :
    Carries budget fs (fs.push f) r a := by
  refine ⟨[f], Array.toList_push, fun hfit => ?_⟩
  rw [List.flatMap_singleton]
  exact h (hfit f List.mem_cons_self)

protected theorem byte (budget : Nat) (fs : Fields) (b : UInt8) :
    Carries budget fs (fs.push (.byte b)) byte b :=
  .push fun _ => .byte budget b

protected theorem word (budget : Nat) (fs : Fields) (n : UInt32) :
    Carries budget fs (fs.word n) word n :=
  .push fun _ => .word budget n

protected theorem size (budget : Nat) (fs : Fields) (n : Nat) :
    Carries budget fs (fs.push (.size n)) size n :=
  .push fun hfit => .size budget hfit

protected theorem int (budget : Nat) (fs : Fields) (n : Int64) :
    Carries budget fs (fs.push (.int n)) int n :=
  .push fun _ => .int budget n

protected theorem float (budget : Nat) (fs : Fields) (x : Binary64) :
    Carries budget fs (fs.push (.float x)) float x :=
  .push fun _ => .float budget x

protected theorem bool (budget : Nat) (fs : Fields) (b : Bool) :
    Carries budget fs (fs.bool b) bool b := by
  refine (Carries.byte budget fs (if b then 1 else 0)).bind ?_
  cases b <;> exact .pure budget _ _

protected theorem bytes (budget : Nat) (fs : Fields) (bs : List UInt8) :
    Carries budget fs (fs.bytes bs) bytes bs :=
  (Carries.size budget fs bs.length).bind (.push fun _ => .take budget bs)

theorem fromUTF8?_toUTF8 (s : String) : String.fromUTF8? ⟨s.toUTF8.data.toList.toArray⟩ = some s :=
  dif_pos s.isValidUTF8

protected theorem text (budget : Nat) (fs : Fields) (s : String) :
    Carries budget fs (fs.text s) text s := by
  refine (Carries.bytes budget fs s.toUTF8.data.toList).bind ?_
  rw [fromUTF8?_toUTF8]
  exact .pure budget _ s

/-- The number of an alternative decides what is read next. -/
theorem tagged (n : Nat) {k : UInt32 → Reader β}
    (h : Carries budget (fs.tag n) fs' (k (UInt32.ofNat n)) b) :
    Carries (budget + 1) fs fs' (Reader.word >>= k) b :=
  descend (.word (budget + 1) fs (UInt32.ofNat n)) rfl h

protected theorem choice [BEq α] [LawfulBEq α] {all : List α} (ha : a ∈ all)
    (hall : all.length < 2 ^ 32) (budget : Nat) (fs : Fields) :
    Carries budget fs (fs.choice all a) (choice all) a := by
  have hlt : all.idxOf a < all.length := List.idxOf_lt_length_of_mem ha
  have hn : (UInt32.ofNat (all.idxOf a)).toNat = all.idxOf a :=
    UInt32.toNat_ofNat_of_lt' (Nat.lt_trans hlt hall)
  refine (Carries.word budget fs (UInt32.ofNat (all.idxOf a))).bind ?_
  rw [hn, List.getElem?_eq_getElem hlt, List.getElem_idxOf hlt]
  exact .pure budget _ a

protected theorem option {item : Fields → α → Fields} {o : Option α}
    (h : ∀ a ∈ o, ∀ fs, Carries budget fs (item fs a) r a) (fs : Fields) :
    Carries budget fs (fs.option item o) (option r) o := by
  cases o with
  | none => exact (Carries.byte budget fs 0).bind (.pure budget _ none)
  | some a => exact (Carries.byte budget fs 1).bind ((h a rfl _).map rfl)

/-- Items one after the other, behind those that were read before. -/
theorem items {item : Fields → α → Fields} {as : List α}
    (h : ∀ a ∈ as, ∀ fs, Carries budget fs (item fs a) r a) (fs : Fields) (out : Array α) :
    Carries budget fs (as.foldl item fs) (items r out as.length) (out.toList ++ as) := by
  induction as generalizing fs out with
  | nil =>
    rw [List.append_nil]
    exact .pure budget fs out.toList
  | cons a as ih =>
    have htail := ih (fun a ha => h a (List.mem_cons_of_mem _ ha)) (item fs a) (out.push a)
    rw [Array.toList_push, List.append_assoc, List.singleton_append] at htail
    exact (h a List.mem_cons_self fs).bind htail

protected theorem list {item : Fields → α → Fields} {as : List α}
    (h : ∀ a ∈ as, ∀ fs, Carries budget fs (item fs a) r a) (fs : Fields) :
    Carries budget fs (fs.list item as) (list r) as :=
  (Carries.size budget fs as.length).bind (items h _ #[])

protected theorem texts (budget : Nat) (fs : Fields) (ss : List String) :
    Carries budget fs (fs.texts ss) texts ss :=
  .list (fun s _ fs => .text budget fs s) fs

end Carries

/-- A reader of nested values that is right with a level to go down is right without one too, as it
has no value to find. -/
theorem Carried.of_succ {α : Type} {write : Fields → α → Fields} {read : Nat → Reader α} {a : α}
    (hzero : read 0 = Reader.fail .unexpectedEnd) (hr : read 1 [] = .error .unexpectedEnd)
    (h : ∀ budget fs, Carries (budget + 1) fs (write fs a) (read (budget + 1)) a) :
    Carried write read a
  | 0, fs => hzero ▸ (h 0 fs).of_budget_zero hr
  | budget + 1, fs => h budget fs

/-- The value stands in front of whatever follows its bytes, and is cut off at every shorter
beginning of them. -/
def RoundTrips {α : Type} (encode : α → List UInt8) (decode : List UInt8 → Except ReadError α)
    (a : α) : Prop :=
  (∀ rest, decode (encode a ++ rest) = .ok a) ∧
    ∀ p, p <+: encode a → p ≠ encode a → decode p = .error .unexpectedEnd

theorem Carried.roundTrips {α : Type} {write : Fields → α → Fields} {read : Nat → Reader α} {a : α}
    (h : Carried write read a) (hfit : ∀ f ∈ (write #[] a).toList, f.Fits) :
    RoundTrips (fun a => (write #[] a).encode)
      (fun input => (read input.length input).map Prod.fst) a := by
  have hreads (budget : Nat) : Reads budget (read budget) a (write #[] a).encode := by
    obtain ⟨added, hadded, hreads⟩ := h budget #[]
    rw [List.nil_append] at hadded
    rw [Fields.encode, hadded]
    exact hreads (hadded ▸ hfit)
  refine ⟨fun rest => ?_, fun p hp hne => ?_⟩
  · have hle : (write #[] a).encode.length ≤ ((write #[] a).encode ++ rest).length := by simp
    exact congrArg (Except.map Prod.fst) ((hreads _).whole hle rest)
  · exact congrArg (Except.map Prod.fst) ((hreads _).short p hp hne (Nat.le_refl _))

end Wordcode.Wire
