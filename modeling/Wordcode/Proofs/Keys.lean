import Mathlib.Algebra.Group.Nat.Defs
import Mathlib.Data.List.Forall2
import Wordcode.Wire.Code

/-!
# Keys of constants

A constant table finds constants by a key. Two constants have the same key exactly when they are
alike: equal in every respect, except that code objects count by their serial number only. Constants
without code objects in them are told apart whenever they differ, be it by the sign of a zero or by
the payload of a NaN.
-/

set_option autoImplicit false

namespace Wordcode

namespace Wire

theorem varint_append_inj {m n : Nat} {xs ys : List UInt8}
    (h : varint m ++ xs = varint n ++ ys) : m = n ∧ xs = ys := by
  have hbyte {a b : Nat} (ha : a < 256) (hb : b < 256) (hab : UInt8.ofNat a = UInt8.ofNat b) :
      a = b := by
    have := congrArg UInt8.toNat hab
    rwa [UInt8.toNat_ofNat_of_lt' ha, UInt8.toNat_ofNat_of_lt' hb] at this
  induction m using Nat.strongRecOn generalizing n with
  | ind m ih =>
    rw [varint, varint.eq_def n] at h
    split at h <;> split at h <;> rw [List.cons_append, List.cons_append] at h <;>
      injection h with hhead htail
    · exact ⟨hbyte (by omega) (by omega) hhead, htail⟩
    · have := hbyte (by omega) (by omega) hhead
      omega
    · have := hbyte (by omega) (by omega) hhead
      omega
    · have hlow := hbyte (by omega) (by omega) hhead
      obtain ⟨hhigh, hrest⟩ := ih (m / 128) (by omega) htail
      exact ⟨by omega, hrest⟩

theorem littleEndian_append_inj {k m n : Nat} {xs ys : List UInt8}
    (h : littleEndian k m ++ xs = littleEndian k n ++ ys) :
    m % 256 ^ k = n % 256 ^ k ∧ xs = ys := by
  induction k generalizing m n with
  | zero => exact ⟨by omega, h⟩
  | succ k ih =>
    simp only [littleEndian, List.cons_append] at h
    injection h with hhead htail
    obtain ⟨hhigh, hrest⟩ := ih htail
    have hlow := congrArg UInt8.toNat hhead
    simp only [UInt8.toNat_ofNat'] at hlow
    refine ⟨?_, hrest⟩
    rw [Nat.pow_succ', Nat.mod_mul, Nat.mod_mul, hhigh, hlow]

theorem zigzag_inj {m n : Int64} (h : zigzag m = zigzag n) : m = n := by
  unfold zigzag at h
  apply Int64.toInt_inj.mp
  split at h <;> split at h <;> omega

theorem float_append_inj {x y : Binary64} {xs ys : List UInt8}
    (h : (Field.float x).encode ++ xs = (Field.float y).encode ++ ys) : x = y ∧ xs = ys := by
  obtain ⟨hbits, hrest⟩ := littleEndian_append_inj h
  have hlt (z : Binary64) : z.bits.toNat < 256 ^ 8 := Nat.lt_of_lt_of_le z.bits.toNat_lt (by decide)
  rw [Nat.mod_eq_of_lt (hlt x), Nat.mod_eq_of_lt (hlt y)] at hbits
  refine ⟨?_, hrest⟩
  cases x
  cases y
  exact congrArg Binary64.mk (UInt64.toNat_inj.mp hbits)

theorem bytes_append_inj {bs bs' xs ys : List UInt8}
    (h : varint bs.length ++ (bs ++ xs) = varint bs'.length ++ (bs' ++ ys)) :
    bs = bs' ∧ xs = ys := by
  obtain ⟨hlength, hrest⟩ := varint_append_inj h
  exact List.append_inj hrest hlength

theorem toUTF8_inj {s t : String} (h : s.toUTF8.data.toList = t.toUTF8.data.toList) : s = t := by
  have hbytes : s.toUTF8 = t.toUTF8 := ByteArray.ext (Array.toList_inj.mp h)
  exact String.toByteArray_inj.mp hbytes

theorem Fields.encode_push (fs : Fields) (f : Field) :
    Fields.encode (fs.push f) = fs.encode ++ f.encode := by
  simp [Fields.encode]

theorem Fields.encode_empty : Fields.encode #[] = [] := rfl

end Wire

open Wire

namespace Constant

mutual

theorem encode_keyFields (fs : Fields) (c : Constant) :
    (keyFields fs c).encode = fs.encode ++ c.key := by
  cases c with
  | tuple items =>
    simp only [keyFields, key, encode_keyFieldsOfAll _ items, Fields.tag, Fields.encode_push,
      Fields.encode_empty, List.append_assoc, List.nil_append]
  | _ =>
    simp [keyFields, key, Fields.encode, Fields.tag, Fields.bool, Fields.text, Fields.bytes,
      Fields.word]

theorem encode_keyFieldsOfAll (fs : Fields) (cs : List Constant) :
    (keyFieldsOfAll fs cs).encode = fs.encode ++ cs.flatMap key := by
  cases cs with
  | nil => simp [keyFieldsOfAll]
  | cons c cs =>
    rw [keyFieldsOfAll, encode_keyFieldsOfAll _ cs, encode_keyFields fs c, List.append_assoc,
      List.flatMap_cons]

end

/-- The number of a kind of constant. -/
def keyTag : Constant → Nat
  | .none => 0
  | .ellipsis => 1
  | .bool _ => 2
  | .int _ => 3
  | .float _ => 4
  | .complex .. => 5
  | .str _ => 6
  | .bytes _ => 7
  | .tuple _ => 8
  | .code _ => 9

/-- The key behind that number. -/
def keyRest : Constant → List UInt8
  | .none | .ellipsis => []
  | .bool b => [if b then 1 else 0]
  | .int n => varint (zigzag n)
  | .float x => (Field.float x).encode
  | .complex re im => (Field.float re).encode ++ (Field.float im).encode
  | .str s => varint s.toUTF8.data.toList.length ++ s.toUTF8.data.toList
  | .bytes bs => varint bs.length ++ bs
  | .tuple items => varint items.length ++ items.flatMap key
  | .code c => varint c.serial.toNat

theorem key_eq (c : Constant) : c.key = varint c.keyTag ++ c.keyRest := by
  cases c with
  | tuple items =>
    simp only [key, keyFields, encode_keyFieldsOfAll, Fields.tag, Fields.encode_push,
      Fields.encode_empty, List.nil_append, List.append_assoc]
    rfl
  | _ =>
    simp [key, keyFields, Fields.encode, Fields.tag, Fields.bool, Fields.text, Fields.bytes,
      Fields.word, Field.encode, keyTag, keyRest]

/-- Equal, except that code objects count by their serial number. -/
inductive Alike : Constant → Constant → Prop where
  | refl (c : Constant) : Alike c c
  | tuple {cs ds : List Constant} : List.Forall₂ Alike cs ds → Alike (.tuple cs) (.tuple ds)
  | code {c d : CodeObject} : c.serial = d.serial → Alike (.code c) (.code d)

mutual

theorem alike_of_append {c d : Constant} {xs ys : List UInt8}
    (h : c.key ++ xs = d.key ++ ys) : c.Alike d ∧ xs = ys := by
  rw [key_eq, key_eq, List.append_assoc, List.append_assoc] at h
  obtain ⟨htag, hrest⟩ := varint_append_inj h
  cases c <;> cases d <;> try cases htag
  case none | ellipsis => exact ⟨.refl _, hrest⟩
  case bool b b' =>
    injection hrest with hb hrest
    have hbool : b = b' := by cases b <;> cases b' <;> first | rfl | cases hb
    exact ⟨hbool ▸ .refl _, hrest⟩
  case int n n' =>
    obtain ⟨hn, hrest⟩ := varint_append_inj hrest
    exact ⟨zigzag_inj hn ▸ .refl _, hrest⟩
  case float x x' =>
    obtain ⟨hx, hrest⟩ := float_append_inj hrest
    exact ⟨hx ▸ .refl _, hrest⟩
  case complex re im re' im' =>
    rw [keyRest, keyRest, List.append_assoc, List.append_assoc] at hrest
    obtain ⟨hre, hrest⟩ := float_append_inj hrest
    obtain ⟨him, hrest⟩ := float_append_inj hrest
    exact ⟨hre ▸ him ▸ .refl _, hrest⟩
  case str s s' =>
    rw [keyRest, keyRest, List.append_assoc, List.append_assoc] at hrest
    obtain ⟨hs, hrest⟩ := bytes_append_inj hrest
    exact ⟨toUTF8_inj hs ▸ .refl _, hrest⟩
  case bytes bs bs' =>
    rw [keyRest, keyRest, List.append_assoc, List.append_assoc] at hrest
    obtain ⟨hbs, hrest⟩ := bytes_append_inj hrest
    exact ⟨hbs ▸ .refl _, hrest⟩
  case tuple items items' =>
    rw [keyRest, keyRest, List.append_assoc, List.append_assoc] at hrest
    obtain ⟨hlength, hrest⟩ := varint_append_inj hrest
    obtain ⟨hitems, hrest⟩ := forall₂_of_append hlength hrest
    exact ⟨.tuple hitems, hrest⟩
  case code c c' =>
    obtain ⟨hserial, hrest⟩ := varint_append_inj hrest
    exact ⟨.code (UInt32.toNat_inj.mp hserial), hrest⟩
termination_by sizeOf c

theorem forall₂_of_append {cs ds : List Constant} {xs ys : List UInt8}
    (hlength : cs.length = ds.length) (h : cs.flatMap key ++ xs = ds.flatMap key ++ ys) :
    List.Forall₂ Alike cs ds ∧ xs = ys := by
  match cs, ds with
  | [], [] => exact ⟨.nil, h⟩
  | c :: cs, d :: ds =>
    rw [List.flatMap_cons, List.flatMap_cons, List.append_assoc, List.append_assoc] at h
    obtain ⟨hcd, hrest⟩ := alike_of_append h
    obtain ⟨hcs, hrest⟩ := forall₂_of_append (Nat.succ.inj hlength) hrest
    exact ⟨.cons hcd hcs, hrest⟩
termination_by sizeOf cs

end

mutual

theorem Alike.key_eq {c d : Constant} (h : c.Alike d) : c.key = d.key := by
  cases h with
  | refl => rfl
  | code hserial => rw [Constant.key_eq, Constant.key_eq, keyRest, keyRest, hserial]; rfl
  | tuple hitems =>
    rw [Constant.key_eq, Constant.key_eq, keyRest, keyRest, hitems.length_eq,
      flatMap_key_of_forall₂ hitems]
    rfl

theorem flatMap_key_of_forall₂ {cs ds : List Constant} (h : List.Forall₂ Alike cs ds) :
    cs.flatMap key = ds.flatMap key := by
  cases h with
  | nil => rfl
  | cons hcd hcs =>
    rw [List.flatMap_cons, List.flatMap_cons, hcd.key_eq, flatMap_key_of_forall₂ hcs]

end

/-- A constant table keeps two constants apart exactly when they are not alike. -/
theorem key_inj {c d : Constant} : c.key = d.key ↔ c.Alike d := by
  refine ⟨fun h => ?_, Alike.key_eq⟩
  have happend : c.key ++ [] = d.key ++ [] := by rw [h]
  exact (alike_of_append happend).1

/-- No code object is part of the constant. -/
inductive CodeFree : Constant → Prop where
  | atom {c : Constant} : (∀ k, c ≠ .code k) → (∀ items, c ≠ .tuple items) → CodeFree c
  | tuple {items : List Constant} : (∀ c ∈ items, c.CodeFree) → CodeFree (.tuple items)

theorem CodeFree.eq_of_alike {c d : Constant} (hd : d.CodeFree) (h : c.Alike d) : c = d := by
  induction hd generalizing c with
  | atom hcode htuple =>
    cases h with
    | refl => rfl
    | tuple => exact absurd rfl (htuple _)
    | code => exact absurd rfl (hcode _)
  | @tuple ds hfree ih =>
    clear hfree
    cases h with
    | refl => rfl
    | @tuple cs _ hitems =>
      have heq : cs = ds := by
        induction hitems with
        | nil => rfl
        | @cons a b as bs hab _ ihs =>
          rw [ih b List.mem_cons_self hab,
            ihs (fun c hc => ih c (List.mem_cons_of_mem b hc))]
      rw [heq]

end Constant
end Wordcode
