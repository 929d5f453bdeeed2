import Std.Data.TreeMap
import Std.Data.TreeMap.Lemmas

/-!
# Numbered tables

A pool numbers items in the order in which they are first asked for. Two items with the same key
are one entry, and the first of them is kept. An index makes finding an entry fast; that it agrees
with the entries is part of the type.
-/

set_option autoImplicit false

namespace Wordcode

structure Pool {α κ : Type} [Ord κ] (key : α → κ) where
  items : Array α
  index : Std.TreeMap κ Nat
  index_eq : ∀ (k : κ) (i : Nat), index[k]? = some i ↔ items[i]?.map key = some k

namespace Pool

variable {α κ : Type} [Ord κ] {key : α → κ}

def size (p : Pool key) : Nat := p.items.size

def toList (p : Pool key) : List α := p.items.toList

/-- The number of the entry with a key. -/
def find? (p : Pool key) (k : κ) : Option Nat := p.index[k]?

theorem find?_eq_some_iff (p : Pool key) (k : κ) (i : Nat) :
    p.find? k = some i ↔ p.toList[i]?.map key = some k := by
  simp [find?, toList, p.index_eq]

theorem find?_eq_none_iff (p : Pool key) (k : κ) :
    p.find? k = none ↔ ∀ a ∈ p.toList, key a ≠ k := by
  constructor
  · intro h a ha hk
    obtain ⟨i, hi⟩ := List.getElem?_of_mem ha
    have : p.find? k = some i := (p.find?_eq_some_iff k i).mpr (by simp [hi, hk])
    simp [h] at this
  · intro h
    cases hf : p.find? k with
    | none => rfl
    | some i =>
      obtain ⟨a, ha, hk⟩ := Option.map_eq_some_iff.mp ((p.find?_eq_some_iff k i).mp hf)
      exact absurd hk (h a (List.mem_of_getElem? ha))

/-- No two entries have the same key. -/
theorem nodup_keys (p : Pool key) : (p.toList.map key).Nodup := by
  rw [List.nodup_iff_pairwise_ne, List.pairwise_iff_getElem]
  intro i j hi hj hij heq
  simp only [List.length_map] at hi hj
  have h₁ : p.find? (key p.toList[i]) = some i := by
    rw [find?_eq_some_iff, List.getElem?_eq_getElem hi]
    rfl
  have h₂ : p.find? (key p.toList[i]) = some j := by
    rw [find?_eq_some_iff, List.getElem?_eq_getElem hj]
    simpa using heq.symm
  rw [h₁] at h₂
  exact absurd (Option.some.inj h₂) (by omega)

variable [Std.TransOrd κ] [Std.LawfulEqOrd κ]

def empty : Pool key where
  items := #[]
  index := ∅
  index_eq := by simp

theorem index_eq_push (p : Pool key) (a : α) (fresh : p.find? (key a) = none) (k : κ) (i : Nat) :
    (p.index.insert (key a) p.items.size)[k]? = some i ↔
      (p.items.push a)[i]?.map key = some k := by
  rw [Std.TreeMap.getElem?_insert, Array.getElem?_push]
  by_cases hk : compare (key a) k = .eq
  · rw [if_pos hk]
    have hk' : key a = k := Std.LawfulEqOrd.eq_of_compare hk
    subst hk'
    by_cases hi : i = p.items.size
    · simp [hi]
    · have hnone : ¬ p.items[i]?.map key = some (key a) := by
        rw [← p.index_eq]
        simp only [find?] at fresh
        simp [fresh]
      simp only [hi, if_false]
      exact ⟨fun h => absurd (Option.some.inj h).symm hi, fun h => absurd h hnone⟩
  · rw [if_neg hk]
    have hk' : key a ≠ k := fun h => hk (h ▸ Std.ReflOrd.compare_self)
    by_cases hi : i = p.items.size
    · subst hi
      have : p.index[k]? ≠ some p.items.size := by
        rw [Ne, p.index_eq]
        simp
      simp [this, hk']
    · simp only [hi, if_false]
      exact p.index_eq k i

/-- Adds an item whose key no entry has. -/
def push : (p : Pool key) → (a : α) → p.find? (key a) = none → Pool key
  | ⟨items, index, index_eq⟩, a, fresh =>
    let i := items.size
    ⟨items.push a, index.insert (key a) i, index_eq_push ⟨items, index, index_eq⟩ a fresh⟩

/-- The number of the entry with an item's key, and the pool with that entry in it. -/
def intern (p : Pool key) (a : α) : Nat × Pool key :=
  match h : p.find? (key a) with
  | some i => (i, p)
  | none => (p.size, p.push a h)

def ofList (as : List α) : Pool key := as.foldl (fun p a => (p.intern a).2) empty

theorem toList_intern (p : Pool key) (a : α) :
    (p.intern a).2.toList =
      if (p.find? (key a)).isSome then p.toList else p.toList ++ [a] := by
  unfold intern
  split <;> simp_all [push, toList]

/-- An entry keeps its number when others are added. -/
theorem toList_prefix_intern (p : Pool key) (a : α) : p.toList <+: (p.intern a).2.toList := by
  rw [toList_intern]
  split
  · exact List.prefix_rfl
  · exact List.prefix_append _ _

/-- The number given out is that of an entry with the same key. -/
theorem getElem?_intern (p : Pool key) (a : α) :
    (p.intern a).2.toList[(p.intern a).1]?.map key = some (key a) := by
  unfold intern
  split
  · next i h => exact (p.find?_eq_some_iff _ _).mp h
  · simp [push, toList, size]

end Pool

/-- Numbered names. -/
abbrev NamePool := Pool (fun s : String => s)

end Wordcode
