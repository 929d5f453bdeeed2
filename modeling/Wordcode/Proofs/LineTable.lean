import Mathlib.Data.List.Induction
import Wordcode.Proofs.Assembly

/-!
# Line tables

A line table is looked up by offset. Adding an instruction leaves the lines of all offsets before it
as they were, and gives its own offsets the line it is stamped with or, if it has no stamp, the line
of the instruction before it. So an offset has the line of the last stamp up to there.
-/

set_option autoImplicit false

namespace Wordcode
namespace Lines

/-- The line of an offset. -/
def lookup (ranges : List LineRange) (offset : UInt32) : Option UInt32 :=
  (ranges.find? fun r => r.start ≤ offset && offset < r.stop).map LineRange.line

theorem lookup_append (ranges ranges' : List LineRange) (offset : UInt32) :
    lookup (ranges ++ ranges') offset = (lookup ranges offset).or (lookup ranges' offset) := by
  simp only [lookup, List.find?_append]
  cases ranges.find? fun r => decide (r.start ≤ offset) && decide (offset < r.stop) <;> rfl

theorem lookup_singleton {r : LineRange} {offset : UInt32} (hstart : r.start ≤ offset)
    (hstop : offset < r.stop) : lookup [r] offset = some r.line := by
  simp [lookup, hstart, hstop]

/-- All ranges end at or before an offset. -/
def Below (ranges : List LineRange) (offset : UInt32) : Prop :=
  ∀ r ∈ ranges, r.start ≤ r.stop ∧ r.stop ≤ offset

theorem Below.lookup_eq_none {ranges : List LineRange} {start offset : UInt32}
    (h : Below ranges start) (hle : start ≤ offset) : lookup ranges offset = none := by
  rw [lookup, Option.map_eq_none_iff, List.find?_eq_none]
  intro r hr hcond
  simp only [Bool.and_eq_true, decide_eq_true_eq] at hcond
  exact absurd hcond.2 (UInt32.not_lt.mpr (UInt32.le_trans (h r hr).2 hle))

section Add

variable {firstLine start stop stamp offset : UInt32} {ranges : Array LineRange}

/-- An instruction lengthens the last range or gets a range of its own. -/
theorem toList_add (firstLine start stop stamp : UInt32) (ranges : Array LineRange) :
    (∃ init last, ranges.toList = init ++ [last] ∧ last.line = lineAfter firstLine ranges stamp ∧
      last.stop = start ∧
      (add firstLine ranges start stop stamp).toList = init ++ [{ last with stop := stop }]) ∨
    (add firstLine ranges start stop stamp).toList =
      ranges.toList ++ [⟨start, stop, lineAfter firstLine ranges stamp⟩] := by
  unfold add
  cases hlast : ranges.back? with
  | none => exact .inr (by simp)
  | some last =>
    obtain ⟨init, rfl⟩ := Array.back?_eq_some_iff.mp hlast
    dsimp only
    split
    · next hcond =>
      simp only [Bool.and_eq_true, decide_eq_true_eq] at hcond
      exact .inl ⟨init.toList, last, by simp, hcond.1, hcond.2, by simp⟩
    · exact .inr (by simp)

theorem lookup_add_of_some {line : UInt32} (h : lookup ranges.toList offset = some line)
    (hle : start ≤ stop) : lookup (add firstLine ranges start stop stamp).toList offset = some line := by
  rcases toList_add firstLine start stop stamp ranges with ⟨init, last, hranges, _, hstop, hadd⟩ | hadd
  · rw [hadd, lookup_append]
    rw [hranges, lookup_append] at h
    cases hinit : lookup init offset with
    | some l => simpa [hinit] using h
    | none =>
      rw [hinit, Option.none_or] at h
      rw [Option.none_or]
      obtain ⟨r, hr, rfl⟩ := Option.map_eq_some_iff.mp h
      obtain rfl := List.mem_singleton.mp (List.mem_of_find?_eq_some hr)
      have hcond := List.find?_some hr
      simp only [Bool.and_eq_true, decide_eq_true_eq] at hcond
      refine lookup_singleton hcond.1 (UInt32.lt_of_lt_of_le hcond.2 ?_)
      rw [hstop]
      exact hle
  · rw [hadd, lookup_append, h, Option.some_or]

theorem lookup_add_self (h : Below ranges.toList start) (hstart : start ≤ offset)
    (hstop : offset < stop) : lookup (add firstLine ranges start stop stamp).toList offset =
      some (lineAfter firstLine ranges stamp) := by
  rcases toList_add firstLine start stop stamp ranges with
    ⟨init, last, hranges, hline, hlast, hadd⟩ | hadd
  · rw [hranges] at h
    have hinit : Below init start := fun r hr => h r (List.mem_append_left _ hr)
    have hle := h last (List.mem_append_right _ (List.mem_singleton.mpr rfl))
    rw [hadd, lookup_append, hinit.lookup_eq_none hstart, Option.none_or, ← hline]
    exact lookup_singleton (UInt32.le_trans (UInt32.le_trans hle.1 hle.2) hstart) hstop
  · rw [hadd, lookup_append, h.lookup_eq_none hstart, Option.none_or]
    exact lookup_singleton hstart hstop

theorem Below.add (h : Below ranges.toList start) (hle : start ≤ stop) :
    Below (add firstLine ranges start stop stamp).toList stop := by
  intro r hr
  rcases toList_add firstLine start stop stamp ranges with ⟨init, last, hranges, _, _, hadd⟩ | hadd
  · rw [hranges] at h
    have hlast := h last (List.mem_append_right _ (List.mem_singleton.mpr rfl))
    rcases List.mem_append.mp (hadd ▸ hr) with hr | hr
    · have hr := h r (List.mem_append_left _ hr)
      exact ⟨hr.1, UInt32.le_trans hr.2 hle⟩
    · obtain rfl := List.mem_singleton.mp hr
      exact ⟨UInt32.le_trans (UInt32.le_trans hlast.1 hlast.2) hle, UInt32.le_refl _⟩
  · rcases List.mem_append.mp (hadd ▸ hr) with hr | hr
    · exact ⟨(h r hr).1, UInt32.le_trans (h r hr).2 hle⟩
    · obtain rfl := List.mem_singleton.mp hr
      exact ⟨hle, UInt32.le_refl _⟩

/-- The last range has the line of the instruction just added. -/
theorem lineAfter_add (next : UInt32) :
    lineAfter firstLine (add firstLine ranges start stop stamp) next =
      if next ≠ 0 then next else lineAfter firstLine ranges stamp := by
  have hback : (add firstLine ranges start stop stamp).back?.map LineRange.line =
      some (lineAfter firstLine ranges stamp) := by
    rw [← Array.getLast?_toList]
    rcases toList_add firstLine start stop stamp ranges with ⟨_, _, _, hline, _, hadd⟩ | hadd
    · rw [hadd, List.getLast?_concat]
      exact congrArg some hline
    · rw [hadd, List.getLast?_concat]
      rfl
  obtain ⟨last, hlast, hline⟩ := Option.map_eq_some_iff.mp hback
  rw [lineAfter, hlast]
  simp only [hline]

end Add

/-- The line of an instruction behind others with the given stamps and its own. -/
def carry (firstLine : UInt32) (stamps : List UInt32) : UInt32 :=
  stamps.foldl (fun line stamp => if stamp ≠ 0 then stamp else line) firstLine

theorem carry_concat (firstLine : UInt32) (stamps : List UInt32) (stamp : UInt32) :
    carry firstLine (stamps ++ [stamp]) =
      if stamp ≠ 0 then stamp else carry firstLine stamps := by
  simp [carry]

/-- The last stamp counts. -/
theorem carry_take {firstLine : UInt32} {stamps : List UInt32} {k j : Nat} {stamp : UInt32}
    (hk : stamps[k]? = some stamp) (hne : stamp ≠ 0) (hkj : k ≤ j)
    (hzero : ∀ i, k < i → i ≤ j → stamps.getD i 0 = 0) :
    carry firstLine (stamps.take (j + 1)) = stamp := by
  obtain ⟨n, rfl⟩ := Nat.exists_eq_add_of_le hkj
  induction n with
  | zero => rw [Nat.add_zero, List.take_add_one, hk, Option.toList_some, carry_concat, if_pos hne]
  | succ n ih =>
    have ih := ih (Nat.le_add_right k n) fun i hi hin => hzero i hi (by omega)
    have hlast := hzero (k + (n + 1)) (by omega) (Nat.le_refl _)
    rw [List.getD_eq_getElem?_getD] at hlast
    rw [List.take_add_one]
    cases hnext : stamps[k + (n + 1)]? with
    | none => rwa [Option.toList_none, List.append_nil]
    | some s =>
      rw [hnext] at hlast
      obtain rfl : s = 0 := hlast
      rw [Option.toList_some, carry_concat, if_neg (not_not.mpr rfl)]
      exact ih

end Lines

namespace Assembly.Output
open Lines

/-- Written instructions and the lines of their offsets. -/
structure Lists (firstLine : UInt32) (body : List Instruction) (out : Output) : Prop where
  size_eq : out.code.size = bodySize body
  below : Below out.lines.toList (UInt32.ofNat (bodySize body))
  last : ∀ next, lineAfter firstLine out.lines next =
    if next ≠ 0 then next else carry firstLine (body.map Instruction.line)
  lookup_eq : ∀ k, k < body.length →
    lookup out.lines.toList (UInt32.ofNat (bodySize (body.take k))) =
      some (carry firstLine ((body.take (k + 1)).map Instruction.line))

theorem size_pos (i : Instruction) : 0 < i.size := by
  have := codeUnits_pos i.arg
  rw [Instruction.size]
  omega

theorem bodySize_concat (body : List Instruction) (i : Instruction) :
    bodySize (body ++ [i]) = bodySize body + i.size := by
  rw [bodySize_append, bodySize_cons]
  rfl

section Write
variable {firstLine : UInt32} {body : List Instruction} {out : Output}

theorem Lists.size_write (h : Lists firstLine body out) (i : Instruction) :
    (Output.write firstLine out i).code.size = bodySize (body ++ [i]) := by
  show (out.code ++ i.bytes).size = _
  rw [← Array.length_toList, Array.toList_appendList, List.length_append, Array.length_toList,
    h.size_eq, Instruction.length_bytes, bodySize_concat]

theorem Lists.lines_write (h : Lists firstLine body out) (i : Instruction) :
    (Output.write firstLine out i).lines = add firstLine out.lines
      (UInt32.ofNat (bodySize body)) (UInt32.ofNat (bodySize (body ++ [i]))) i.line := by
  rw [← h.size_write i, ← h.size_eq]
  rfl

theorem Lists.write (h : Lists firstLine body out) {i : Instruction}
    (hlt : bodySize (body ++ [i]) < UInt32.size) :
    Lists firstLine (body ++ [i]) (Output.write firstLine out i) := by
  have hpos := size_pos i
  rw [bodySize_concat] at hlt
  have hstop : UInt32.ofNat (bodySize body) < UInt32.ofNat (bodySize (body ++ [i])) := by
    rw [bodySize_concat, UInt32.lt_iff_toNat_lt, UInt32.toNat_ofNat_of_lt' (by omega),
      UInt32.toNat_ofNat_of_lt' hlt]
    omega
  have hlines := h.lines_write i
  refine ⟨h.size_write i, ?_, fun next => ?_, fun k hk => ?_⟩
  · rw [hlines]
    exact h.below.add (UInt32.le_of_lt hstop)
  · rw [hlines, lineAfter_add, h.last, List.map_append, List.map_singleton, carry_concat]
  · rw [hlines]
    rw [List.length_append, List.length_singleton] at hk
    rcases Nat.lt_or_ge k body.length with hlt | hge
    · rw [List.take_append_of_le_length (by omega), List.take_append_of_le_length (by omega)]
      exact lookup_add_of_some (h.lookup_eq k hlt) (UInt32.le_of_lt hstop)
    · obtain rfl : k = body.length := by omega
      rw [List.take_left, lookup_add_self h.below (UInt32.le_refl _) hstop, h.last,
        List.take_of_length_le (by simp), List.map_append, List.map_singleton, carry_concat]

end Write

theorem lists_foldl_write (firstLine : UInt32) {body : List Instruction}
    (hlt : bodySize body < UInt32.size) :
    Lists firstLine body (body.foldl (write firstLine) {}) := by
  induction body using List.reverseRecOn with
  | nil =>
    refine ⟨rfl, nofun, fun next => ?_, nofun⟩
    simp [lineAfter, carry]
  | append_singleton body i ih =>
    rw [List.foldl_concat]
    refine (ih ?_).write hlt
    rw [bodySize_concat] at hlt
    omega

end Assembly.Output

/-- The line that the instruction of a place is stamped with, if it is there and has a stamp. -/
def Graph.stamp (g : Graph) (p : Place) : UInt32 := ((g.instruction? p).map Instruction.line).getD 0

theorem map_line_of_rewritten {is js : List Instruction}
    (h : List.Forall₂ Sizing.Rewritten is js) :
    js.map Instruction.line = is.map Instruction.line := by
  induction h with
  | nil => rfl
  | cons hij _ ih => rw [List.map_cons, List.map_cons, ih, hij.line]

theorem map_line_flatMap_body {g : Graph} {order : List BlockId} {code : List Placed}
    (h : Sizing.Alike Sizing.Rewritten (g.placed order) code) :
    (code.flatMap Placed.body).map Instruction.line = (g.places order).map g.stamp := by
  induction order generalizing code with
  | nil =>
    cases h
    rfl
  | cons b order ih =>
    obtain ⟨p, rest, hp, hrest, rfl⟩ := List.forall₂_cons_left_iff.mp h
    have hblock : (g.block b).instructions.toList.map Instruction.line =
        (List.range (g.block b).instructions.size).map fun k => g.stamp ⟨b, k⟩ := by
      refine List.ext_getElem? fun k => ?_
      rw [List.getElem?_map, List.getElem?_map, Array.getElem?_toList]
      rcases Nat.lt_or_ge k (g.block b).instructions.size with hlt | hge
      · simp [Graph.stamp, Graph.instruction?, List.getElem?_range hlt, Array.getElem?_eq_getElem hlt]
      · rw [Array.getElem?_eq_none hge, List.getElem?_eq_none (by simpa using hge)]
        rfl
    rw [List.flatMap_cons, List.map_append, ih hrest, map_line_of_rewritten hp.2, hblock]
    simp [Graph.places, Function.comp_def]

end Wordcode
