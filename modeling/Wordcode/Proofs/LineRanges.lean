import Mathlib.Data.List.Chain
import Wordcode.Proofs.LineTable
import Wordcode.Proofs.Unreached

/-!
# Line tables part the code

The ranges of a line table follow each other from the first byte of the code to the last, and where
one ends the line changes. So every byte is in one of them, and the line found for it is that of the
last stamp up to its instruction.
-/

set_option autoImplicit false

namespace Wordcode

namespace Lines

/-- Ranges one behind the other from `start` to `stop`, none of them empty. -/
inductive Part : Nat → List LineRange → Nat → Prop where
  | nil {n : Nat} : Part n [] n
  | cons {start stop : Nat} {r : LineRange} {rs : List LineRange} : r.start.toNat = start →
      r.start < r.stop → Part r.stop.toNat rs stop → Part start (r :: rs) stop

theorem Part.le {start stop : Nat} {rs : List LineRange} (h : Part start rs stop) :
    start ≤ stop := by
  induction h with
  | nil => exact Nat.le_refl _
  | cons hstart hlt _ ih =>
    exact hstart ▸ Nat.le_trans (Nat.le_of_lt (UInt32.lt_iff_toNat_lt.mp hlt)) ih

theorem part_concat_iff {start stop : Nat} {rs : List LineRange} {r : LineRange} :
    Part start (rs ++ [r]) stop ↔
      Part start rs r.start.toNat ∧ r.start < r.stop ∧ r.stop.toNat = stop := by
  induction rs generalizing start with
  | nil =>
    constructor
    · rintro (_ | ⟨rfl, hlt, (_ | _)⟩)
      exact ⟨.nil, hlt, rfl⟩
    · rintro ⟨(_ | _), hlt, rfl⟩
      exact .cons rfl hlt .nil
  | cons q rs ih =>
    constructor
    · rintro (_ | ⟨hstart, hlt, hrest⟩)
      obtain ⟨hrs, hr⟩ := ih.mp hrest
      exact ⟨.cons hstart hlt hrs, hr⟩
    · rintro ⟨(_ | ⟨hstart, hlt, hrs⟩), hr⟩
      exact .cons hstart hlt (ih.mpr ⟨hrs, hr⟩)

/-- The bytes that have a line are those that are parted. -/
theorem Part.isSome_lookup_iff {start stop : Nat} {rs : List LineRange} (h : Part start rs stop)
    {offset : UInt32} (hstart : start ≤ offset.toNat) :
    (lookup rs offset).isSome = true ↔ offset.toNat < stop := by
  induction h with
  | nil => simpa [lookup] using hstart
  | @cons start stop r rs hr _ hrest ih =>
    subst hr
    rw [← List.singleton_append, lookup_append]
    rcases Nat.lt_or_ge offset.toNat r.stop.toNat with hlt | hge
    · rw [lookup_singleton (UInt32.le_iff_toNat_le.mpr hstart) (UInt32.lt_iff_toNat_lt.mpr hlt)]
      exact iff_of_true rfl (Nat.lt_of_lt_of_le hlt hrest.le)
    · have hnone : lookup [r] offset = none := by
        simp [lookup, UInt32.le_iff_toNat_le, hge]
      rw [hnone, Option.none_or]
      exact ih hge

section Add
variable {firstLine start stop stamp : UInt32} {ranges : Array LineRange}

/-- An instruction lengthens the last range only if it has its line and goes on where it ends. -/
theorem add_cases (firstLine start stop stamp : UInt32) (ranges : Array LineRange) :
    (ranges.toList = [] ∧ (add firstLine ranges start stop stamp).toList =
      [⟨start, stop, lineAfter firstLine ranges stamp⟩]) ∨
    ∃ init last, ranges.toList = init ++ [last] ∧
      ((last.stop = start ∧
        (add firstLine ranges start stop stamp).toList = init ++ [{ last with stop := stop }]) ∨
      (¬ (last.line = lineAfter firstLine ranges stamp ∧ last.stop = start) ∧
        (add firstLine ranges start stop stamp).toList =
          init ++ [last] ++ [⟨start, stop, lineAfter firstLine ranges stamp⟩])) := by
  unfold add
  cases hlast : ranges.back? with
  | none =>
    obtain rfl := Array.back?_eq_none_iff.mp hlast
    exact .inl ⟨rfl, rfl⟩
  | some last =>
    obtain ⟨init, rfl⟩ := Array.back?_eq_some_iff.mp hlast
    refine .inr ⟨init.toList, last, Array.toList_push, ?_⟩
    dsimp only
    split
    · next hcond =>
      simp only [Bool.and_eq_true, decide_eq_true_eq] at hcond
      exact .inl ⟨hcond.2, by simp⟩
    · next hcond =>
      simp only [Bool.and_eq_true, decide_eq_true_eq] at hcond
      exact .inr ⟨hcond, by simp⟩

theorem Part.add (h : Part 0 ranges.toList start.toNat) (hlt : start < stop) :
    Part 0 (add firstLine ranges start stop stamp).toList stop.toNat := by
  rcases add_cases firstLine start stop stamp ranges with
    ⟨hnil, hadd⟩ | ⟨init, last, hranges, ⟨hlast, hadd⟩ | ⟨_, hadd⟩⟩
  · rw [hnil] at h
    rw [hadd, ← List.nil_append [_], part_concat_iff]
    exact ⟨h, hlt, rfl⟩
  · rw [hranges, part_concat_iff] at h
    rw [hadd, part_concat_iff]
    exact ⟨h.1, UInt32.lt_trans (hlast ▸ h.2.1) hlt, rfl⟩
  · rw [hadd, ← hranges, part_concat_iff]
    exact ⟨h, hlt, rfl⟩

/-- Where a range ends the line changes. -/
def Changing (rs : List LineRange) : Prop := rs.IsChain fun r s => r.line ≠ s.line

theorem Changing.add (h : Changing ranges.toList) (hpart : Part 0 ranges.toList start.toNat) :
    Changing (add firstLine ranges start stop stamp).toList := by
  unfold Changing at h ⊢
  rcases add_cases firstLine start stop stamp ranges with
    ⟨_, hadd⟩ | ⟨init, last, hranges, ⟨_, hadd⟩ | ⟨hnot, hadd⟩⟩
  · rw [hadd]
    exact .singleton _
  · rw [hranges, List.isChain_append] at h
    rw [hadd, List.isChain_append]
    refine ⟨h.1, .singleton _, fun q hq r hr => ?_⟩
    obtain rfl : { last with stop := stop } = r := Option.some.inj hr
    exact h.2.2 q hq last rfl
  · rw [hranges, part_concat_iff] at hpart
    have hstop : last.stop = start := UInt32.toNat_inj.mp hpart.2.2
    rw [hadd, List.isChain_append]
    refine ⟨hranges ▸ h, .singleton _, fun q hq r hr => ?_⟩
    rw [List.getLast?_concat] at hq
    obtain rfl := Option.some.inj hq
    obtain rfl := Option.some.inj hr
    exact fun heq => hnot ⟨heq, hstop⟩

end Add

/-- The line that holds behind instructions with the given stamps: the last stamp or, if there is
none, the first line. -/
inductive Holds (firstLine : UInt32) : List UInt32 → UInt32 → Prop where
  | stamped {before after : List UInt32} {line : UInt32} : line ≠ 0 → (∀ s ∈ after, s = 0) →
      Holds firstLine (before ++ line :: after) line
  | unstamped {stamps : List UInt32} : (∀ s ∈ stamps, s = 0) → Holds firstLine stamps firstLine

theorem Holds.concat_zero {firstLine line : UInt32} {stamps : List UInt32}
    (h : Holds firstLine stamps line) : Holds firstLine (stamps ++ [0]) line := by
  have hzero {ss : List UInt32} (hss : ∀ s ∈ ss, s = 0) : ∀ s ∈ ss ++ [0], s = 0 := by
    intro s hs
    rcases List.mem_append.mp hs with hs | hs
    · exact hss s hs
    · exact List.mem_singleton.mp hs
  cases h with
  | stamped hne hafter =>
    rw [List.append_assoc, List.cons_append]
    exact .stamped hne (hzero hafter)
  | unstamped hall => exact .unstamped (hzero hall)

theorem holds_carry (firstLine : UInt32) (stamps : List UInt32) :
    Holds firstLine stamps (carry firstLine stamps) := by
  induction stamps using List.reverseRecOn with
  | nil => exact .unstamped nofun
  | append_singleton stamps stamp ih =>
    rw [carry_concat]
    split
    · next hne => exact .stamped hne nofun
    · next heq =>
      obtain rfl : stamp = 0 := not_not.mp heq
      exact ih.concat_zero

end Lines

namespace Assembly.Output
open Lines

section Write
variable {firstLine : UInt32} {body : List Instruction} {out : Output} {i : Instruction}

/-- The line table of written instructions parts their bytes, and every byte of an instruction has
the line that holds there. -/
structure Parted (firstLine : UInt32) (body : List Instruction) (lines : List LineRange) :
    Prop where
  part : Part 0 lines (bodySize body)
  changing : Changing lines
  lookup_eq : ∀ (j : Nat) (offset : UInt32), bodySize (body.take j) ≤ offset.toNat →
    offset.toNat < bodySize (body.take (j + 1)) →
    lookup lines offset = some (carry firstLine ((body.take (j + 1)).map Instruction.line))

theorem Parted.write (h : Parted firstLine body out.lines.toList)
    (hlists : Lists firstLine body out) (hlt : bodySize (body ++ [i]) < UInt32.size) :
    Parted firstLine (body ++ [i]) (Output.write firstLine out i).lines.toList := by
  have hpos := size_pos i
  have hsize := bodySize_concat body i
  have hstart : (UInt32.ofNat (bodySize body)).toNat = bodySize body :=
    UInt32.toNat_ofNat_of_lt' (by omega)
  have hstop : (UInt32.ofNat (bodySize (body ++ [i]))).toNat = bodySize (body ++ [i]) :=
    UInt32.toNat_ofNat_of_lt' hlt
  have hless : UInt32.ofNat (bodySize body) < UInt32.ofNat (bodySize (body ++ [i])) := by
    rw [UInt32.lt_iff_toNat_lt, hstart, hstop]
    omega
  have hpart : Part 0 out.lines.toList (UInt32.ofNat (bodySize body)).toNat := by
    rw [hstart]
    exact h.part
  have hbelow := hlists.below
  rw [hlists.lines_write i]
  generalize UInt32.ofNat (bodySize body) = start at *
  generalize UInt32.ofNat (bodySize (body ++ [i])) = stop at *
  refine ⟨?_, h.changing.add hpart, fun j offset hfrom hto => ?_⟩
  · rw [← hstop]
    exact hpart.add hless
  · rcases Nat.lt_or_ge j body.length with hj | hj
    · rw [List.take_append_of_le_length (Nat.le_of_lt hj)] at hfrom
      rw [List.take_append_of_le_length hj] at hto ⊢
      exact lookup_add_of_some (h.lookup_eq j offset hfrom hto) (UInt32.le_of_lt hless)
    · rw [List.take_of_length_le (by simpa using hj)] at hto ⊢
      have hbody : bodySize body ≤ offset.toNat := by
        rcases Nat.eq_or_lt_of_le hj with rfl | hj
        · rwa [List.take_left] at hfrom
        · rw [List.take_of_length_le (by simp; omega)] at hfrom
          omega
      rw [lookup_add_self hbelow (UInt32.le_iff_toNat_le.mpr (hstart ▸ hbody))
        (UInt32.lt_iff_toNat_lt.mpr (hstop ▸ hto)), hlists.last, List.map_append,
        List.map_singleton, carry_concat]

end Write

theorem parted_foldl_write (firstLine : UInt32) {body : List Instruction}
    (hlt : bodySize body < UInt32.size) :
    Parted firstLine body (body.foldl (write firstLine) {}).lines.toList := by
  induction body using List.reverseRecOn with
  | nil => exact ⟨.nil, .nil, fun _ _ _ hto => absurd hto (by simp [bodySize])⟩
  | append_singleton body i ih =>
    have hbody : bodySize body < UInt32.size := by
      rw [bodySize_concat] at hlt
      omega
    rw [List.foldl_concat]
    exact (ih hbody).write (lists_foldl_write firstLine hbody) hlt

end Assembly.Output

/-- Whatever the operands are to begin with, jumps are settled by operands alone. -/
theorem Sizing.alike_of_settle {blockCount : Nat} {code code' : List Placed} {offs : Offsets}
    (h : settle blockCount code = .ok (offs, code')) : Alike Rewritten code code' := by
  fun_induction settle blockCount code with
  | case1 code e he => cases h
  | case2 code next hpass hgrow ih => exact (resolvedCode_of_pass hpass).rewritten.trans (ih h)
  | case3 code next hpass hgrow =>
    cases h
    exact (resolvedCode_of_pass hpass).rewritten

/-- The instructions of blocks in the order of the blocks. -/
def Graph.listing (g : Graph) (order : List BlockId) : List Instruction :=
  order.flatMap fun b => (g.block b).instructions.toList

theorem rewritten_flatMap_body {g : Graph} {order : List BlockId} {code : List Placed}
    (h : Sizing.Alike Sizing.Rewritten (g.placed order) code) :
    List.Forall₂ Sizing.Rewritten (g.listing order) (code.flatMap Placed.body) := by
  induction order generalizing code with
  | nil =>
    cases h
    exact .nil
  | cons b order ih =>
    obtain ⟨p, rest, hp, hrest, rfl⟩ := List.forall₂_cons_left_iff.mp h
    rw [Graph.listing, List.flatMap_cons, List.flatMap_cons]
    exact List.rel_append hp.2 (ih hrest)

/-- The code consists of the instructions `body`, and its line table tells their lines. -/
structure CodeObject.Lined (c : CodeObject) (body : List Instruction) : Prop where
  code_eq : c.code = bodyBytes body
  part : Lines.Part 0 c.lines c.code.length
  changing : Lines.Changing c.lines
  isSome_lineAt? : ∀ offset, (c.lineAt? offset).isSome = true ↔ offset.toNat < c.code.length
  /-- At every byte of an instruction, widening units included. -/
  lineAt? : ∀ (j : Nat) (i : Instruction) (offset : UInt32), body[j]? = some i →
    bodySize (body.take j) ≤ offset.toNat → offset.toNat < bodySize (body.take j) + i.size →
    ∃ line, c.lineAt? offset = some line ∧
      Lines.Holds c.firstLine ((body.take (j + 1)).map Instruction.line) line

/-- Assembly writes the instructions of the blocks laid out, with jumps settled. The ranges of the
line table part the bytes, and each byte has the line that holds at its instruction. -/
theorem Draft.assemble_lined {d : Draft} {addNone : Bool} {filename : String} {c : CodeObject}
    (h : d.assemble addNone filename = .ok c) :
    ∃ body, List.Forall₂ Sizing.Rewritten
        (Graph.listing (d.close addNone).blocks (layout (d.close addNone).blocks
          (reachable (d.close addNone).blocks entry) entry)) body ∧
      c.Lined body := by
  have hfirst := firstLine_of_assemble h
  have hword := length_code_lt h
  obtain ⟨_, offs, code, out, _, rfl, _, hsettle, _, hwrite, hcode, _, _, _, _, _, _, hlines⟩ :=
    assemble_eq_ok h
  have hbody := rewritten_flatMap_body (Sizing.alike_of_settle hsettle)
  have hout := Assembly.Output.eq_foldl_of_writeBlocks hwrite
  generalize code.flatMap Placed.body = body at hbody hout
  have hbytes : c.code = bodyBytes body := by
    rw [hcode, hout, Assembly.Output.toList_foldl_write]
    rfl
  have hsize : c.code.length = bodySize body := by rw [hbytes, length_bodyBytes]
  have hparted := Assembly.Output.parted_foldl_write c.firstLine (hsize ▸ hword)
  rw [hfirst, ← hout, ← hlines, ← hfirst] at hparted
  refine ⟨body, hbody, hbytes, ?_, hparted.changing, fun offset => ?_,
    fun j i offset hi hfrom hto => ?_⟩
  · rw [hsize]
    exact hparted.part
  · rw [hsize]
    exact hparted.part.isSome_lookup_iff (Nat.zero_le _)
  · have hnext : bodySize (body.take (j + 1)) = bodySize (body.take j) + i.size := by
      rw [List.take_add_one, hi, Option.toList_some, Assembly.Output.bodySize_concat]
    exact ⟨_, hparted.lookup_eq j offset hfrom (hnext ▸ hto), Lines.holds_carry _ _⟩

/-- A wide instruction without a stamp, and two lines of which the first is stamped twice. -/
def Draft.stamps : Draft :=
  { ofTable "<module>" "<module>" .module 0 7 false with
    blocks := #[⟨#[⟨.loadName, 0x1FF, none, 0⟩, ⟨.popTop, 0, none, 3⟩, ⟨.loadConst, 0, none, 0⟩,
      ⟨.popTop, 0, none, 3⟩], none, false⟩] }

theorem Draft.stamps_lined : ∃ c, stamps.assemble true "stamps" = .ok c ∧
    c.lines = [⟨0, 4, 7⟩, ⟨4, 10, 3⟩, ⟨10, 14, 7⟩] ∧
    ∃ body, body.map Instruction.line = [0, 3, 0, 3, 7, 0] ∧ c.Lined body := by
  have hok : (stamps.assemble true "stamps").toOption.any (fun c =>
      c.lines = [⟨0, 4, 7⟩, ⟨4, 10, 3⟩, ⟨10, 14, 7⟩]) = true := by
    decide +kernel
  have hstamps : (Graph.listing (stamps.close true).blocks (layout (stamps.close true).blocks
      (reachable (stamps.close true).blocks entry) entry)).map Instruction.line =
      [0, 3, 0, 3, 7, 0] := by
    decide
  cases hc : stamps.assemble true "stamps" with
  | error e =>
    rw [hc] at hok
    cases hok
  | ok c =>
    rw [hc] at hok
    have hlines : c.lines = [⟨0, 4, 7⟩, ⟨4, 10, 3⟩, ⟨10, 14, 7⟩] := of_decide_eq_true hok
    obtain ⟨body, hbody, hlined⟩ := assemble_lined hc
    exact ⟨c, rfl, hlines, body, (map_line_of_rewritten hbody).trans hstamps, hlined⟩

end Wordcode
