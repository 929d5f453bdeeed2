import Mathlib.Data.List.Nodup
import Wordcode.Proofs.Layout
import Wordcode.Proofs.Sizing

/-!
# Assembly keeps the control flow

The wordcode of a draft, read back, is a listing of its reachable blocks one behind the other. What
follows an instruction there is what the graph falls through to, and what a jump goes to is the
first instruction met from the block it names. The places of instructions in the graph stand for
their numbers in the listing throughout.
-/

set_option autoImplicit false

namespace Wordcode

section FlatMap
variable {α β : Type} {f : α → List β}

theorem getElem?_flatMap {xs : List α} {a : Nat} {x : α} (hx : xs[a]? = some x) {i : Nat}
    (hi : i < (f x).length) :
    (xs.flatMap f)[((xs.take a).flatMap f).length + i]? = (f x)[i]? := by
  induction xs generalizing a with
  | nil => simp at hx
  | cons y ys ih =>
    cases a with
    | zero =>
      obtain rfl : y = x := by simpa using hx
      simp [List.getElem?_append_left hi]
    | succ a =>
      rw [List.take_succ_cons, List.flatMap_cons, List.flatMap_cons, List.length_append,
        Nat.add_assoc, List.getElem?_append_right (Nat.le_add_right _ _), Nat.add_sub_cancel_left]
      exact ih hx

theorem exists_of_getElem?_flatMap {xs : List α} {k : Nat} {y : β}
    (h : (xs.flatMap f)[k]? = some y) : ∃ (a : Nat) (x : α) (i : Nat), xs[a]? = some x ∧
      (f x)[i]? = some y ∧ k = ((xs.take a).flatMap f).length + i := by
  induction xs generalizing k with
  | nil => simp at h
  | cons x xs ih =>
    rw [List.flatMap_cons] at h
    rcases Nat.lt_or_ge k (f x).length with hk | hk
    · rw [List.getElem?_append_left hk] at h
      exact ⟨0, x, k, rfl, h, by simp⟩
    · rw [List.getElem?_append_right hk] at h
      obtain ⟨a, z, i, hz, hi, heq⟩ := ih h
      refine ⟨a + 1, z, i, hz, hi, ?_⟩
      rw [List.take_succ_cons, List.flatMap_cons, List.length_append]
      omega

theorem take_flatMap {xs : List α} {a : Nat} {x : α} (hx : xs[a]? = some x) {i : Nat}
    (hi : i ≤ (f x).length) :
    (xs.flatMap f).take (((xs.take a).flatMap f).length + i) =
      (xs.take a).flatMap f ++ (f x).take i := by
  induction xs generalizing a with
  | nil => simp at hx
  | cons y ys ih =>
    cases a with
    | zero =>
      obtain rfl : y = x := by simpa using hx
      simp [List.take_append_of_le_length hi]
    | succ a =>
      rw [List.take_succ_cons, List.flatMap_cons, List.flatMap_cons, List.length_append,
        Nat.add_assoc, List.take_length_add_append, ih hx, List.append_assoc]

theorem flatMap_take_succ {xs : List α} {a : Nat} {x : α} (hx : xs[a]? = some x) :
    (xs.take (a + 1)).flatMap f = (xs.take a).flatMap f ++ f x := by
  simp [List.take_add_one, hx]

end FlatMap

namespace Assembly.Output

theorem toList_foldl_write (firstLine : UInt32) (out : Output) (body : List Instruction) :
    (body.foldl (write firstLine) out).code.toList = out.code.toList ++ bodyBytes body := by
  induction body generalizing out with
  | nil => simp [bodyBytes]
  | cons i rest ih =>
    rw [List.foldl_cons, ih]
    simp [write, bodyBytes]

/-- Blocks are written instruction by instruction. -/
theorem eq_foldl_of_writeBlocks {firstLine : UInt32} {offs : Offsets} {code : List Placed}
    {out result : Output} (h : writeBlocks firstLine offs out code = .ok result) :
    result = (code.flatMap Placed.body).foldl (write firstLine) out := by
  induction code generalizing out with
  | nil =>
    cases h
    rfl
  | cons p rest ih =>
    unfold writeBlocks at h
    simp only at h
    split at h
    · rw [ih h, List.flatMap_cons, List.foldl_append]
    · cases h

/-- The bytes of the blocks follow each other. -/
theorem of_writeBlocks {firstLine : UInt32} {offs : Offsets} {code : List Placed}
    {out result : Output} (h : writeBlocks firstLine offs out code = .ok result) :
    result.code.toList = out.code.toList ++ bodyBytes (code.flatMap Placed.body) := by
  rw [eq_foldl_of_writeBlocks h, toList_foldl_write]

end Assembly.Output

namespace Graph

/-- The places of the instructions of a block, then those of the next block, and so on. -/
def places (g : Graph) (order : List BlockId) : List Place :=
  order.flatMap fun b => (List.range (g.block b).instructions.size).map (Place.mk b)

theorem mem_places {g : Graph} {order : List BlockId} {p : Place} :
    p ∈ g.places order ↔ p.block ∈ order ∧ p.index < (g.block p.block).instructions.size := by
  obtain ⟨b, k⟩ := p
  simp only [places, List.mem_flatMap, List.mem_map, List.mem_range, Place.mk.injEq]
  constructor
  · rintro ⟨c, hc, j, hj, rfl, rfl⟩
    exact ⟨hc, hj⟩
  · rintro ⟨hb, hk⟩
    exact ⟨b, hb, k, hk, rfl, rfl⟩

theorem nodup_places (g : Graph) {order : List BlockId} (h : order.Nodup) :
    (g.places order).Nodup := by
  rw [places, List.nodup_flatMap]
  refine ⟨fun b _ => List.Nodup.map (fun j k hjk => by simpa using hjk) List.nodup_range, ?_⟩
  refine h.imp fun hne => ?_
  intro p hp hq
  obtain ⟨j, _, rfl⟩ := List.mem_map.mp hp
  obtain ⟨k, _, hk⟩ := List.mem_map.mp hq
  exact hne (Place.mk.inj hk).1.symm

end Graph

/-- The code lists the blocks of a graph in the order `order`, and moves between instructions as
the graph does. -/
structure Realizes (g : Graph) (entry : BlockId) (order : List BlockId) (code : List Decoded) :
    Prop where
  /-- The blocks listed are those that can be reached, each once. -/
  nodup : order.Nodup
  mem_iff : ∀ b, b ∈ order ↔ g.Reaches entry b
  length_eq : code.length = (g.places order).length
  /-- An instruction has the opcode it has in the graph, and unless it jumps the operand. -/
  agrees : ∀ (k : Nat) (p : Place), (g.places order)[k]? = some p → ∃ (i : Instruction) (d : Decoded),
    g.instruction? p = some i ∧ code[k]? = some d ∧ d.opcode = i.opcode ∧ (i.target = none → d.arg = i.arg)
  /-- The code begins with the first instruction met. -/
  entry_first : ∃ (p : Place) (d : Decoded), g.Meets entry 0 p ∧ (g.places order)[0]? = some p ∧
    code[0]? = some d ∧ d.offset = 0
  /-- What stands behind an instruction is what it falls through to. -/
  falls : ∀ (k : Nat) (p : Place) (i : Instruction), (g.places order)[k]? = some p →
    g.instruction? p = some i → i.opcode.isTerminal = false →
    ∃ q, g.Meets p.block (p.index + 1) q ∧ (g.places order)[k + 1]? = some q
  /-- A jump tells the offset of the first instruction met from its target, and no instruction
  before that one has this offset. -/
  jumps : ∀ (k : Nat) (p : Place) (i : Instruction) (t : BlockId) (d : Decoded),
    (g.places order)[k]? = some p → g.instruction? p = some i → i.target = some t →
    code[k]? = some d → ∃ (q : Place) (off : UInt32) (j : Nat), g.Meets t 0 q ∧
      d.jumpTarget = .ok (some off) ∧ (g.places order)[j]? = some q ∧
      code.findIdx? (fun e => e.offset == off) = some j

theorem Opcode.not_relative_of_absolute {op : Opcode} (h : op.isAbsoluteJump = true) :
    op.isRelativeJump = false := by
  cases op <;> first | rfl | cases h

section
open Sizing

/-- The operand of a jump, as its code has it, tells where its target starts. -/
theorem jumpTarget_eq {offs : Offsets} {i : Instruction} {start off : Nat} {t : BlockId}
    (ht : i.target = some t) (hjump : i.opcode.isJump = true)
    (hoff : offs.getD t none = some off) (hword : off < UInt32.size)
    (h : resolve offs i (start + i.size) = .ok i) :
    (⟨UInt32.ofNat start, UInt32.ofNat i.size, i.opcode, i.arg⟩ : Decoded).jumpTarget =
      .ok (some (UInt32.ofNat off)) := by
  rcases resolve_eq_ok h with ⟨hnone, _⟩ | ⟨t', arg, ht', hop, hi⟩
  · rw [ht] at hnone
    cases hnone
  obtain rfl : t = t' := Option.some.inj (ht.symm.trans ht')
  have harg : i.arg = arg := congrArg Instruction.arg hi
  obtain ⟨off', hoff', hcase⟩ := operand_eq_ok.mp hop
  obtain rfl : off = off' := Option.some.inj (hoff.symm.trans hoff')
  rw [← harg] at hcase
  cases hrel : i.opcode.isRelativeJump with
  | false =>
    rw [if_neg (by simp [hrel])] at hcase
    have habs : i.opcode.isAbsoluteJump = true := by simpa [Opcode.isJump, hrel] using hjump
    rw [Decoded.jumpTarget, if_pos habs, ← hcase, UInt32.ofNat_toNat]
  | true =>
    rw [if_pos hrel] at hcase
    have hsum : (UInt32.ofNat start).toNat + (UInt32.ofNat i.size).toNat + i.arg.toNat = off := by
      rw [UInt32.toNat_ofNat_of_lt' (by omega), UInt32.toNat_ofNat_of_lt' (by omega)]
      exact hcase
    have habs : ¬ i.opcode.isAbsoluteJump = true := fun habs => by
      rw [Opcode.not_relative_of_absolute habs] at hrel
      cases hrel
    rw [Decoded.jumpTarget, if_neg habs, if_pos hrel]
    simp only [hsum]
    exact if_pos hword

theorem Sizing.ResolvedBody.getElem? {offs : Offsets} {pos : Nat} {body body' : List Instruction}
    (h : ResolvedBody offs pos body body') {k : Nat} {i : Instruction} (hi : body[k]? = some i) :
    ∃ j, body'[k]? = some j ∧ resolve offs i (pos + bodySize (body.take k) + i.size) = .ok j := by
  induction h generalizing k with
  | nil => simp at hi
  | @cons pos i' j body body' hj _ ih =>
    cases k with
    | zero =>
      obtain rfl : i' = i := by simpa using hi
      exact ⟨j, rfl, by simpa [bodySize] using hj⟩
    | succ k =>
      obtain ⟨j', hj', hres⟩ := ih hi
      refine ⟨j', hj', ?_⟩
      rw [List.take_succ_cons, bodySize_cons, ← Nat.add_assoc]
      exact hres

theorem bodySize_flatMap (code : List Placed) :
    bodySize (code.flatMap Placed.body) = codeSize code := by
  induction code with
  | nil => rfl
  | cons p rest ih => rw [List.flatMap_cons, bodySize_append, ih, codeSize_cons]

/-- The blocks of a graph in a given order, as they are before jumps are settled. -/
def Graph.placed (g : Graph) (order : List BlockId) : List Placed :=
  order.map fun b => ⟨b, (g.block b).instructions.toList⟩

theorem length_flatMap_body {g : Graph} {order : List BlockId} {code : List Placed}
    (h : Alike Rewritten (g.placed order) code) :
    (code.flatMap Placed.body).length = (g.places order).length := by
  induction order generalizing code with
  | nil =>
    cases h
    rfl
  | cons b order ih =>
    obtain ⟨p, rest, hp, hrest, rfl⟩ := List.forall₂_cons_left_iff.mp h
    have hlen : (g.block b).instructions.toList.length = p.body.length := hp.2.length_eq
    rw [List.flatMap_cons, List.length_append, ih hrest, ← hlen]
    simp [Graph.places]

/-- Settled code for the reachable blocks of a graph, laid out as `order` says. -/
structure Laid (g : Graph) (entry : BlockId) (order : List BlockId) (code : List Placed) :
    Prop where
  sound : g.Sound
  entry_lt : entry < g.size
  nodup : order.Nodup
  mem_iff : ∀ b, b ∈ order ↔ g.Reaches entry b
  head : order[0]? = some entry
  after : ∀ (a : Nat) (b n : BlockId), order[a]? = some b → (g.block b).terminal = false →
    (g.block b).next = some n → order[a + 1]? = some n
  linked : ∀ b ∈ order, (g.block b).terminal = false → (g.block b).next ≠ none
  alike : Alike Rewritten (g.placed order) code
  resolved : ResolvedCode (offsets g.size code) code code
  word : ∀ a p, code[a]? = some p → codeSize (code.take a) < UInt32.size

namespace Laid
variable {g : Graph} {entry : BlockId} {order : List BlockId} {code : List Placed}

theorem exists_placed (h : Laid g entry order code) {a : Nat} {b : BlockId}
    (hb : order[a]? = some b) : ∃ p, code[a]? = some p ∧ b = p.id ∧
      List.Forall₂ Rewritten (g.block b).instructions.toList p.body := by
  have hplaced : (g.placed order)[a]? = some ⟨b, (g.block b).instructions.toList⟩ := by
    simp [Graph.placed, hb]
  exact forall₂_getElem? h.alike hplaced

theorem length_take (h : Laid g entry order code) (a : Nat) :
    ((code.take a).flatMap Placed.body).length = (g.places (order.take a)).length := by
  apply length_flatMap_body
  rw [Graph.placed, List.map_take]
  exact List.forall₂_take a h.alike

/-- The instruction of a place is found at the place's number, behind the code before it. -/
theorem getElem?_code (h : Laid g entry order code) {a : Nat} {p : Placed}
    (hp : code[a]? = some p) {k : Nat} {j : Instruction}
    (hj : p.body[k]? = some j) :
    (decodedBody 0 (code.flatMap Placed.body))[(g.places (order.take a)).length + k]? =
      some ⟨UInt32.ofNat (codeSize (code.take a) + bodySize (p.body.take k)),
        UInt32.ofNat j.size, j.opcode, j.arg⟩ := by
  have hk : k < p.body.length := (List.getElem?_eq_some_iff.mp hj).1
  rw [getElem?_decodedBody, ← h.length_take a, getElem?_flatMap hp hk, hj,
    take_flatMap hp (Nat.le_of_lt hk), bodySize_append, bodySize_flatMap]
  simp

theorem getElem?_places {a : Nat} {b : BlockId} (hb : order[a]? = some b) {k : Nat}
    (hk : k < (g.block b).instructions.size) :
    (g.places order)[(g.places (order.take a)).length + k]? = some ⟨b, k⟩ := by
  have hlen : k < ((List.range (g.block b).instructions.size).map (Place.mk b)).length := by
    simpa using hk
  have hget := getElem?_flatMap
    (f := fun c => (List.range (g.block c).instructions.size).map (Place.mk c)) hb hlen
  rw [Graph.places, Graph.places, hget]
  simp [hk]

theorem exists_of_getElem?_places {k : Nat} {p : Place} (h : (g.places order)[k]? = some p) :
    ∃ a, order[a]? = some p.block ∧ p.index < (g.block p.block).instructions.size ∧
      k = (g.places (order.take a)).length + p.index := by
  obtain ⟨a, b, i, hb, hi, hk⟩ := exists_of_getElem?_flatMap h
  rw [List.getElem?_map] at hi
  obtain ⟨j, hj, rfl⟩ := Option.map_eq_some_iff.mp hi
  obtain ⟨hlt, rfl⟩ := List.getElem?_eq_some_iff.mp hj
  rw [List.length_range] at hlt
  refine ⟨a, hb, by simpa using hlt, ?_⟩
  rw [hk, List.getElem_range]
  rfl

theorem length_places_succ {a : Nat} {b : BlockId} (hb : order[a]? = some b) :
    (g.places (order.take (a + 1))).length =
      (g.places (order.take a)).length + (g.block b).instructions.size := by
  rw [Graph.places, flatMap_take_succ hb, List.length_append, List.length_map, List.length_range]
  rfl

/-- The first instruction met from a block stands where the block starts. Empty blocks take up no
room, and the last block of the order is closed. -/
theorem exists_meets (h : Laid g entry order code) (a : Nat) {b : BlockId}
    (hb : order[a]? = some b) : ∃ q, g.Meets b 0 q ∧
      (g.places order)[(g.places (order.take a)).length]? = some q := by
  by_cases hsize : (g.block b).instructions.size = 0
  · have hterm : (g.block b).terminal = false := by
      cases hterm : (g.block b).terminal with
      | false => rfl
      | true =>
        have := (h.sound b).size_pos hterm
        omega
    obtain ⟨n, hn⟩ := Option.ne_none_iff_exists'.mp
      (h.linked b (List.mem_of_getElem? hb) hterm)
    have hafter := h.after a b n hb hterm hn
    have hlt : a + 1 < order.length := (List.getElem?_eq_some_iff.mp hafter).1
    obtain ⟨q, hq, hplace⟩ := exists_meets h (a + 1) hafter
    refine ⟨q, .onward (by omega) hterm hn hq, ?_⟩
    rw [length_places_succ hb, hsize, Nat.add_zero] at hplace
    exact hplace
  · have hpos := Nat.pos_of_ne_zero hsize
    exact ⟨⟨b, 0⟩, .here hpos, getElem?_places hb hpos⟩
termination_by order.length - a

/-- Two instructions of the code that start at the same byte are the same. -/
theorem bodySize_take_lt {body : List Instruction} {j k : Nat} (hjk : j < k)
    (hk : k ≤ body.length) : bodySize (body.take j) < bodySize (body.take k) := by
  induction body generalizing j k with
  | nil =>
    rw [List.length_nil] at hk
    omega
  | cons i rest ih =>
    obtain ⟨k, rfl⟩ : ∃ m, k = m + 1 := ⟨k - 1, by omega⟩
    rw [List.take_succ_cons, bodySize_cons]
    have hpos : 0 < i.size := Nat.mul_pos (by omega) (codeUnits_pos i.arg)
    cases j with
    | zero =>
      rw [List.take_zero, show bodySize [] = 0 from rfl]
      omega
    | succ j =>
      rw [List.take_succ_cons, bodySize_cons]
      have := ih (j := j) (k := k) (by omega) (by simpa using hk)
      omega

/-- A block's offset leads to the instruction that stands where the block starts. -/
theorem findIdx?_offset (h : Laid g entry order code) {a : Nat} {b : BlockId}
    (hb : order[a]? = some b) (hlt : (g.places (order.take a)).length < (g.places order).length) :
    (decodedBody 0 (code.flatMap Placed.body)).findIdx?
      (fun e => e.offset == UInt32.ofNat (codeSize (code.take a))) =
        some (g.places (order.take a)).length := by
  obtain ⟨p, hp, _, _⟩ := h.exists_placed hb
  have hlen : (code.flatMap Placed.body).length = (g.places order).length :=
    length_flatMap_body h.alike
  have hstart : bodySize ((code.flatMap Placed.body).take (g.places (order.take a)).length) =
      codeSize (code.take a) := by
    rw [← h.length_take a]
    have := take_flatMap (f := Placed.body) hp (Nat.zero_le _)
    rw [Nat.add_zero] at this
    rw [this, List.take_zero, List.append_nil, bodySize_flatMap]
  have hoffset (k : Nat) (hk : k < (decodedBody 0 (code.flatMap Placed.body)).length) :
      (decodedBody 0 (code.flatMap Placed.body))[k].offset =
        UInt32.ofNat (bodySize ((code.flatMap Placed.body).take k)) := by
    have hget := getElem?_decodedBody 0 (code.flatMap Placed.body) k
    rw [List.getElem?_eq_getElem hk,
      List.getElem?_eq_getElem (by simpa using hk), Option.map_some, Option.some.injEq] at hget
    rw [hget, Nat.zero_add]
  have hword := h.word a p hp
  rw [List.findIdx?_eq_some_iff_getElem]
  refine ⟨by rw [length_decodedBody]; omega, ?_, ?_⟩
  · rw [hoffset, hstart, beq_self_eq_true]
  · intro k hk
    rw [hoffset, beq_iff_eq]
    have hless : bodySize ((code.flatMap Placed.body).take k) < codeSize (code.take a) :=
      hstart ▸ bodySize_take_lt hk (by omega)
    intro heq
    have hnat := congrArg UInt32.toNat heq
    rw [UInt32.toNat_ofNat_of_lt' (by omega), UInt32.toNat_ofNat_of_lt' hword] at hnat
    omega

theorem meets_after (h : Laid g entry order code) {a : Nat} {b : BlockId} {i : Instruction}
    {k : Nat} (hb : order[a]? = some b) (hi : (g.block b).instructions[k]? = some i)
    (hterm : i.opcode.isTerminal = false) : ∃ q, g.Meets b (k + 1) q ∧
      (g.places order)[(g.places (order.take a)).length + k + 1]? = some q := by
  have hk : k < (g.block b).instructions.size := (Array.getElem?_eq_some_iff.mp hi).1
  rcases Nat.lt_or_ge (k + 1) (g.block b).instructions.size with hlt | hge
  · exact ⟨⟨b, k + 1⟩, .here hlt, getElem?_places hb hlt⟩
  · have hopen : (g.block b).terminal = false := by
      have := (h.sound b).terminal_eq k i hi
      rw [hterm, decide_eq_true (show k + 1 = (g.block b).instructions.size by omega),
        Bool.and_true] at this
      exact this.symm
    obtain ⟨n, hn⟩ := Option.ne_none_iff_exists'.mp
      (h.linked b (List.mem_of_getElem? hb) hopen)
    obtain ⟨q, hq, hplace⟩ := h.exists_meets (a + 1) (h.after a b n hb hopen hn)
    refine ⟨q, .onward hge hopen hn hq, ?_⟩
    rw [length_places_succ hb] at hplace
    rw [show (g.places (order.take a)).length + k + 1 =
      (g.places (order.take a)).length + (g.block b).instructions.size by omega]
    exact hplace

theorem realizes (h : Laid g entry order code) :
    Realizes g entry order (decodedBody 0 (code.flatMap Placed.body)) := by
  have hlen : (decodedBody 0 (code.flatMap Placed.body)).length = (g.places order).length := by
    rw [length_decodedBody]
    exact length_flatMap_body h.alike
  -- an instruction at its place, as the graph has it and as the code has it
  have hplace {k : Nat} {q : Place} (hq : (g.places order)[k]? = some q) :
      ∃ a p i j, order[a]? = some q.block ∧ code[a]? = some p ∧ q.block = p.id ∧
        k = (g.places (order.take a)).length + q.index ∧ g.instruction? q = some i ∧
        p.body[q.index]? = some j ∧ Rewritten i j := by
    obtain ⟨a, hb, hlt, hk⟩ := exists_of_getElem?_places hq
    obtain ⟨p, hp, hid, hbody⟩ := h.exists_placed hb
    have hi : (g.block q.block).instructions.toList[q.index]? =
        some (g.block q.block).instructions[q.index] := by simp [hlt]
    obtain ⟨j, hj, hij⟩ := forall₂_getElem? hbody hi
    exact ⟨a, p, _, j, hb, hp, hid, hk, by simp [Graph.instruction?, hlt], hj, hij⟩
  refine ⟨h.nodup, h.mem_iff, hlen, ?_, ?_, ?_, ?_⟩
  · intro k q hq
    obtain ⟨a, p, i, j, _, hp, _, rfl, hi, hj, hij⟩ := hplace hq
    exact ⟨i, _, hi, h.getElem?_code hp hj, hij.opcode, hij.arg⟩
  · obtain ⟨q, hq, hfirst⟩ := h.exists_meets 0 h.head
    rw [List.take_zero, show g.places [] = [] from rfl, List.length_nil] at hfirst
    obtain ⟨a, p, i, j, _, hp, _, hk, _, hj, _⟩ := hplace hfirst
    have hcode := h.getElem?_code hp hj
    rw [← hk] at hcode
    refine ⟨q, _, hq, hfirst, hcode, ?_⟩
    have hzero := getElem?_decodedBody 0 (code.flatMap Placed.body) 0
    rw [hcode] at hzero
    obtain ⟨i', _, hi'⟩ := Option.map_eq_some_iff.mp hzero.symm
    rw [← hi']
    rfl
  · intro k q i hq hi hterm
    obtain ⟨a, hb, _, rfl⟩ := exists_of_getElem?_places hq
    exact h.meets_after hb hi hterm
  · intro k q i t d hq hi ht hd
    obtain ⟨a, p, i', j, hb, hp, hid, rfl, hi', hj, hij⟩ := hplace hq
    obtain rfl : i = i' := Option.some.inj (hi.symm.trans hi')
    have hmem : i ∈ (g.block q.block).instructions := Array.mem_of_getElem? hi
    have hreach : g.Reaches entry t :=
      ((h.mem_iff q.block).mp (List.mem_of_getElem? hb)).jump hmem ht
    obtain ⟨a', ha'⟩ := List.getElem?_of_mem ((h.mem_iff t).mpr hreach)
    obtain ⟨p', hp', hid', _⟩ := h.exists_placed ha'
    obtain ⟨r, hr, hrplace⟩ := h.exists_meets a' ha'
    have hids : (code.map Placed.id).Nodup := by
      rw [h.alike.map_id]
      simpa [Graph.placed, Function.comp_def] using h.nodup
    have hlt : ∀ s ∈ code, s.id < g.size := by
      apply h.alike.id_lt
      intro s hs
      obtain ⟨c, hc, rfl⟩ := List.mem_map.mp hs
      exact ((h.mem_iff c).mp hc).lt h.sound h.entry_lt
    have hoff : (offsets g.size code).getD t none = some (codeSize (code.take a')) := by
      rw [hid']
      exact getD_offsets hids hlt hp'
    have hjump : j.opcode.isJump = true := by
      rw [hij.opcode, ← ((h.sound q.block).instructions i hmem).target_isSome, ht]
      rfl
    obtain ⟨p'', hp'', _, hres⟩ := forall₂_getElem? h.resolved hp
    obtain rfl : p = p'' := Option.some.inj (hp.symm.trans hp'')
    obtain ⟨j', hj', hresolve⟩ := hres.getElem? hj
    obtain rfl : j = j' := Option.some.inj (hj.symm.trans hj')
    rw [startOf, getD_offsets hids hlt hp, Option.getD_some] at hresolve
    have htarget := jumpTarget_eq (hij.target.trans ht) hjump hoff (h.word a' p' hp') hresolve
    have hcode := h.getElem?_code hp hj
    rw [hd] at hcode
    obtain rfl := Option.some.inj hcode
    exact ⟨r, _, _, hr, htarget, hrplace,
      h.findIdx?_offset ha' (List.getElem?_eq_some_iff.mp hrplace).1⟩

end Laid
end

theorem Graph.Sound.rising {g : Graph} (hg : g.Sound) (order : List BlockId) :
    Sizing.Rising g.size (g.placed order) := by
  apply Sizing.rising_of_args_zero
  intro p hp i hi htarget
  obtain ⟨b, _, rfl⟩ := List.mem_map.mp hp
  have hsound := (hg b).instructions i (Array.mem_toList_iff.mp hi)
  exact hsound.arg_eq_zero (hsound.target_isSome ▸ htarget)

/-- What assembly went through to give a code object. -/
theorem Draft.assemble_eq_ok {d : Draft} {addNone : Bool} {filename : String} {c : CodeObject}
    (h : d.assemble addNone filename = .ok c) :
    ∃ (order : List BlockId) (offs : Offsets) (code : List Placed) (out : Assembly.Output)
      (depth : UInt32),
      order = layout (d.close addNone).blocks (reachable (d.close addNone).blocks entry) entry ∧
      checkLayout (d.close addNone).blocks order = .ok () ∧
      Sizing.settle (d.close addNone).blocks.size ((d.close addNone).placedBlocks order) =
        .ok (offs, code) ∧
      maxStackDepth (d.close addNone).blocks entry = .ok depth ∧
      Assembly.Output.writeBlocks (d.close addNone).startLine offs {} code = .ok out ∧
      c.code = out.code.toList ∧ c.stackSize = depth ∧
      c.constants = (d.close addNone).constants.toList ∧
      c.names = (d.close addNone).names.toList ∧ c.varnames = (d.close addNone).varnames.toList ∧
      c.cellvars = (d.close addNone).cellvars.toList ∧
      c.freevars = (d.close addNone).freevars.toList ∧ c.lines = out.lines.toList := by
  unfold Draft.assemble at h
  simp only [bind, Except.bind, pure, Except.pure] at h
  split at h
  · cases h
  next hcheck =>
  split at h
  · cases h
  next settled hsettle =>
  split at h
  · cases h
  next depth hdepth =>
  split at h
  · cases h
  next out hout =>
  obtain ⟨offs, code⟩ := settled
  cases h
  exact ⟨_, offs, code, out, depth, rfl, hcheck, hsettle, hdepth, hout, rfl, rfl, rfl, rfl, rfl, rfl,
    rfl, rfl⟩

/-- Code that was assembled is as long as a word can tell. -/
theorem Draft.length_code_lt {d : Draft} {addNone : Bool} {filename : String} {c : CodeObject}
    (h : d.assemble addNone filename = .ok c) : c.code.length < UInt32.size := by
  obtain ⟨_, offs, code, out, _, rfl, _, hsettle, _, hwrite, hcode, _⟩ := assemble_eq_ok h
  have hbytes : c.code = bodyBytes (code.flatMap Placed.body) := by
    rw [hcode, Assembly.Output.of_writeBlocks hwrite]
    rfl
  rw [hbytes, length_bodyBytes, bodySize_flatMap]
  exact Sizing.codeSize_lt_of_settle hsettle

theorem Draft.laid_of_assemble {d : Draft} (hd : d.Sound) {addNone : Bool}
    {filename : String} {c : CodeObject} (h : d.assemble addNone filename = .ok c)
    (hlinked : ∀ b, Graph.Reaches (d.close addNone).blocks entry b →
      ((d.close addNone).block b).terminal = false → ((d.close addNone).block b).next ≠ none) :
    ∃ order code, Laid (d.close addNone).blocks entry order code ∧
      c.code = bodyBytes (code.flatMap Placed.body) ∧
      order = layout (d.close addNone).blocks (reachable (d.close addNone).blocks entry) entry ∧
      c.lines = ((code.flatMap Placed.body).foldl
        (Assembly.Output.write (d.close addNone).startLine) {}).lines.toList := by
  obtain ⟨order, offs, code, out, depth, rfl, hcheck, hsettle, _, hwrite, hcode, _, _, _, _, _, _,
    hlines⟩ := assemble_eq_ok h
  have hsound := hd.close addNone
  have hentry : entry < (d.close addNone).blocks.size :=
    Nat.lt_of_le_of_lt (Nat.zero_le _) hsound.current_lt
  generalize (d.close addNone) = d at *
  have hbytes := Assembly.Output.of_writeBlocks hwrite
  have hmarked (b : BlockId) := marked_reachable_iff hsound.graph hentry b
  have hmem (b : BlockId) : b ∈ layout d.blocks (reachable d.blocks entry) entry ↔
      Graph.Reaches d.blocks entry b := by
    rw [mem_layout_iff, hmarked]
    exact ⟨And.right, fun hb => ⟨hb.lt hsound.graph hentry, hb⟩⟩
  have hnodup : (layout d.blocks (reachable d.blocks entry) entry).Nodup := nodup_layout
  generalize horder : layout d.blocks (reachable d.blocks entry) entry = order at *
  have hids : ((Graph.placed d.blocks order).map Placed.id).Nodup := by
    simpa [Graph.placed, Function.comp_def] using hnodup
  have hlt : ∀ p ∈ Graph.placed d.blocks order, p.id < d.blocks.size := by
    intro p hp
    obtain ⟨b, hb, rfl⟩ := List.mem_map.mp hp
    exact ((hmem b).mp hb).lt hsound.graph hentry
  obtain ⟨halike, rfl, hresolved⟩ :=
    Sizing.settled_of_settle (hsound.graph.rising order) hids hlt hsettle
  refine ⟨order, code, ⟨hsound.graph, hentry, hnodup, hmem, ?_, ?_, ?_, halike, hresolved, ?_⟩, ?_,
    rfl, by rw [hlines, Assembly.Output.eq_foldl_of_writeBlocks hwrite]⟩
  · rw [← List.head?_eq_getElem?, ← horder]
    exact head?_layout hentry ((hmarked entry).mpr .entry)
  · intro a b n hb hterm hnext
    obtain ⟨ha, rfl⟩ := List.getElem?_eq_some_iff.mp hb
    have hsplit : order = order.take a ++ order[a] :: order.drop (a + 1) := by simp
    rw [← List.head?_drop]
    rw [hsplit] at hcheck
    exact head?_of_checkLayout hcheck hterm hnext
  · intro b hb
    exact hlinked b ((hmem b).mp hb)
  · intro a p hp
    have hle := codeSize_take_le code (Nat.le_of_lt (List.getElem?_eq_some_iff.mp hp).1)
    rw [List.take_length] at hle
    exact Nat.lt_of_le_of_lt hle (Sizing.codeSize_lt_of_settle hsettle)
  · rw [hcode, hbytes]
    rfl

theorem Graph.Sound.not_widening {g : Graph} (hg : g.Sound) {order : List BlockId}
    {code : List Placed} (h : Sizing.Alike Sizing.Rewritten (g.placed order) code) :
    ∀ i ∈ code.flatMap Placed.body, i.opcode ≠ .extendedArg := by
  intro j hj
  obtain ⟨q, hq, hbody⟩ := List.mem_flatMap.mp hj
  obtain ⟨p, hp, _, hpq⟩ := exists_of_forall₂_right h hq
  obtain ⟨b, _, rfl⟩ := List.mem_map.mp hp
  obtain ⟨i, hi, hij⟩ := exists_of_forall₂_right hpq hbody
  rw [hij.opcode]
  exact ((hg b).instructions i (Array.mem_toList_iff.mp hi)).not_widening

/-- The code of a sound draft, read back, realizes the graph of the draft closed by its return. -/
theorem Draft.Sound.exists_realizes {d : Draft} (hd : d.Sound) {addNone : Bool}
    {filename : String} {c : CodeObject} (h : d.assemble addNone filename = .ok c)
    (hlinked : ∀ b, Graph.Reaches (d.close addNone).blocks entry b →
      ((d.close addNone).block b).terminal = false → ((d.close addNone).block b).next ≠ none) :
    ∃ order code, decode c.code = .ok code ∧
      Realizes (d.close addNone).blocks entry order code := by
  obtain ⟨order, code, hlaid, hcode, _⟩ := laid_of_assemble hd h hlinked
  refine ⟨order, _, ?_, hlaid.realizes⟩
  rw [hcode]
  exact decode_bodyBytes (hlaid.sound.not_widening hlaid.alike)

/-- Assembly preserves control flow. Whatever a draft was written by, if every block of it that can
be reached is closed or falls through to some block, then its wordcode can be read back, and moves
from instruction to instruction as the draft's graph does. -/
theorem Draft.assemble_preserves_flow {d : Draft} (hd : d.Written) {addNone : Bool}
    {filename : String} {c : CodeObject}
    (hlinked : ∀ b, Graph.Reaches (d.close addNone).blocks entry b →
      ((d.close addNone).block b).terminal = false → ((d.close addNone).block b).next ≠ none)
    (h : d.assemble addNone filename = .ok c) :
    ∃ order code, decode c.code = .ok code ∧
      Realizes (d.close addNone).blocks entry order code :=
  hd.sound.exists_realizes h hlinked

/-- A block that jumps back to the one before it, and a way around it. -/
def Draft.loop : Draft :=
  let d := (ofTable "<module>" "<module>" .module 0 1 false).newBlock.2
  let d := (d.append ⟨.loadConst, 0, none, 0⟩).append ⟨.popJumpIfFalse, 0, some 1, 0⟩
  let d := d.newBlock.2.fallInto 2
  (d.append ⟨.jumpAbsolute, 0, some 0, 0⟩).fallInto 1

theorem Draft.written_loop : loop.Written := by
  have hload := @Written.emit _ .loadConst 0 _
    (.newBlock (.fresh "<module>" "<module>" .module 0 1 false)) (by decide) (by decide) rfl
  have hbranch := @Written.emitJump _ .popJumpIfFalse 1 _ hload (by decide) rfl
  have hback := @Written.emitJump _ .jumpAbsolute 0 _
    (.fallInto (.newBlock hbranch) (by decide : 2 < _)) (by decide) rfl
  exact .fallInto hback (by decide)

theorem Draft.loop_preserves_flow : ∃ c, loop.assemble true "loop" = .ok c ∧
    ∃ order code, decode c.code = .ok code ∧
      Realizes (loop.close true).blocks entry order code := by
  have hok : (loop.assemble true "loop").isOk = true := by decide +kernel
  obtain ⟨c, hc⟩ : ∃ c, loop.assemble true "loop" = .ok c := by
    cases h : loop.assemble true "loop" with
    | error e => simp [h, Except.isOk, Except.toBool] at hok
    | ok c => exact ⟨c, rfl⟩
  have hall : ∀ b < (loop.close true).blocks.size, ((loop.close true).block b).terminal = false →
      ((loop.close true).block b).next ≠ none := by decide
  refine ⟨c, hc, assemble_preserves_flow written_loop (fun b hb => hall b ?_) hc⟩
  exact hb.lt (written_loop.sound.close true).graph (by decide)

end Wordcode
