import Wordcode.Proofs.Settling

/-!
# Jumps as narrow as can be

Give every jump a width so that its operand, by the offsets these widths make, fits in it. Jumps
start out no wider than that, and a pass over code that is no wider computes operands that are no
greater; so no pass ever comes to a wider jump than the one given. The settled widths are such
widths themselves, hence the least.
-/

set_option autoImplicit false

namespace Wordcode

/-- The least operand that takes so many units. -/
def leastOperand (units : Nat) : UInt32 :=
  if units ≤ 1 then 0 else if units = 2 then 0x100 else if units = 3 then 0x10000 else 0x1000000

theorem codeUnits_leastOperand {units : Nat} (hpos : 1 ≤ units) (hle : units ≤ 4) :
    codeUnits (leastOperand units) = units := by
  obtain rfl | rfl | rfl | rfl : units = 1 ∨ units = 2 ∨ units = 3 ∨ units = 4 := by omega
  all_goals decide

/-- The width of an instruction if it has so many units in case it is a jump. -/
def Instruction.sizeBy (units : Nat) (i : Instruction) : Nat :=
  if i.isJump then 2 * units else i.size

def Instruction.widenTo (units : Nat) (i : Instruction) : Instruction :=
  if i.isJump then { i with arg := leastOperand units } else i

namespace Sizing

/-- The size of a body whose jump number `k` has `units k` units. -/
def bodySizeBy : (Nat → Nat) → List Instruction → Nat
  | _, [] => 0
  | units, i :: rest => i.sizeBy (units 0) + bodySizeBy (fun k => units (k + 1)) rest

/-- The size of code whose jump number `k` in the block at place `a` has `units a k` units. -/
def codeSizeBy : (Nat → Nat → Nat) → List Placed → Nat
  | _, [] => 0
  | units, p :: rest => bodySizeBy (units 0) p.body + codeSizeBy (fun a => units (a + 1)) rest

/-- A number of units for each jump, by the place of its block and its number there. -/
structure Widths where
  units : Nat → Nat → Nat
  pos : ∀ a k, 1 ≤ units a k
  le : ∀ a k, units a k ≤ 4

namespace Widths

/-- Where the block at place `a` starts if jumps have these widths. -/
def start (w : Widths) (code : List Placed) (a : Nat) : Nat := codeSizeBy w.units (code.take a)

/-- Where instruction `k` of the block at place `a` ends if jumps have these widths. -/
def stop (w : Widths) (code : List Placed) (a k : Nat) (p : Placed) : Nat :=
  w.start code a + bodySizeBy (w.units a) (p.body.take (k + 1))

/-- Each jump goes to a block that has a place, and its operand by these widths, the target's offset
or the distance to it, fits in its units. -/
def Fit (w : Widths) (code : List Placed) : Prop :=
  ∀ (a k : Nat) (p : Placed) (i : Instruction) (t : BlockId), code[a]? = some p →
    p.body[k]? = some i → i.target = some t → ∃ (c : Nat) (q : Placed), code[c]? = some q ∧
      q.id = t ∧
      if i.opcode.isRelativeJump then
        w.stop code a k p ≤ w.start code c ∧
          w.start code c - w.stop code a k p < 256 ^ w.units a k
      else w.start code c < 256 ^ w.units a k

end Widths

/-- The jumps of code have the widths given for their places. -/
def HasUnits (units : Nat → Nat → Nat) (code : List Placed) : Prop :=
  ∀ (a k : Nat) (p : Placed) (i : Instruction), code[a]? = some p → p.body[k]? = some i →
    i.isJump = true → codeUnits i.arg = units a k

theorem HasUnits.take {units : Nat → Nat → Nat} {code : List Placed} (h : HasUnits units code)
    (n : Nat) : HasUnits units (code.take n) := by
  intro a k p i hp
  rw [List.getElem?_take] at hp
  split at hp
  · exact h a k p i hp
  · cases hp

theorem Rewritten.sizeBy_eq {i j : Instruction} (h : Rewritten i j) {units : Nat}
    (hunits : j.isJump = true → codeUnits j.arg = units) : i.sizeBy units = j.size := by
  have hjump : j.isJump = i.isJump := congrArg Option.isSome h.target
  rw [Instruction.sizeBy]
  split
  · next hi => rw [← hunits (hjump.trans hi), Instruction.size]
  · next hi =>
    have hnone : i.target = none := by simpa [Instruction.isJump] using hi
    rw [Instruction.size, Instruction.size, h.arg hnone]

theorem bodySizeBy_eq {units : Nat → Nat} {body body' : List Instruction}
    (h : List.Forall₂ Rewritten body body')
    (hunits : ∀ (k : Nat) (j : Instruction), body'[k]? = some j → j.isJump = true →
      codeUnits j.arg = units k) : bodySizeBy units body = bodySize body' := by
  induction h generalizing units with
  | nil => rfl
  | cons hij _ ih =>
    rw [bodySizeBy, bodySize_cons, hij.sizeBy_eq (hunits 0 _ rfl),
      ih fun k j hj => hunits (k + 1) j hj]

theorem codeSizeBy_eq {units : Nat → Nat → Nat} {code code' : List Placed}
    (h : Alike Rewritten code code') (hunits : HasUnits units code') :
    codeSizeBy units code = codeSize code' := by
  induction h generalizing units with
  | nil => rfl
  | cons hpq _ ih =>
    rw [codeSizeBy, codeSize_cons, bodySizeBy_eq hpq.2 fun k j hj => hunits 0 k _ j rfl hj,
      ih fun a k p i hp => hunits (a + 1) k p i hp]

section Same
variable {w : Widths} {code code' : List Placed}

theorem Widths.start_eq (h : Alike Rewritten code code') (hunits : HasUnits w.units code')
    (a : Nat) : w.start code a = codeSize (code'.take a) :=
  codeSizeBy_eq (List.forall₂_take a h) (hunits.take a)

theorem Widths.stop_eq (h : Alike Rewritten code code') (hunits : HasUnits w.units code')
    {a k : Nat} {p q : Placed} (hq : code'[a]? = some q)
    (hpq : List.Forall₂ Rewritten p.body q.body) :
    w.stop code a k p = codeSize (code'.take a) + bodySize (q.body.take (k + 1)) := by
  rw [stop, Widths.start_eq h hunits, bodySizeBy_eq (List.forall₂_take (k + 1) hpq)]
  intro n j hj
  rw [List.getElem?_take] at hj
  split at hj
  · exact hunits a n q j hq hj
  · cases hj

end Same

def widenBody (units : Nat → Nat) (body : List Instruction) : List Instruction :=
  body.mapIdx fun k i => i.widenTo (units k)

/-- The code with jumps of these widths, whatever the right operands may be. -/
def Widths.widen (w : Widths) (code : List Placed) : List Placed :=
  code.mapIdx fun a p => ⟨p.id, widenBody (w.units a) p.body⟩

theorem rewritten_widenTo (units : Nat) (i : Instruction) : Rewritten i (i.widenTo units) := by
  rw [Instruction.widenTo]
  split
  · next hi => exact ⟨rfl, rfl, rfl, fun hnone => by simp [Instruction.isJump, hnone] at hi⟩
  · exact ⟨rfl, rfl, rfl, fun _ => rfl⟩

theorem Widened.widenTo {units : Nat} {i : Instruction} (hpos : 1 ≤ units) (hle : units ≤ 4)
    (hzero : i.isJump = true → i.arg = 0) : Widened i (i.widenTo units) := by
  refine ⟨rewritten_widenTo units i, ?_⟩
  rw [Instruction.widenTo]
  split
  · next hi =>
    have hunits := codeUnits_leastOperand hpos hle
    simp only [Instruction.size, hzero hi, hunits, codeUnits_zero]
    omega
  · exact Nat.le_refl _

theorem forall₂_widenBody {R : Instruction → Instruction → Prop} {units : Nat → Nat}
    {body : List Instruction} (h : ∀ i ∈ body, ∀ k, R i (i.widenTo (units k))) :
    List.Forall₂ R body (widenBody units body) := by
  induction body generalizing units with
  | nil => exact .nil
  | cons i rest ih =>
    rw [widenBody, List.mapIdx_cons]
    exact .cons (h i List.mem_cons_self 0)
      (ih fun j hj k => h j (List.mem_cons_of_mem i hj) (k + 1))

namespace Widths

theorem alike_widen {R : Instruction → Instruction → Prop} {w : Widths} {code : List Placed}
    (h : ∀ p ∈ code, ∀ i ∈ p.body, ∀ a k, R i (i.widenTo (w.units a k))) :
    Alike R code (w.widen code) := by
  rw [widen]
  generalize w.units = units at h
  induction code generalizing units with
  | nil => exact .nil
  | cons p rest ih =>
    rw [List.mapIdx_cons]
    exact .cons ⟨rfl, forall₂_widenBody fun i hi k => h p List.mem_cons_self i hi 0 k⟩
      (ih _ fun q hq i hi a k => h q (List.mem_cons_of_mem p hq) i hi (a + 1) k)

theorem rewritten_widen (w : Widths) (code : List Placed) : Alike Rewritten code (w.widen code) :=
  alike_widen fun _ _ i _ _ _ => rewritten_widenTo _ i

/-- Jumps whose operands are 0 are no wider than that. -/
theorem widened_widen (w : Widths) {code : List Placed}
    (h : ∀ p ∈ code, ∀ i ∈ p.body, i.isJump = true → i.arg = 0) :
    Alike Widened code (w.widen code) :=
  alike_widen fun p hp i hi a k => .widenTo (w.pos a k) (w.le a k) (h p hp i hi)

theorem hasUnits_widen (w : Widths) (code : List Placed) : HasUnits w.units (w.widen code) := by
  intro a k q j hq hj hjump
  rw [widen, List.getElem?_mapIdx, Option.map_eq_some_iff] at hq
  obtain ⟨p, _, rfl⟩ := hq
  rw [widenBody, List.getElem?_mapIdx, Option.map_eq_some_iff] at hj
  obtain ⟨i, _, rfl⟩ := hj
  have hi : i.isJump = true := by
    rwa [Instruction.isJump, (rewritten_widenTo (w.units a k) i).target] at hjump
  rw [Instruction.widenTo, if_pos hi]
  exact codeUnits_leastOperand (w.pos a k) (w.le a k)

end Widths

/-- A body is resolved as a whole if each instruction is. -/
theorem exists_resolvedBody {R : Instruction → Instruction → Prop} {offs : Offsets} {pos : Nat}
    {body : List Instruction} (h : ∀ (k : Nat) (i : Instruction), body[k]? = some i →
      ∃ j, resolve offs i (pos + bodySize (body.take (k + 1))) = .ok j ∧ R j i) :
    ∃ body', ResolvedBody offs pos body body' ∧ List.Forall₂ R body' body := by
  induction body generalizing pos with
  | nil => exact ⟨[], .nil, .nil⟩
  | cons i rest ih =>
    obtain ⟨j, hj, hji⟩ := h 0 i rfl
    obtain ⟨body', hbody, hrel⟩ := @ih (pos + i.size) (fun k i' hi' => by
      obtain ⟨j', hj', hrel⟩ := h (k + 1) i' hi'
      rw [List.take_succ_cons, bodySize_cons, ← Nat.add_assoc] at hj'
      exact ⟨j', hj', hrel⟩)
    exact ⟨j :: body', .cons hj hbody, .cons hji hrel⟩

theorem exists_resolvedCode {R : Instruction → Instruction → Prop} {offs : Offsets}
    {code : List Placed} (h : ∀ p ∈ code, ∃ body',
      ResolvedBody offs (startOf offs p.id) p.body body' ∧ List.Forall₂ R body' p.body) :
    ∃ code', ResolvedCode offs code code' ∧ Alike R code' code := by
  induction code with
  | nil => exact ⟨[], .nil, .nil⟩
  | cons p rest ih =>
    obtain ⟨body', hbody, hrel⟩ := h p List.mem_cons_self
    obtain ⟨code', hcode, halike⟩ := ih fun q hq => h q (List.mem_cons_of_mem p hq)
    exact ⟨⟨p.id, body'⟩ :: code', .cons ⟨rfl, hbody⟩ hcode, .cons ⟨rfl, hrel⟩ halike⟩

section Least
variable {blockCount : Nat} {w : Widths} {code : List Placed}

/-- An operand that fits in the units of a jump makes it no wider. -/
theorem Widened.of_fits {j : Instruction} (hjump : j.isJump = true) {x : UInt32}
    (hx : x.toNat < 256 ^ codeUnits j.arg) : Widened { j with arg := x } j := by
  refine ⟨⟨rfl, rfl, rfl, fun hnone => ?_⟩, ?_⟩
  · have hnone' : j.target = none := hnone
    rw [Instruction.isJump, hnone'] at hjump
    cases hjump
  · exact Nat.mul_le_mul_left 2 (Decode.codeUnits_le_of_lt (codeUnits_pos j.arg) hx)

/-- If the right operand of a jump fits in its units, it is resolved and no wider. -/
theorem exists_resolve_of_fits {offs : Offsets} {j : Instruction} {stop off : Nat} {t : BlockId}
    (ht : j.target = some t) (hoff : offs.getD t none = some off)
    (hfits : if j.opcode.isRelativeJump then
        stop ≤ off ∧ off - stop < 256 ^ codeUnits j.arg
      else off < 256 ^ codeUnits j.arg) :
    ∃ j', Sizing.resolve offs j stop = .ok j' ∧ Widened j' j := by
  have hjump : j.isJump = true := by rw [Instruction.isJump, ht, Option.isSome_some]
  have hword (n : Nat) (hn : n < 256 ^ codeUnits j.arg) : (UInt32.ofNat n).toNat = n := by
    have hunits : 256 ^ codeUnits j.arg ≤ 256 ^ 4 :=
      Nat.pow_le_pow_right (by decide) (codeUnits_le j.arg)
    exact UInt32.toNat_ofNat_of_lt' (Nat.lt_of_lt_of_le hn hunits)
  split at hfits
  · next hrel =>
    obtain ⟨hle, hlt⟩ := hfits
    have harg := hword _ hlt
    have hop : operand offs j stop t = .ok (UInt32.ofNat (off - stop)) :=
      operand_eq_ok.mpr ⟨off, hoff, by rw [if_pos hrel, harg]; omega⟩
    exact ⟨_, resolve_of_operand ht hop, .of_fits hjump (by rwa [harg])⟩
  · next hrel =>
    have harg := hword _ hfits
    have hop : operand offs j stop t = .ok (UInt32.ofNat off) :=
      operand_eq_ok.mpr ⟨off, hoff, by rw [if_neg hrel, harg]⟩
    exact ⟨_, resolve_of_operand ht hop, .of_fits hjump (by rwa [harg])⟩

/-- Where the jumps of code have fitting widths, each instruction is resolved and no wider. -/
theorem Widths.Fit.resolve (hfit : w.Fit code) (hnodup : (code.map Placed.id).Nodup)
    (hlt : ∀ p ∈ code, p.id < blockCount) {a k : Nat} {q : Placed} {j : Instruction}
    (hq : (w.widen code)[a]? = some q) (hj : q.body[k]? = some j) :
    ∃ j', Sizing.resolve (offsets blockCount (w.widen code)) j
      (codeSize ((w.widen code).take a) + bodySize (q.body.take (k + 1))) = .ok j' ∧
      Widened j' j := by
  have halike := w.rewritten_widen code
  have hunits := w.hasUnits_widen code
  cases ht : j.target with
  | none => exact ⟨j, by rw [Sizing.resolve, ht], ⟨⟨rfl, rfl, rfl, fun _ => rfl⟩, Nat.le_refl _⟩⟩
  | some t =>
    have hjump : j.isJump = true := by rw [Instruction.isJump, ht, Option.isSome_some]
    obtain ⟨p, hp, _, hpq⟩ := forall₂_getElem? (List.Forall₂.flip halike) hq
    obtain ⟨i, hi, hij⟩ := forall₂_getElem? hpq.flip hj
    change Rewritten i j at hij
    obtain ⟨c, r, hr, hrt, hfits⟩ := hfit a k p i t hp hi (hij.target ▸ ht)
    obtain ⟨r', hr', hrid, _⟩ := forall₂_getElem? halike hr
    have hoff := getD_offsets (halike.map_id ▸ hnodup) (halike.id_lt hlt) hr'
    rw [← hrid, hrt] at hoff
    rw [w.start_eq halike hunits, w.stop_eq halike hunits hq hpq, ← hij.opcode,
      ← hunits a k q j hq hj hjump] at hfits
    exact exists_resolve_of_fits ht hoff hfits

theorem Widths.Fit.exists_resolved (hfit : w.Fit code) (hnodup : (code.map Placed.id).Nodup)
    (hlt : ∀ p ∈ code, p.id < blockCount) :
    ∃ code', ResolvedCode (offsets blockCount (w.widen code)) (w.widen code) code' ∧
      Alike Widened code' (w.widen code) := by
  have halike := w.rewritten_widen code
  apply exists_resolvedCode
  intro q hq
  obtain ⟨a, ha⟩ := List.getElem?_of_mem hq
  have hstart : startOf (offsets blockCount (w.widen code)) q.id =
      codeSize ((w.widen code).take a) := by
    rw [startOf, getD_offsets (halike.map_id ▸ hnodup) (halike.id_lt hlt) ha, Option.getD_some]
  rw [hstart]
  exact exists_resolvedBody fun k j hj => hfit.resolve hnodup hlt ha hj

/-- Sizing that starts with code no wider than fitting widths ends with such code. -/
theorem Widened.settle {wide wide' : List Placed} (hnodup : (code.map Placed.id).Nodup)
    (hlt : ∀ p ∈ code, p.id < blockCount) (hgrown : Alike Widened code wide)
    (hwide : ResolvedCode (offsets blockCount wide) wide wide') (hfit : Alike Widened wide' wide)
    {offs : Offsets} {code' : List Placed}
    (h : Sizing.settle blockCount code = .ok (offs, code')) : Alike Widened code' wide := by
  have hpass {before after : List Placed} (hnodup : (before.map Placed.id).Nodup)
      (hlt : ∀ p ∈ before, p.id < blockCount) (hgrown : Alike Widened before wide)
      (hpass : Sizing.pass blockCount before = .ok after) : Alike Widened after wide :=
    Alike.comp (R := Widened) (S := Widened) (T := Widened) (fun _ _ _ hij hjk => hij.trans hjk)
      (Widened.resolved hgrown hnodup hlt (resolvedCode_of_pass hpass) hwide) hfit
  fun_induction Sizing.settle blockCount code with
  | case1 code e he => cases h
  | case2 code next hnext hgrow ih =>
    have hsame := (resolvedCode_of_pass hnext).rewritten
    exact ih (hsame.map_id ▸ hnodup) (hsame.id_lt hlt) (hpass hnodup hlt hgrown hnext) h
  | case3 code next hnext hgrow =>
    cases h
    exact hpass hnodup hlt hgrown hnext

/-- The widths that the jumps of code have. -/
def Widths.ofCode (code : List Placed) : Widths where
  units a k := ((code[a]?.bind fun p => p.body[k]?).map fun i => codeUnits i.arg).getD 1
  pos a k := by
    cases code[a]?.bind fun p => p.body[k]? with
    | none => exact Nat.le_refl 1
    | some i => exact codeUnits_pos i.arg
  le a k := by
    cases code[a]?.bind fun p => p.body[k]? with
    | none => exact (by decide : 1 ≤ 4)
    | some i => exact codeUnits_le i.arg

theorem Widths.hasUnits_ofCode (code : List Placed) : HasUnits (ofCode code).units code := by
  intro a k p i hp hi _
  simp [ofCode, hp, hi]

/-- If the operands of code are exact, its own widths fit. -/
theorem Exact.fit {offs : Offsets} {code' : List Placed} (h : Alike Rewritten code code')
    (hexact : Exact offs code') (hplaced : ∀ t off, offs.getD t none = some off →
      ∃ (c : Nat) (q : Placed), code'[c]? = some q ∧ q.id = t) :
    (Widths.ofCode code').Fit code := by
  have hunits := Widths.hasUnits_ofCode code'
  intro a k p i t hp hi ht
  obtain ⟨q, hq, _, hpq⟩ := forall₂_getElem? h hp
  obtain ⟨j, hj, hij⟩ := forall₂_getElem? hpq hi
  have hjt : j.target = some t := hij.target.trans ht
  have hjump : j.isJump = true := by rw [Instruction.isJump, hjt, Option.isSome_some]
  obtain ⟨off, hoff, hcase⟩ := hexact.jumps a k q j t hq hj hjt
  obtain ⟨c, r', hr', rfl⟩ := hplaced t off hoff
  rw [hexact.starts c r' hr', Option.some.injEq] at hoff
  obtain ⟨r, hr, hrid, _⟩ := forall₂_getElem? (List.Forall₂.flip h) hr'
  have hbound := Decode.codeUnits_bound j.arg
  refine ⟨c, r, hr, hrid, ?_⟩
  rw [Widths.start_eq h hunits, Widths.stop_eq h hunits hq hpq, ← hij.opcode,
    ← hunits a k q j hq hj hjump]
  split at hcase
  · next hrel =>
    rw [if_pos hrel]
    omega
  · next hrel =>
    rw [if_neg hrel]
    omega

end Least
end Sizing

/-- Jumps are as narrow as can be. For any blocks of a draft, each laid out once, whose jumps start
with operand 0: if sizing gives code, then no jump of it is wider than any widths give it under
which every operand fits, so that no such widths make the code shorter, which is written in as many
bytes; and the widths of the code are such widths. -/
theorem Draft.jumps_narrowest (d : Draft) {order : List BlockId} (hnodup : order.Nodup)
    (hlt : ∀ b ∈ order, b < d.blocks.size)
    (hzero : ∀ b ∈ order, ∀ i ∈ (d.block b).instructions, i.isJump = true → i.arg = 0)
    {offs : Offsets} {code : List Placed}
    (h : Sizing.settle d.blocks.size (d.placedBlocks order) = .ok (offs, code)) :
    (∀ w : Sizing.Widths, w.Fit (d.placedBlocks order) →
      (∀ (a k : Nat) (p : Placed) (i : Instruction), code[a]? = some p → p.body[k]? = some i →
        i.isJump = true → codeUnits i.arg ≤ w.units a k) ∧
      codeSize code ≤ Sizing.codeSizeBy w.units (d.placedBlocks order)) ∧
    (∀ line out, Assembly.Output.writeBlocks line offs {} code = .ok out →
      out.code.size = codeSize code) ∧
    ∃ w : Sizing.Widths, w.Fit (d.placedBlocks order) ∧ Sizing.HasUnits w.units code ∧
      codeSize code = Sizing.codeSizeBy w.units (d.placedBlocks order) := by
  have hids : ((d.placedBlocks order).map Placed.id).Nodup := nodup_placedBlocks hnodup
  have hlt' := id_lt_of_placedBlocks hlt
  have hzero' := args_zero_of_placedBlocks hzero
  refine ⟨?_, ?_, ?_⟩
  · intro w hfit
    obtain ⟨wide', hwide, hnarrow⟩ := hfit.exists_resolved hids hlt'
    have hwidened := Sizing.Widened.settle hids hlt' (w.widened_widen hzero') hwide hnarrow h
    have hunits := w.hasUnits_widen (d.placedBlocks order)
    constructor
    · intro a k p i hp hi hjump
      obtain ⟨q, hq, _, hpq⟩ := forall₂_getElem? hwidened hp
      obtain ⟨j, hj, hij⟩ := forall₂_getElem? hpq hi
      have hsize := hij.size_le
      have hjump' : j.isJump = true := (congrArg Option.isSome hij.target).trans hjump
      rw [← hunits a k q j hq hj hjump']
      simp only [Instruction.size] at hsize
      omega
    · rw [Sizing.codeSizeBy_eq (w.rewritten_widen _) hunits]
      exact Sizing.codeSize_mono hwidened
  · intro line out hout
    have hbytes := Assembly.Output.of_writeBlocks hout
    rw [← Array.length_toList, hbytes, List.length_append, length_bodyBytes, bodySize_flatMap]
    exact Nat.zero_add _
  · obtain ⟨halike, rfl, hresolved⟩ :=
      Sizing.settled_of_settle (Sizing.rising_of_args_zero hzero') hids hlt' h
    have hunits := Sizing.Widths.hasUnits_ofCode code
    have hexact :=
      Sizing.exact_of_resolved (halike.map_id ▸ hids) (halike.id_lt hlt') hresolved
    refine ⟨.ofCode code, hexact.fit halike ?_, hunits, (Sizing.codeSizeBy_eq halike hunits).symm⟩
    intro t off hoff
    exact Sizing.exists_of_getD_offsets hoff

theorem Draft.farJump_narrowest : [0, 1, 2].Nodup ∧
    (∀ b ∈ [0, 1, 2], b < farJump.blocks.size) ∧
    (∀ b ∈ [0, 1, 2], ∀ i ∈ (farJump.block b).instructions, i.isJump = true → i.arg = 0) ∧
    ∃ offs code, Sizing.settle 3 (farJump.placedBlocks [0, 1, 2]) = .ok (offs, code) ∧
      codeSize code = 408 ∧
      (∀ w : Sizing.Widths, w.Fit (farJump.placedBlocks [0, 1, 2]) →
        408 ≤ Sizing.codeSizeBy w.units (farJump.placedBlocks [0, 1, 2])) ∧
      ∃ w : Sizing.Widths, w.Fit (farJump.placedBlocks [0, 1, 2]) ∧
        Sizing.HasUnits w.units code := by
  obtain ⟨offs, code, hsettle, hsize⟩ := farJump_code
  obtain ⟨hleast, _, hfit⟩ :=
    jumps_narrowest farJump (by decide) farJump_lt farJump_args_zero hsettle
  obtain ⟨w, hw, hunits, _⟩ := hfit
  exact ⟨by decide, farJump_lt, farJump_args_zero, offs, code, hsettle, hsize,
    fun w hw => hsize ▸ (hleast w hw).2, w, hw, hunits⟩

end Wordcode
