import Wordcode.Proofs.Assembly

/-!
# Jump sizing comes to rest

Sizing makes passes for as long as one changes a width. Operands start at 0, so a pass only ever
widens jumps, and each jump can grow by three units at most; that bounds the number of passes. The
pass that changes no width has computed its operands by the offsets that the code still has.
-/

set_option autoImplicit false

namespace Wordcode

/-- The units by which an instruction may still grow. Only jumps do. -/
def Instruction.room (i : Instruction) : Nat := if i.isJump then 4 - codeUnits i.arg else 0

namespace Sizing

def bodyRoom (body : List Instruction) : Nat := body.foldr (fun i n => i.room + n) 0

def codeRoom (code : List Placed) : Nat := code.foldr (fun p n => bodyRoom p.body + n) 0

def jumpCount (code : List Placed) : Nat :=
  code.foldr (fun p n => p.body.countP Instruction.isJump + n) 0

theorem bodyRoom_cons (i : Instruction) (body : List Instruction) :
    bodyRoom (i :: body) = i.room + bodyRoom body := rfl

theorem codeRoom_cons (p : Placed) (code : List Placed) :
    codeRoom (p :: code) = bodyRoom p.body + codeRoom code := rfl

theorem jumpCount_cons (p : Placed) (code : List Placed) :
    jumpCount (p :: code) = p.body.countP Instruction.isJump + jumpCount code := rfl

theorem Rewritten.size_add_room {i j : Instruction} (h : Rewritten i j) :
    i.size + 2 * i.room = j.size + 2 * j.room := by
  have hi := codeUnits_le i.arg
  have hj := codeUnits_le j.arg
  have hjump : j.isJump = i.isJump := congrArg Option.isSome h.target
  simp only [Instruction.size, Instruction.room, hjump]
  split
  · omega
  · next hnot =>
    have hnone : i.target = none := by simpa [Instruction.isJump] using hnot
    rw [h.arg hnone]

theorem bodySize_add_bodyRoom {body body' : List Instruction}
    (h : List.Forall₂ Rewritten body body') :
    bodySize body + 2 * bodyRoom body = bodySize body' + 2 * bodyRoom body' := by
  induction h with
  | nil => rfl
  | cons hij _ ih =>
    have hsize := hij.size_add_room
    rw [bodySize_cons, bodySize_cons, bodyRoom_cons, bodyRoom_cons]
    omega

theorem codeSize_add_codeRoom {code code' : List Placed} (h : Alike Rewritten code code') :
    codeSize code + 2 * codeRoom code = codeSize code' + 2 * codeRoom code' := by
  induction h with
  | nil => rfl
  | cons hpq _ ih =>
    have hbody := bodySize_add_bodyRoom hpq.2
    rw [codeSize_cons, codeSize_cons, codeRoom_cons, codeRoom_cons]
    omega

theorem bodyRoom_of_args_zero {body : List Instruction}
    (h : ∀ i ∈ body, i.isJump = true → i.arg = 0) :
    bodyRoom body = 3 * body.countP Instruction.isJump := by
  induction body with
  | nil => rfl
  | cons i rest ih =>
    have hrest := ih fun j hj => h j (List.mem_cons_of_mem i hj)
    rw [bodyRoom_cons, hrest, List.countP_cons, Instruction.room]
    by_cases hjump : i.isJump = true
    · rw [h i List.mem_cons_self hjump, if_pos hjump, if_pos hjump, codeUnits_zero]
      omega
    · rw [if_neg hjump, if_neg hjump]
      omega

theorem codeRoom_of_args_zero {code : List Placed}
    (h : ∀ p ∈ code, ∀ i ∈ p.body, i.isJump = true → i.arg = 0) :
    codeRoom code = 3 * jumpCount code := by
  induction code with
  | nil => rfl
  | cons p rest ih =>
    rw [codeRoom_cons, jumpCount_cons, bodyRoom_of_args_zero (h p List.mem_cons_self),
      ih fun q hq => h q (List.mem_cons_of_mem p hq)]
    omega

/-- The codes that passes lead to. -/
inductive Passed (blockCount : Nat) (code : List Placed) : List Placed → Prop where
  | start : Passed blockCount code code
  | pass {before after : List Placed} : Passed blockCount code before →
      pass blockCount before = .ok after → Passed blockCount code after

/-- The loop as such: passes until one is refused, or changes the width of no instruction. The
number is that of the passes made. -/
inductive Rounds (blockCount : Nat) :
    List Placed → Nat → Except CompileError (Offsets × List Placed) → Prop where
  | refused {code : List Placed} {e : CompileError} : pass blockCount code = .error e →
      Rounds blockCount code 1 (.error e)
  | rest {code code' : List Placed} : pass blockCount code = .ok code' →
      Alike (fun i j => i.size = j.size) code code' →
      Rounds blockCount code 1 (.ok (offsets blockCount code, code'))
  | again {code code' : List Placed} {rounds : Nat}
      {result : Except CompileError (Offsets × List Placed)} : pass blockCount code = .ok code' →
      ¬ Alike (fun i j => i.size = j.size) code code' → Rounds blockCount code' rounds result →
      Rounds blockCount code (rounds + 1) result

section Loop
variable {blockCount : Nat} {code : List Placed}

theorem Rising.passed (h : Rising blockCount code) (hnodup : (code.map Placed.id).Nodup)
    (hlt : ∀ p ∈ code, p.id < blockCount) {code' : List Placed}
    (hpassed : Passed blockCount code code') : Rising blockCount code' ∧
      code'.map Placed.id = code.map Placed.id ∧ ∀ p ∈ code', p.id < blockCount := by
  induction hpassed with
  | start => exact ⟨h, rfl, hlt⟩
  | pass _ hpass ih =>
    obtain ⟨hrising, hids, hlt'⟩ := ih
    have hwide := hrising _ hpass
    exact ⟨hrising.pass (hids ▸ hnodup) hlt' hpass, hwide.map_id.trans hids, hwide.id_lt hlt'⟩

/-- That the code has stopped growing means that no width has changed. -/
theorem same_size_of_codeSize {code' : List Placed} (h : Alike Widened code code')
    (hle : codeSize code' ≤ codeSize code) : Alike (fun i j => i.size = j.size) code code' :=
  (kept_of_codeSize h hle).imp fun _ _ hij => hij.size_eq

theorem codeSize_of_same_size {code' : List Placed}
    (h : Alike (fun i j => i.size = j.size) code code') : codeSize code = codeSize code' := by
  have hbody {body body' : List Instruction}
      (hsame : List.Forall₂ (fun i j => i.size = j.size) body body') :
      bodySize body = bodySize body' := by
    induction hsame with
    | nil => rfl
    | cons hij _ ih => rw [bodySize_cons, bodySize_cons, hij, ih]
  induction h with
  | nil => rfl
  | cons hpq _ ih => rw [codeSize_cons, codeSize_cons, hbody hpq.2, ih]

/-- The loop ends: every pass but the last takes a unit of room from some jump. -/
theorem rounds_settle (hrising : Rising blockCount code) (hnodup : (code.map Placed.id).Nodup)
    (hlt : ∀ p ∈ code, p.id < blockCount) :
    ∃ rounds ≤ codeRoom code + 1, Rounds blockCount code rounds (settle blockCount code) := by
  fun_induction settle blockCount code with
  | case1 code e he => exact ⟨1, by omega, .refused he⟩
  | case2 code next hpass hgrow ih =>
    have hwide := hrising next hpass
    obtain ⟨rounds, hle, hrounds⟩ :=
      ih (hrising.pass hnodup hlt hpass) (hwide.map_id ▸ hnodup) (hwide.id_lt hlt)
    have hroom := codeSize_add_codeRoom (hwide.imp fun _ _ hij => hij.toRewritten)
    refine ⟨rounds + 1, by omega, .again hpass (fun hsame => ?_) hrounds⟩
    have := codeSize_of_same_size hsame
    omega
  | case3 code next hpass hgrow =>
    have hsame := same_size_of_codeSize (hrising next hpass) (Nat.le_of_not_lt hgrow)
    exact ⟨1, by omega, .rest hpass hsame⟩

/-- Blocks start behind the blocks before them, and jumps have the target's offset or their distance
to it for operand. -/
structure Exact (offs : Offsets) (code : List Placed) : Prop where
  starts : ∀ (a : Nat) (p : Placed), code[a]? = some p →
    offs.getD p.id none = some (codeSize (code.take a))
  jumps : ∀ (a k : Nat) (p : Placed) (i : Instruction) (t : BlockId), code[a]? = some p →
    p.body[k]? = some i → i.target = some t → ∃ off, offs.getD t none = some off ∧
      if i.opcode.isRelativeJump then
        codeSize (code.take a) + bodySize (p.body.take (k + 1)) + i.arg.toNat = off
      else i.arg.toNat = off

theorem bodySize_take_succ {body : List Instruction} {k : Nat} {i : Instruction}
    (h : body[k]? = some i) :
    bodySize (body.take (k + 1)) = bodySize (body.take k) + i.size := by
  rw [List.take_add_one, h, Option.toList_some, bodySize_append, bodySize_cons]
  rfl

/-- The operand of a settled jump is the one that the offsets of the code give. -/
theorem ResolvedCode.operand_eq {offs : Offsets} (h : ResolvedCode offs code code) {a k : Nat}
    {p : Placed} {i : Instruction} {t : BlockId} (hp : code[a]? = some p)
    (hi : p.body[k]? = some i) (ht : i.target = some t) :
    operand offs i (startOf offs p.id + bodySize (p.body.take (k + 1))) t = .ok i.arg := by
  obtain ⟨q, hq, _, hbody⟩ := forall₂_getElem? h hp
  obtain rfl : p = q := Option.some.inj (hp.symm.trans hq)
  obtain ⟨j, hj, hres⟩ := hbody.getElem? hi
  obtain rfl : i = j := Option.some.inj (hi.symm.trans hj)
  rw [bodySize_take_succ hi, ← Nat.add_assoc]
  rcases resolve_eq_ok hres with ⟨hnone, _⟩ | ⟨t', arg, ht', hop, heq⟩
  · rw [ht] at hnone
    cases hnone
  · obtain rfl : t = t' := Option.some.inj (ht.symm.trans ht')
    have harg : i.arg = arg := congrArg Instruction.arg heq
    rw [hop, harg]

theorem exact_of_resolved (hnodup : (code.map Placed.id).Nodup)
    (hlt : ∀ p ∈ code, p.id < blockCount)
    (h : ResolvedCode (offsets blockCount code) code code) :
    Exact (offsets blockCount code) code := by
  refine ⟨fun a p hp => getD_offsets hnodup hlt hp, ?_⟩
  intro a k p i t hp hi ht
  have hop := h.operand_eq hp hi ht
  rw [startOf, getD_offsets hnodup hlt hp, Option.getD_some] at hop
  exact operand_eq_ok.mp hop

end Loop
end Sizing

namespace Draft
variable {d : Draft} {order : List BlockId}

theorem nodup_placedBlocks (h : order.Nodup) : ((d.placedBlocks order).map Placed.id).Nodup := by
  simpa [placedBlocks, Function.comp_def] using h

theorem id_lt_of_placedBlocks (h : ∀ b ∈ order, b < d.blocks.size) :
    ∀ p ∈ d.placedBlocks order, p.id < d.blocks.size := by
  intro p hp
  obtain ⟨b, hb, rfl⟩ := List.mem_map.mp hp
  exact h b hb

theorem args_zero_of_placedBlocks
    (h : ∀ b ∈ order, ∀ i ∈ (d.block b).instructions, i.isJump = true → i.arg = 0) :
    ∀ p ∈ d.placedBlocks order, ∀ i ∈ p.body, i.isJump = true → i.arg = 0 := by
  intro p hp i hi
  obtain ⟨b, hb, rfl⟩ := List.mem_map.mp hp
  exact h b hb i (Array.mem_toList_iff.mp hi)

end Draft

/-- Jumps settle. For any blocks of a draft, each laid out once, whose jumps start with operand 0:
no pass makes an instruction narrower, so sizing ends after at most three passes for each jump and
one more; and if it gives code, then the size of the code is a word, the blocks start where its
table says, and the operands of jumps are exact for that table. -/
theorem Draft.jumps_settle (d : Draft) {order : List BlockId} (hnodup : order.Nodup)
    (hlt : ∀ b ∈ order, b < d.blocks.size)
    (hzero : ∀ b ∈ order, ∀ i ∈ (d.block b).instructions, i.isJump = true → i.arg = 0) :
    (∀ code code', Sizing.Passed d.blocks.size (d.placedBlocks order) code →
      Sizing.pass d.blocks.size code = .ok code' →
      Sizing.Alike (fun i j => i.size ≤ j.size) code code') ∧
    (∃ rounds ≤ 3 * Sizing.jumpCount (d.placedBlocks order) + 1,
      Sizing.Rounds d.blocks.size (d.placedBlocks order) rounds
        (Sizing.settle d.blocks.size (d.placedBlocks order))) ∧
    ∀ offs code, Sizing.settle d.blocks.size (d.placedBlocks order) = .ok (offs, code) →
      codeSize code < UInt32.size ∧
      Sizing.Alike Sizing.Rewritten (d.placedBlocks order) code ∧ Sizing.Exact offs code := by
  have hids : ((d.placedBlocks order).map Placed.id).Nodup := nodup_placedBlocks hnodup
  have hlt' := id_lt_of_placedBlocks hlt
  have hzero' := args_zero_of_placedBlocks hzero
  have hrising : Sizing.Rising d.blocks.size (d.placedBlocks order) :=
    Sizing.rising_of_args_zero hzero'
  refine ⟨?_, ?_, ?_⟩
  · intro code code' hpassed hpass
    obtain ⟨hstill, _⟩ := hrising.passed hids hlt' hpassed
    exact (hstill code' hpass).imp fun _ _ hij => hij.size_le
  · rw [← Sizing.codeRoom_of_args_zero hzero']
    exact Sizing.rounds_settle hrising hids hlt'
  · intro offs code hsettle
    obtain ⟨halike, rfl, hresolved⟩ := Sizing.settled_of_settle hrising hids hlt' hsettle
    refine ⟨Sizing.codeSize_lt_of_settle hsettle, halike,
      Sizing.exact_of_resolved ?_ ?_ hresolved⟩
    · rw [halike.map_id]
      exact hids
    · exact halike.id_lt hlt'

/-- A jump over two hundred loads, and behind them a jump back to its own block. -/
def Draft.farJump : Draft :=
  { ofTable "<module>" "<module>" .module 0 1 false with
    blocks := #[⟨#[⟨.jumpForward, 0, some 2, 0⟩], some 1, true⟩,
      ⟨Array.replicate 200 ⟨.loadConst, 0, none, 0⟩, some 2, false⟩,
      ⟨#[⟨.popJumpIfFalse, 0, some 1, 0⟩, ⟨.jumpAbsolute, 0, some 0, 0⟩], none, true⟩] }

namespace Draft

theorem farJump_lt : ∀ b ∈ [0, 1, 2], b < farJump.blocks.size := by decide

theorem farJump_args_zero : ∀ b ∈ [0, 1, 2], ∀ i ∈ (farJump.block b).instructions,
    i.isJump = true → i.arg = 0 := by
  simp only [List.forall_mem_cons]
  refine ⟨by decide, fun i hi _ => ?_, by decide, nofun⟩
  have hi : i ∈ Array.replicate 200 (⟨.loadConst, 0, none, 0⟩ : Instruction) := hi
  rw [(Array.mem_replicate.mp hi).2]

/-- The jump forward takes two units, the others one each. -/
theorem farJump_code : ∃ offs code, Sizing.settle 3 (farJump.placedBlocks [0, 1, 2]) =
    .ok (offs, code) ∧ codeSize code = 408 := by
  have hsize : (Sizing.settle 3 (farJump.placedBlocks [0, 1, 2])).toOption.any
      (fun r => codeSize r.2 = 408) = true := by decide +kernel
  cases h : Sizing.settle 3 (farJump.placedBlocks [0, 1, 2]) with
  | error e =>
    rw [h] at hsize
    cases hsize
  | ok r =>
    rw [h] at hsize
    exact ⟨r.1, r.2, rfl, by simpa [Except.toOption] using hsize⟩

theorem farJump_settles : [0, 1, 2].Nodup ∧ (∀ b ∈ [0, 1, 2], b < farJump.blocks.size) ∧
    (∀ b ∈ [0, 1, 2], ∀ i ∈ (farJump.block b).instructions, i.isJump = true → i.arg = 0) ∧
    (∃ rounds ≤ 10, Sizing.Rounds 3 (farJump.placedBlocks [0, 1, 2]) rounds
      (Sizing.settle 3 (farJump.placedBlocks [0, 1, 2]))) ∧
    ∃ offs code, Sizing.settle 3 (farJump.placedBlocks [0, 1, 2]) = .ok (offs, code) ∧
      codeSize code = 408 ∧ Sizing.Exact offs code := by
  have hcount : Sizing.jumpCount (farJump.placedBlocks [0, 1, 2]) = 3 := by decide
  obtain ⟨offs, code, hsettle, hsize⟩ := farJump_code
  obtain ⟨_, hrounds, hexact⟩ := jumps_settle farJump (by decide) farJump_lt farJump_args_zero
  rw [hcount] at hrounds
  exact ⟨by decide, farJump_lt, farJump_args_zero, hrounds, offs, code, hsettle, hsize,
    (hexact offs code hsettle).2.2⟩

end Draft
end Wordcode
