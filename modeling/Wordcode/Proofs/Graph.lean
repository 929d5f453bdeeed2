import Wordcode.Assembly

/-!
# Block graphs

What control may do in a graph of blocks, said without any order of the blocks: which blocks can
be reached, and which instruction is met first from a point of a block. A graph is sound if its
jumps and links stay inside it and a block is closed exactly by its last instruction; every draft
that is written by the operations on drafts has a sound graph.
-/

set_option autoImplicit false

namespace Wordcode

abbrev Graph := Array Block

/-- An instruction's place: its block and its number there. -/
structure Place where
  block : BlockId
  index : Nat
  deriving DecidableEq

namespace Graph

def block (g : Graph) (b : BlockId) : Block := g.getD b {}

def instruction? (g : Graph) (p : Place) : Option Instruction :=
  (g.block p.block).instructions[p.index]?

/-- Control may get from the entry to a block: by jumps, and by falling out of blocks that are not
closed. -/
inductive Reaches (g : Graph) (entry : BlockId) : BlockId → Prop where
  | entry : Reaches g entry entry
  | jump {b t : BlockId} {i : Instruction} : Reaches g entry b →
      i ∈ (g.block b).instructions → i.target = some t → Reaches g entry t
  | next {b n : BlockId} : Reaches g entry b →
      (g.block b).terminal = false → (g.block b).next = some n → Reaches g entry n

/-- The instruction met first by control that stands before number `k` of a block. Blocks that
have nothing left are fallen through. -/
inductive Meets (g : Graph) : BlockId → Nat → Place → Prop where
  | here {b : BlockId} {k : Nat} : k < (g.block b).instructions.size → Meets g b k ⟨b, k⟩
  | onward {b n : BlockId} {k : Nat} {p : Place} : (g.block b).instructions.size ≤ k →
      (g.block b).terminal = false → (g.block b).next = some n → Meets g n 0 p → Meets g b k p

theorem Meets.unique {g : Graph} {b : BlockId} {k : Nat} {p q : Place} (hp : Meets g b k p)
    (hq : Meets g b k q) : p = q := by
  induction hp with
  | here hlt =>
    cases hq with
    | here => rfl
    | onward hle => exact absurd hlt (by omega)
  | onward hle hterm hnext _ ih =>
    cases hq with
    | here hlt => exact absurd hlt (by omega)
    | onward _ _ hnext' hq' =>
      rw [hnext] at hnext'
      cases hnext'
      exact ih hq'

end Graph

/-- A jump goes to some block, and nothing else does; its operand is still open. -/
structure Instruction.Sound (blockCount : Nat) (i : Instruction) : Prop where
  not_widening : i.opcode ≠ .extendedArg
  target_isSome : i.target.isSome = i.opcode.isJump
  target_lt : ∀ t, i.target = some t → t < blockCount
  arg_eq_zero : i.opcode.isJump = true → i.arg = 0

/-- A block is closed by its last instruction, and by no other. -/
structure Block.Sound (blockCount : Nat) (b : Block) : Prop where
  instructions : ∀ i ∈ b.instructions, i.Sound blockCount
  next_lt : ∀ n, b.next = some n → n < blockCount
  terminal_eq : ∀ k i, b.instructions[k]? = some i →
    i.opcode.isTerminal = (b.terminal && decide (k + 1 = b.instructions.size))
  size_pos : b.terminal = true → 0 < b.instructions.size

def Graph.Sound (g : Graph) : Prop := ∀ b, (g.block b).Sound g.size

theorem Instruction.Sound.mono {m n : Nat} {i : Instruction} (h : i.Sound m) (hmn : m ≤ n) :
    i.Sound n :=
  ⟨h.not_widening, h.target_isSome, fun t ht => Nat.lt_of_lt_of_le (h.target_lt t ht) hmn,
    h.arg_eq_zero⟩

theorem Block.Sound.mono {m n : Nat} {b : Block} (h : b.Sound m) (hmn : m ≤ n) : b.Sound n :=
  ⟨fun i hi => (h.instructions i hi).mono hmn,
    fun k hk => Nat.lt_of_lt_of_le (h.next_lt k hk) hmn, h.terminal_eq, h.size_pos⟩

theorem Block.sound_empty (n : Nat) : ({} : Block).Sound n :=
  ⟨by simp, by simp, by simp, by simp⟩

theorem Block.Sound.link {n m : Nat} {b : Block} (h : b.Sound n) (hm : m < n) :
    ({ b with next := some m } : Block).Sound n :=
  ⟨h.instructions, fun _ hn => Option.some.inj hn ▸ hm, h.terminal_eq, h.size_pos⟩

theorem Block.Sound.push {n : Nat} {b : Block} {i : Instruction} (h : b.Sound n)
    (hopen : b.terminal = false) (hi : i.Sound n) : (b.push i).Sound n := by
  refine ⟨?_, h.next_lt, ?_, ?_⟩
  · intro j hj
    rcases Array.mem_push.mp hj with hj | rfl
    · exact h.instructions j hj
    · exact hi
  · intro k j hj
    have hterm := h.terminal_eq k j
    simp only [Block.push, Array.getElem?_push, Array.size_push, hopen, Bool.false_or,
      Bool.false_and] at hj hterm ⊢
    split at hj
    · next hk =>
      cases hj
      simp [hk]
    · next hk =>
      have hlt : k < b.instructions.size := (Array.getElem?_eq_some_iff.mp hj).1
      rw [hterm hj, decide_eq_false (by omega), Bool.and_false]
  · simp [Block.push]

namespace Draft

@[simp] theorem blocks_setLine (d : Draft) (line : UInt32) :
    (d.setLine line).blocks = d.blocks := by
  unfold setLine
  split <;> rfl

@[simp] theorem current_setLine (d : Draft) (line : UInt32) :
    (d.setLine line).current = d.current := by
  unfold setLine
  split <;> rfl

theorem block_eq (d : Draft) (b : BlockId) : d.block b = Graph.block d.blocks b := rfl

theorem getD_modify (g : Graph) (b c : BlockId) (f : Block → Block) (hb : b < g.size) :
    Graph.block (g.modify b f) c = if c = b then f (g.block b) else g.block c := by
  simp only [Graph.block, Array.getD_eq_getD_getElem?, Array.getElem?_modify]
  split
  · next h =>
    subst h
    simp [hb]
  · next h => simp [Ne.symm h]

theorem getD_push (g : Graph) (c : BlockId) : Graph.block (g.push {}) c = g.block c := by
  simp only [Graph.block, Array.getD_eq_getD_getElem?, Array.getElem?_push]
  split
  · next h => simp [h]
  · rfl

/-- The graph is sound and the draft stands in one of its blocks. -/
structure Sound (d : Draft) : Prop where
  graph : Graph.Sound d.blocks
  current_lt : d.current < d.blocks.size

theorem sound_ofTable (name qualname : String) (t : ScopeTable) (serial firstLine : UInt32)
    (nested : Bool) : (ofTable name qualname t serial firstLine nested).Sound := by
  refine ⟨fun b => ?_, by simp [ofTable, entry]⟩
  have hempty : Graph.block (ofTable name qualname t serial firstLine nested).blocks b = {} := by
    cases b <;> simp [Graph.block, ofTable]
  rw [hempty]
  exact Block.sound_empty _

theorem Sound.newBlock {d : Draft} (h : d.Sound) : d.newBlock.2.Sound := by
  have hsize : d.newBlock.2.blocks.size = d.blocks.size + 1 := Array.size_push _
  refine ⟨fun b => ?_, Nat.lt_of_lt_of_le h.current_lt (by omega)⟩
  rw [hsize, show Graph.block d.newBlock.2.blocks b = Graph.block d.blocks b from getD_push _ _]
  exact (h.graph b).mono (by omega)

theorem Sound.useBlock {d : Draft} (h : d.Sound) {b : BlockId} (hb : b < d.blocks.size) :
    (d.useBlock b).Sound :=
  ⟨h.graph, hb⟩

theorem Sound.fallInto {d : Draft} (h : d.Sound) {b : BlockId} (hb : b < d.blocks.size) :
    (d.fallInto b).Sound := by
  have hsize : (d.fallInto b).blocks.size = d.blocks.size := Array.size_modify
  refine ⟨fun c => ?_, by rw [hsize]; exact hb⟩
  rw [hsize, Draft.fallInto, getD_modify _ _ _ _ h.current_lt]
  split
  · exact (h.graph d.current).link hb
  · exact h.graph c

theorem Sound.append {d : Draft} (h : d.Sound) {i : Instruction} (hi : i.Sound d.blocks.size) :
    (d.append i).Sound := by
  unfold Draft.append
  split
  · exact h
  · next hopen =>
    have hstamp : (if d.stamped then i else { i with line := d.line } : Instruction).Sound
        d.blocks.size := by
      split
      · exact hi
      · exact ⟨hi.not_widening, hi.target_isSome, hi.target_lt, hi.arg_eq_zero⟩
    refine ⟨fun c => ?_, by simpa using h.current_lt⟩
    simp only [Array.size_modify]
    rw [getD_modify _ _ _ _ h.current_lt]
    split
    · exact (h.graph d.current).push (Bool.eq_false_iff.mpr hopen) hstamp
    · exact h.graph c

theorem Sound.internConstant {d : Draft} (h : d.Sound) (c : Constant) :
    (d.internConstant c).2.Sound :=
  ⟨h.graph, h.current_lt⟩

end Draft

theorem Instruction.sound_plain {n : Nat} {op : Opcode} {arg : UInt32} {i : Instruction}
    (h : Instruction.plain op arg = .ok i) (hop : op ≠ .extendedArg) (hjump : op.isJump = false) :
    i.Sound n := by
  unfold Instruction.plain at h
  split at h
  · cases h
  · cases h
    exact ⟨hop, by simp [hjump], by simp, by simp [hjump]⟩

theorem Instruction.sound_jump {n : Nat} {op : Opcode} {b : BlockId} {i : Instruction}
    (h : Instruction.jump op b = .ok i) (hb : b < n) : i.Sound n := by
  unfold Instruction.jump at h
  split at h
  · next hop =>
    cases h
    refine ⟨?_, by simp [hop], ?_, fun _ => rfl⟩
    · rintro rfl
      cases hop
    · rintro t ⟨⟩
      exact hb
  · cases h

/-- The drafts that arise from a fresh one by making blocks, moving between those there are, and
adding instructions. A jump opcode is added together with the block to go to, and widening units
are never added by hand. -/
inductive Draft.Written : Draft → Prop where
  | fresh (name qualname : String) (t : ScopeTable) (serial firstLine : UInt32) (nested : Bool) :
      Written (.ofTable name qualname t serial firstLine nested)
  | newBlock {d : Draft} : Written d → Written d.newBlock.2
  | useBlock {d : Draft} {b : BlockId} : Written d → b < d.blocks.size → Written (d.useBlock b)
  | fallInto {d : Draft} {b : BlockId} : Written d → b < d.blocks.size → Written (d.fallInto b)
  | setLine {d : Draft} (line : UInt32) : Written d → Written (d.setLine line)
  | restamp {d : Draft} : Written d → Written d.restamp
  | emit {d : Draft} {op : Opcode} {arg : UInt32} {i : Instruction} : Written d →
      op ≠ .extendedArg → op.isJump = false → Instruction.plain op arg = .ok i →
      Written (d.append i)
  | emitJump {d : Draft} {op : Opcode} {b : BlockId} {i : Instruction} : Written d →
      b < d.blocks.size → Instruction.jump op b = .ok i → Written (d.append i)
  | internConstant {d : Draft} (c : Constant) : Written d → Written (d.internConstant c).2

namespace Draft

theorem Written.sound {d : Draft} (h : d.Written) : d.Sound := by
  induction h with
  | fresh => exact sound_ofTable ..
  | newBlock _ ih => exact ih.newBlock
  | useBlock _ hb ih => exact ih.useBlock hb
  | fallInto _ hb ih => exact ih.fallInto hb
  | setLine line _ ih => exact ⟨by simpa using ih.graph, by simpa using ih.current_lt⟩
  | restamp _ ih => exact ⟨ih.graph, ih.current_lt⟩
  | emit _ hop hjump hi ih => exact ih.append (Instruction.sound_plain hi hop hjump)
  | emitJump _ hb hi ih => exact ih.append (Instruction.sound_jump hi hb)
  | internConstant c _ ih => exact ih.internConstant c

/-- The return that closes a draft keeps it sound. -/
theorem Sound.close {d : Draft} (h : d.Sound) (addNone : Bool) : (d.close addNone).Sound := by
  have hret (n : Nat) : (⟨.returnValue, 0, none, 0⟩ : Instruction).Sound n :=
    ⟨by decide, rfl, by simp, fun _ => rfl⟩
  have hload (n : Nat) (arg : UInt32) : (⟨.loadConst, arg, none, 0⟩ : Instruction).Sound n :=
    ⟨by simp, rfl, by simp, by simp [Opcode.isJump, Opcode.isRelativeJump, Opcode.isAbsoluteJump]⟩
  unfold Draft.close
  split
  · exact h
  · have hnew : (d.newBlock.2.fallInto d.newBlock.1).Sound :=
      h.newBlock.fallInto (by simp [Draft.newBlock])
    cases addNone with
    | false => exact hnew.append (hret _)
    | true => exact ((hnew.internConstant .none).append (hload _ _)).append (hret _)

end Draft
end Wordcode
