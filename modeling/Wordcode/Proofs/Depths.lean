import Wordcode.Proofs.Accepted
import Wordcode.Proofs.Discipline

/-!
# The operand stack of compiled code

Control goes through wordcode along the edges of its instructions, and each edge moves the operand
stack. In what a program in context is compiled to, the depth at an instruction does not depend on
the way to it and is never negative, a return finds the one value it takes, and the size of the
stack is exactly the greatest depth there is.
-/

set_option autoImplicit false

namespace Wordcode

/-- The change of depth on the way to the next instruction, or to the target if `taken`. -/
def Decoded.effect (e : Decoded) (taken : Bool) : Int := e.opcode.change e.arg taken

/-- Control may leave the instruction on this way. -/
def Decoded.Leaves (e : Decoded) (taken : Bool) : Prop := taken = true → e.opcode.isJump = true

/-- Control comes to instruction `j` of the code with a depth. -/
inductive Arrives (code : List Decoded) : Nat → Int → Prop where
  | start : Arrives code 0 0
  | falls {j : Nat} {e : Decoded} {x : Int} : Arrives code j x → code[j]? = some e →
      e.opcode.isTerminal = false → Arrives code (j + 1) (x + e.effect false)
  | jumps {j k : Nat} {e : Decoded} {off : UInt32} {x : Int} : Arrives code j x →
      code[j]? = some e → e.jumpTarget = .ok (some off) →
      code.findIdx? (fun e => e.offset == off) = some k → Arrives code k (x + e.effect true)

/-- The discipline of the operand stack, if it has room for `size` entries. -/
structure KeepsStack (code : List Decoded) (size : Nat) : Prop where
  /-- Control never runs off the code. -/
  inside : ∀ j x, Arrives code j x → j < code.length
  unique : ∀ j x y, Arrives code j x → Arrives code j y → x = y
  nonneg : ∀ j x, Arrives code j x → 0 ≤ x
  /-- Every jump leads somewhere. -/
  lands : ∀ j x e, Arrives code j x → code[j]? = some e → e.opcode.isJump = true →
    ∃ off k, e.jumpTarget = .ok (some off) ∧ code.findIdx? (fun e => e.offset == off) = some k
  /-- The change of depth is what is computed for it in words. -/
  effects : ∀ j x e taken, Arrives code j x → code[j]? = some e → e.Leaves taken →
    ∃ w, e.opcode.stackEffect e.arg taken = .ok w ∧ w.toInt = e.effect taken
  /-- Also what an instruction leaves behind is there, whichever way control goes on. -/
  nonneg_after : ∀ j x e taken, Arrives code j x → code[j]? = some e → e.Leaves taken →
    0 ≤ x + e.effect taken
  returns : ∀ j x e, Arrives code j x → code[j]? = some e → e.opcode = .returnValue → x = 1
  le : ∀ j x, Arrives code j x → x ≤ size
  attained : ∃ j, Arrives code j size

theorem effectSteps_of_isJump {op : Opcode} (h : op.isJump = true) (a b : UInt32) (taken : Bool) :
    op.effectSteps a taken = op.effectSteps b taken := by
  cases op <;> first | exact absurd h (by decide) | rfl

theorem toInt_add_of_nonneg {w v : Int32} (hw : 0 ≤ w) (h : 0 ≤ w + v) :
    (w + v).toInt = w.toInt + v.toInt := by
  rw [Int32.le_iff_toInt_le] at hw h
  have := w.toInt_lt
  have := v.toInt_lt
  have := v.le_toInt
  rw [Int32.toInt_add] at h ⊢
  have hzero : (0 : Int32).toInt = 0 := rfl
  rw [hzero] at hw h
  rw [Int.bmod_def] at h ⊢
  split at h <;> omega

namespace CodeObject.Shaped

variable {c : CodeObject} {M : Nat} {Γ : Shapes} {d : Draft} {log : Script} {S : Nat → Shape}
  {code : List Decoded} {pos : Nat → Nat}

/-- What an instruction does to the shapes. -/
theorem flow (h : c.Shaped M Γ d log S code pos) {j : Nat} {e : Decoded}
    (he : code[j]? = some e) : ∃ x i, log[pos j]? = some x ∧ x.instruction? = some i ∧
      e.opcode = i.opcode ∧
      (∀ taken, e.opcode.effectSteps e.arg taken = i.opcode.effectSteps i.arg taken) ∧
      i.target.isSome = e.opcode.isJump ∧ Flow M Γ x (S (pos j)) (S (pos j + 1)) := by
  obtain ⟨x, i, hx, hi, hop, harg⟩ := h.renders.item j e he
  have hsound := h.sound.instructions x (List.mem_of_getElem? hx) i hi
  refine ⟨x, i, hx, hi, hop, fun taken => ?_, hop ▸ hsound.target_isSome, h.shapes.flow _ _ hx⟩
  rw [hop]
  cases htarget : i.target with
  | none => rw [harg htarget]
  | some b =>
    refine effectSteps_of_isJump ?_ _ _ _
    rw [← hsound.target_isSome, htarget]
    rfl

/-- It changes the depth by as much, in words and in numbers. -/
theorem effect_eq (h : c.Shaped M Γ d log S code pos) {j : Nat} {e : Decoded} {x : Item}
    {i : Instruction} (he : code[j]? = some e) (hx : log[pos j]? = some x)
    (hi : x.instruction? = some i) (taken : Bool) :
    e.opcode.effect e.arg taken = i.effect taken ∧ e.effect taken = i.change taken := by
  obtain ⟨x', i', hx', hi', _, hsteps, _⟩ := h.flow he
  rw [hx] at hx'
  cases hx'
  rw [hi] at hi'
  cases hi'
  simp only [Opcode.effect, Decoded.effect, Instruction.effect, Instruction.change, Opcode.change,
    hsteps, and_self]

/-- The next instruction has the shape that is left. -/
theorem falls (h : c.Shaped M Γ d log S code pos) {j : Nat} {e : Decoded}
    (he : code[j]? = some e) (hopen : e.opcode.isTerminal = false) :
    j + 1 < code.length ∧ S (pos (j + 1)) = S (pos j + 1) := by
  obtain ⟨hlt, hnext⟩ := h.renders.falls j e he hopen
  exact ⟨hlt, h.shapes.next hnext⟩

/-- A jump leads to an instruction with the shape of its label. -/
theorem jumps (h : c.Shaped M Γ d log S code pos) {j k : Nat} {e : Decoded} {off : UInt32}
    (he : code[j]? = some e) (hoff : e.jumpTarget = .ok (some off))
    (hk : code.findIdx? (fun e => e.offset == off) = some k) :
    k < code.length ∧ ∃ op b, log[pos j]? = some (.jump op b) ∧ (b, S (pos k)) ∈ Γ := by
  obtain ⟨x, i, hx, hi, _, _, htarget, _⟩ := h.flow he
  rw [Decoded.isJump_of_jumpTarget hoff] at htarget
  cases x with
  | jump op b =>
    obtain ⟨off', k', m, hoff', hk', hlt, hm, hnext⟩ := h.renders.jumps j e op b he hx
    rw [hoff] at hoff'
    cases hoff'
    rw [hk] at hk'
    cases hk'
    exact ⟨hlt, op, b, hx, by rw [h.shapes.next hnext]; exact h.shapes.label hm⟩
  | emit | named | load =>
    cases hi
    cases htarget
  | label | alloc | intern => cases hi

theorem start (h : c.Shaped M Γ d log S code pos) : 0 < code.length ∧ S (pos 0) = .empty := by
  obtain ⟨hlt, hnext⟩ := h.renders.start
  exact ⟨hlt, (h.shapes.next hnext).trans h.shapes.start⟩

/-- The walk for the depth has met what each instruction leaves behind, and nothing else. -/
theorem exists_deepest (h : c.Shaped M Γ d log S code pos) : ∃ m : Int32,
    c.stackSize = m.toUInt32 ∧
    (∀ (j : Nat) (e : Decoded), code[j]? = some e → ∀ taken, e.Leaves taken →
      0 ≤ Int32.ofNat (S (pos j)).depth + e.opcode.effect e.arg taken ∧
      Int32.ofNat (S (pos j)).depth + e.opcode.effect e.arg taken ≤ m) ∧
    (∀ (j : Nat) (e : Decoded), code[j]? = some e → ∀ taken, e.Leaves taken →
      ∀ n ∈ e.opcode.effectSteps e.arg taken, InWord n) ∧
    (m = 0 ∨ ∃ (j : Nat) (e : Decoded) (taken : Bool), code[j]? = some e ∧ e.Leaves taken ∧
      m = Int32.ofNat (S (pos j)).depth + e.opcode.effect e.arg taken) := by
  have hlevels := h.shapes.levels h.traces h.graph h.sound h.ends
  have hentry : Draft.entry < d.blocks.size := Nat.lt_of_le_of_lt (Nat.zero_le _) h.traces.current_lt
  rcases maxStackDepth_of_levels h.graph.inside hentry hlevels with
    ⟨m, hok, hbounds, hcomputes, hattained⟩ | ⟨_, _, _, herr, _⟩ | ⟨_, _, herr, _⟩
  · rw [h.deepest] at hok
    refine ⟨m, Except.ok.inj hok, fun j e he taken htaken => ?_, fun j e he taken htaken => ?_,
      hattained.imp_right ?_⟩
    · obtain ⟨x, i, hx, hi, _, _, htarget, _⟩ := h.flow he
      obtain ⟨p, hp, hreach⟩ := h.covers.place j (List.getElem?_eq_some_iff.mp he).1
      refine hbounds p.block hreach _ ((h.shapes.mem_depths h.traces).mpr
        ⟨pos j, x, i, p.index, hx, hi, hp, ?_⟩)
      rw [(h.effect_eq he hx hi taken).1]
      cases taken with
      | false => exact .inl rfl
      | true => exact .inr ⟨htarget.trans (htaken rfl), rfl⟩
    · obtain ⟨x, i, hx, hi, _, hsteps, htarget, _⟩ := h.flow he
      obtain ⟨p, hp, hreach⟩ := h.covers.place j (List.getElem?_eq_some_iff.mp he).1
      obtain ⟨line, hline⟩ := h.traces.code _ x i _ hx hi hp
      rw [hsteps]
      have hmem := Array.mem_toList_iff.mpr (Array.mem_of_getElem? hline)
      exact hcomputes p.block hreach _ hmem taken fun ht => htarget.trans (htaken ht)
    · rintro ⟨b, hreach, hm⟩
      obtain ⟨n, x, i, k, hx, hi, hp, hm⟩ := (h.shapes.mem_depths h.traces).mp hm
      obtain ⟨j, hj, rfl⟩ := h.covers.index n x i _ hx hi hp hreach
      obtain ⟨e, he⟩ : ∃ e, code[j]? = some e := ⟨_, List.getElem?_eq_getElem hj⟩
      have heff (taken : Bool) := (h.effect_eq he hx hi taken).1
      rcases hm with hm | ⟨hsome, hm⟩
      · exact ⟨j, e, false, he, nofun, by rw [heff]; exact hm⟩
      · obtain ⟨x', i', hx', hi', _, _, htarget, _⟩ := h.flow he
        rw [hx] at hx'
        cases hx'
        rw [hi] at hi'
        cases hi'
        exact ⟨j, e, true, he, fun _ => htarget.symm.trans hsome, by rw [heff]; exact hm⟩
  · rw [h.deepest] at herr
    cases herr
  · rw [h.deepest] at herr
    cases herr

/-- Where the walk succeeds, no change of depth was too large for a word. -/
theorem computes (h : c.Shaped M Γ d log S code pos) {j : Nat} {e : Decoded}
    (he : code[j]? = some e) (taken : Bool) (htaken : e.Leaves taken) :
    e.opcode.stackEffect e.arg taken = .ok (e.opcode.effect e.arg taken) ∧
      (e.opcode.effect e.arg taken).toInt = e.effect taken := by
  obtain ⟨_, _, _, hcomputes, _⟩ := h.exists_deepest
  have hsteps := hcomputes j e he taken htaken
  have heff : (e.opcode.effect e.arg taken).toInt = e.effect taken :=
    Instruction.Computes.toInt_effect (i := ⟨e.opcode, e.arg, none, 0⟩) hsteps
  exact ⟨Opcode.stackEffect_eq_ok.mpr ⟨hsteps, heff⟩, heff⟩

/-- What is left behind an instruction, in words and in numbers. -/
theorem toInt_after (h : c.Shaped M Γ d log S code pos) {j : Nat} {e : Decoded}
    (he : code[j]? = some e) (taken : Bool) (htaken : e.Leaves taken)
    (hw : 0 ≤ Int32.ofNat (S (pos j)).depth) :
    0 ≤ Int32.ofNat (S (pos j)).depth + e.opcode.effect e.arg taken ∧
      (Int32.ofNat (S (pos j)).depth + e.opcode.effect e.arg taken).toInt =
        (Int32.ofNat (S (pos j)).depth).toInt + e.effect taken := by
  obtain ⟨_, _, hbounds, _⟩ := h.exists_deepest
  have hpos := (hbounds j e he taken htaken).1
  exact ⟨hpos, by rw [toInt_add_of_nonneg hw hpos, (h.computes he taken htaken).2]⟩

/-- The shape at an instruction tells the depth with which control comes to it. -/
theorem depth_eq (h : c.Shaped M Γ d log S code pos) {j : Nat} {x : Int}
    (ha : Arrives code j x) : j < code.length ∧ 0 ≤ Int32.ofNat (S (pos j)).depth ∧
      x = (Int32.ofNat (S (pos j)).depth).toInt := by
  induction ha with
  | start =>
    obtain ⟨hlt, hempty⟩ := h.start
    rw [hempty]
    exact ⟨hlt, by decide, rfl⟩
  | @falls j e x _ he hopen ih =>
    obtain ⟨_, hw, rfl⟩ := ih
    obtain ⟨y, i, hy, hi, hop, _, _, hflow⟩ := h.flow he
    obtain ⟨n, _, heq, hterm⟩ := hflow.after hi
    obtain ⟨hlt, hnext⟩ := h.falls he hopen
    rw [← hop, if_neg (by simp [hopen])] at hterm
    subst hterm
    obtain ⟨hpos, hsum⟩ := h.toInt_after he false nofun hw
    rw [hnext, heq, ← (h.effect_eq he hy hi false).1]
    exact ⟨hlt, hpos, hsum.symm⟩
  | @jumps j k e off x _ he hoff hk ih =>
    obtain ⟨_, hw, rfl⟩ := ih
    obtain ⟨y, i, hy, hi, hop, _, _, hflow⟩ := h.flow he
    obtain ⟨hlt, op, b, hjump, hb⟩ := h.jumps he hoff hk
    rw [hy] at hjump
    cases hjump
    cases hi
    obtain ⟨τ, hτ, _, heq⟩ := hflow.there rfl rfl
    obtain rfl := h.shapes.unique hb hτ
    obtain ⟨hpos, hsum⟩ :=
      h.toInt_after he true (fun _ => Decoded.isJump_of_jumpTarget hoff) hw
    rw [heq, ← (h.effect_eq he hy rfl true).1]
    exact ⟨hlt, hpos, hsum.symm⟩

/-- Control that passes an instruction arrives at what it meets in the graph. -/
theorem arrives_next (h : c.Shaped M Γ d log S code pos) {j k : Nat} {x : Int} {e : Decoded}
    {b : BlockId} {q : Place} (ha : Arrives code j x) (he : code[j]? = some e)
    (hopen : e.opcode.isTerminal = false)
    (hp : Script.place (log.take (pos j)) = some ⟨b, k⟩)
    (hq : Graph.Meets d.blocks b (k + 1) q) :
    ∃ j' x', Arrives code j' x' ∧ Script.place (log.take (pos j')) = some q := by
  obtain ⟨y, i, hy, hi, hop, _⟩ := h.flow he
  obtain ⟨_, hnext⟩ := h.renders.falls j e he hopen
  have hafter : Script.place (log.take (pos j + 1)) = some ⟨b, k + 1⟩ := by
    rw [Script.place_take_succ hy, Item.advance_of_instruction hi, hp, ← hop]
    simp [hopen]
  obtain ⟨m, hm, hplace⟩ := h.traces.exists_next h.ends (p := ⟨b, k + 1⟩) hq _ hafter
  obtain rfl := hnext.unique hm
  exact ⟨j + 1, _, .falls ha he hopen, hplace⟩

/-- Control that takes a jump arrives at what it meets from its target on. -/
theorem arrives_jump (h : c.Shaped M Γ d log S code pos) {j : Nat} {x : Int} {op : Opcode}
    {b : BlockId} {q : Place} (ha : Arrives code j x) (hjump : log[pos j]? = some (.jump op b))
    (hq : Graph.Meets d.blocks b 0 q) :
    ∃ j' x', Arrives code j' x' ∧ Script.place (log.take (pos j')) = some q := by
  obtain ⟨e, he⟩ : ∃ e, code[j]? = some e := ⟨_, List.getElem?_eq_getElem (h.depth_eq ha).1⟩
  obtain ⟨off, k, m, hoff, hk, _, hm, hnext⟩ := h.renders.jumps j e op b he hjump
  have hlabel : Script.place (log.take (m + 1)) = some ⟨b, 0⟩ := Script.place_take_succ hm
  obtain ⟨n, hn, hplace⟩ := h.traces.exists_next h.ends (p := ⟨b, 0⟩) hq _ hlabel
  obtain rfl := hnext.unique (.skip hm rfl hn)
  exact ⟨k, _, .jumps ha he hoff hk, hplace⟩

/-- Control that arrives in a block goes on in it. -/
theorem arrives_inside (h : c.Shaped M Γ d log S code pos) {b : BlockId} {j k : Nat} {x : Int}
    (ha : Arrives code j x) (hp : Script.place (log.take (pos j)) = some ⟨b, k⟩) (n : Nat)
    (hn : k + n < (d.block b).instructions.size) :
    ∃ j' x', Arrives code j' x' ∧ Script.place (log.take (pos j')) = some ⟨b, k + n⟩ := by
  induction n with
  | zero => exact ⟨j, x, ha, hp⟩
  | succ n ih =>
    obtain ⟨j', x', ha', hp'⟩ := ih (by omega)
    obtain ⟨e, he⟩ : ∃ e, code[j']? = some e := ⟨_, List.getElem?_eq_getElem (h.depth_eq ha').1⟩
    obtain ⟨y, i, hy, hi, hop, _⟩ := h.flow he
    obtain ⟨line, hline⟩ := h.traces.code _ y i _ hy hi hp'
    have hopen : e.opcode.isTerminal = false := by
      rw [hop]
      have hterm := (h.graph b).terminal_eq (k + n) _ hline
      have hnot : ¬ k + n + 1 = (Graph.block d.blocks b).instructions.size := Nat.ne_of_lt hn
      simpa [hnot] using hterm
    exact h.arrives_next ha' he hopen hp' (.here hn)

/-- Control arrives at what it meets from the start of any block that can be reached. -/
theorem arrives_of_meets (h : c.Shaped M Γ d log S code pos) {b : BlockId}
    (hb : Graph.Reaches d.blocks Draft.entry b) {q : Place} (hq : Graph.Meets d.blocks b 0 q) :
    ∃ j x, Arrives code j x ∧ Script.place (log.take (pos j)) = some q := by
  induction hb generalizing q with
  | entry =>
    obtain ⟨m, hm, hplace⟩ := h.traces.exists_next h.ends (p := ⟨Draft.entry, 0⟩) hq 0 rfl
    obtain rfl := h.renders.start.2.unique hm
    exact ⟨0, 0, .start, hplace⟩
  | @jump b' t i _ hi htarget ih =>
    obtain ⟨k, hk⟩ := Array.getElem?_of_mem hi
    have hlt : k < (Graph.block d.blocks b').instructions.size :=
      (Array.getElem?_eq_some_iff.mp hk).1
    obtain ⟨j, x, ha, hp⟩ := ih (.here (Nat.lt_of_le_of_lt (Nat.zero_le _) hlt))
    obtain ⟨j', x', ha', hp'⟩ := h.arrives_inside ha hp k (by rw [Nat.zero_add]; exact hlt)
    rw [Nat.zero_add] at hp'
    obtain ⟨m, y, hy, hyi, hm⟩ := h.traces.covered ⟨b', k⟩ i hk
    obtain ⟨e, he⟩ : ∃ e, code[j']? = some e := ⟨_, List.getElem?_eq_getElem (h.depth_eq ha').1⟩
    obtain ⟨y', i', hy', hi', _⟩ := h.flow he
    obtain rfl := h.sound.fresh.place_injective hy' hi' hy hyi hp' hm
    cases y with
    | jump op b'' =>
      cases (congrArg Instruction.target (Option.some.inj hyi)).trans htarget
      exact h.arrives_jump ha' hy hq
    | emit | named | load => cases (congrArg Instruction.target (Option.some.inj hyi)).trans htarget
    | label | alloc | intern => cases hyi
  | @next b' n _ hopen hnext ih =>
    rcases Nat.eq_zero_or_pos (Graph.block d.blocks b').instructions.size with hzero | hpos
    · exact ih (.onward (Nat.le_of_eq hzero) hopen hnext hq)
    · obtain ⟨j, x, ha, hp⟩ := ih (.here hpos)
      obtain ⟨k, hk⟩ : ∃ k, (Graph.block d.blocks b').instructions.size = k + 1 :=
        ⟨_, (Nat.succ_pred_eq_of_pos hpos).symm⟩
      have hlast : k < (Graph.block d.blocks b').instructions.size := by omega
      obtain ⟨j', x', ha', hp'⟩ := h.arrives_inside ha hp k (by rw [Nat.zero_add]; exact hlast)
      rw [Nat.zero_add] at hp'
      obtain ⟨e, he⟩ : ∃ e, code[j']? = some e := ⟨_, List.getElem?_eq_getElem (h.depth_eq ha').1⟩
      obtain ⟨y, i, hy, hi, hop, _⟩ := h.flow he
      obtain ⟨line, hline⟩ := h.traces.code _ y i _ hy hi hp'
      have hterm := (h.graph b').terminal_eq k _ hline
      rw [hopen, Bool.false_and] at hterm
      exact h.arrives_next ha' he (hop ▸ hterm) hp'
        (.onward (Nat.le_of_eq hk) hopen hnext hq)

theorem arrives (h : c.Shaped M Γ d log S code pos) {j : Nat} (hj : j < code.length) :
    ∃ x, Arrives code j x := by
  obtain ⟨p, hp, hreach⟩ := h.covers.place j hj
  obtain ⟨e, he⟩ : ∃ e, code[j]? = some e := ⟨_, List.getElem?_eq_getElem hj⟩
  obtain ⟨y, i, hy, hi, _⟩ := h.flow he
  obtain ⟨line, hline⟩ := h.traces.code _ y i _ hy hi hp
  have hlt : p.index < (Graph.block d.blocks p.block).instructions.size :=
    (Array.getElem?_eq_some_iff.mp hline).1
  obtain ⟨j₀, x₀, ha₀, hp₀⟩ := h.arrives_of_meets hreach
    (.here (Nat.lt_of_le_of_lt (Nat.zero_le _) hlt))
  obtain ⟨j', x, ha, hp'⟩ := h.arrives_inside ha₀ hp₀ p.index (by rw [Nat.zero_add]; exact hlt)
  rw [Nat.zero_add] at hp'
  have hj' := (h.depth_eq ha).1
  obtain ⟨e', he'⟩ : ∃ e, code[j']? = some e := ⟨_, List.getElem?_eq_getElem hj'⟩
  obtain ⟨y', i', hy', hi', _⟩ := h.flow he'
  have hsame := h.sound.fresh.place_injective hy' hi' hy hi hp' hp
  obtain rfl := h.renders.injective j' j hj' hj hsame
  exact ⟨x, ha⟩

/-- A return finds the value it takes, and nothing else. -/
theorem shape_of_return (h : c.Shaped M Γ d log S code pos) {j : Nat} {e : Decoded}
    (he : code[j]? = some e) (hop : e.opcode = .returnValue) : S (pos j) = Shape.empty.up 1 := by
  obtain ⟨x, i, _, hi, hop', _, _, hflow⟩ := h.flow he
  rw [hop] at hop'
  generalize S (pos j) = σ at hflow
  generalize S (pos j + 1) = σ' at hflow
  cases hflow with
  | returnValue => rfl
  | plain hi' _ hordinary =>
    rw [hi] at hi'
    cases hi'
    rw [← hop'] at hordinary
    cases hordinary
  | branch hbranch =>
    cases hi
    cases hop'
    cases hbranch
  | jump hjump =>
    cases hi
    cases hop'
    rcases hjump with hjump | hjump <;> cases hjump
  | setup | popBlock | popExcept | raise | reraise =>
    cases hi
    cases hop'
  | label | alloc | intern => cases hi

/-- A jump leads to an instruction. -/
theorem lands (h : c.Shaped M Γ d log S code pos) {j : Nat} {e : Decoded}
    (he : code[j]? = some e) (hjump : e.opcode.isJump = true) : ∃ off k,
      e.jumpTarget = .ok (some off) ∧ code.findIdx? (fun e => e.offset == off) = some k := by
  obtain ⟨y, i, hy, hi, _, _, htarget, _⟩ := h.flow he
  rw [hjump] at htarget
  cases y with
  | jump op b =>
    obtain ⟨off, k, _, hoff, hk, _⟩ := h.renders.jumps j e op b he hy
    exact ⟨off, k, hoff, hk⟩
  | emit | named | load =>
    cases hi
    cases htarget
  | label | alloc | intern => cases hi

theorem keepsStack (h : c.Shaped M Γ d log S code pos) : KeepsStack code c.stackSize.toNat := by
  obtain ⟨m, hsize, hbounds, _, hattained⟩ := h.exists_deepest
  have hm : 0 ≤ m := by
    rcases hattained with rfl | ⟨j, e, taken, he, htaken, rfl⟩
    · decide
    · exact (hbounds j e he taken htaken).1
  have hnat : (c.stackSize.toNat : Int) = m.toInt := by
    rw [hsize]
    exact toNat_toUInt32_of_nonneg hm
  -- what is left behind an instruction that control comes to
  have hafter {j : Nat} {x : Int} {e : Decoded} (ha : Arrives code j x) (he : code[j]? = some e)
      (taken : Bool) (htaken : e.Leaves taken) :
      0 ≤ x + e.effect taken ∧ x + e.effect taken ≤ c.stackSize.toNat := by
    obtain ⟨_, hw, rfl⟩ := h.depth_eq ha
    obtain ⟨hpos, hsum⟩ := h.toInt_after he taken htaken hw
    rw [← hsum, hnat]
    exact ⟨Int32.le_iff_toInt_le.mp hpos, Int32.le_iff_toInt_le.mp (hbounds j e he taken htaken).2⟩
  have hdepth {j : Nat} {x : Int} (ha : Arrives code j x) : x ≤ c.stackSize.toNat := by
    induction ha with
    | start => exact Int.natCast_nonneg _
    | falls ha he _ _ => exact (hafter ha he false nofun).2
    | jumps ha he hoff _ _ => exact (hafter ha he true fun _ => Decoded.isJump_of_jumpTarget hoff).2
  refine {
    inside := fun j x ha => (h.depth_eq ha).1
    unique := fun j x y ha hb => ?_
    nonneg := fun j x ha => ?_
    lands := fun j x e _ he => h.lands he
    effects := fun j x e taken _ he htaken => ⟨_, h.computes he taken htaken⟩
    nonneg_after := fun j x e taken ha he htaken => (hafter ha he taken htaken).1
    returns := fun j x e ha he hop => ?_
    le := fun j x => hdepth
    attained := ?_ }
  · rw [(h.depth_eq ha).2.2, (h.depth_eq hb).2.2]
  · obtain ⟨_, hw, rfl⟩ := h.depth_eq ha
    exact Int32.le_iff_toInt_le.mp hw
  · rw [(h.depth_eq ha).2.2, h.shape_of_return he hop]
    rfl
  · rcases hattained with rfl | ⟨j, e, taken, he, htaken, rfl⟩
    · rw [hnat]
      exact ⟨0, .start⟩
    · obtain ⟨x, ha⟩ := h.arrives (List.getElem?_eq_some_iff.mp he).1
      obtain ⟨_, hw, rfl⟩ := h.depth_eq ha
      rw [(h.toInt_after he taken htaken hw).2] at hnat
      rw [hnat]
      cases taken with
      | true =>
        obtain ⟨off, k, hoff, hk⟩ := h.lands he (htaken rfl)
        exact ⟨k, .jumps ha he hoff hk⟩
      | false =>
        cases hopen : e.opcode.isTerminal with
        | false => exact ⟨j + 1, .falls ha he hopen⟩
        | true =>
          -- what control does not pass adds nothing to the depth before it
          obtain ⟨y, i, hy, hi, hop, _, _, hflow⟩ := h.flow he
          obtain ⟨_, _, _, hterm⟩ := hflow.after hi
          rw [← hop, hopen, if_pos rfl, ← (h.effect_eq he hy hi false).1,
            (h.computes he false nofun).2] at hterm
          have hmost := hdepth ha
          rw [hnat] at hmost
          refine ⟨j, ?_⟩
          rwa [show (Int32.ofNat (S (pos j)).depth).toInt + e.effect false =
            (Int32.ofNat (S (pos j)).depth).toInt by omega]

end CodeObject.Shaped

theorem CodeObject.HasShapes.keepsStack {c : CodeObject} (h : c.HasShapes) :
    ∃ code, Wordcode.decode c.code = .ok code ∧ KeepsStack code c.stackSize.toNat := by
  obtain ⟨_, _, _, _, _, code, _, h⟩ := h
  exact ⟨code, h.decodes, h.keepsStack⟩

/-- Every code object that a program in context is compiled to keeps the discipline of the operand
stack, and no underflow is reported if the depths are machine words. Code objects that stand in the
program as constants, for which `K` holds, were not made by compiling it. -/
theorem compile_keepsStack {K : CodeObject → Prop} {p : Program} (hp : p.Fits K) (t : ScopeTable)
    (o : Options) :
    (∀ c c', compile p t o = .ok c → c.Yields K c' →
      ∃ code, decode c'.code = .ok code ∧ KeepsStack code c'.stackSize.toNat) ∧
    (p.need t.widest < 2 ^ 31 → ∀ b k op scope line,
      compile p t o ≠ .error (.internal (.stackUnderflow b k op) scope line)) := by
  refine ⟨fun c c' hc hc' => (hasShapes_of_compile hp hc hc').keepsStack, ?_⟩
  intro hlt b k op scope line herror
  have hnot := not_underflow_of_compile hp hlt herror
  cases hnot

/-- A function that returns from within a loop, through a final body. -/
def searchProgram : Program :=
  .module [.functionDef 1 "find" ⟨[], [], none, [], [], none, []⟩
    [.forLoop 2 (.name 2 "x" .store) (.name 2 "xs" .load)
      [.tryExcept 3 [.ret 4 (some (.name 4 "x" .load))] [] [] [.expr 5 (.name 5 "done" .load)]]
      []] [] none]

def searchTable : ScopeTable := { ScopeTable.module with children := [.function "find" 1] }

theorem fits_searchProgram : searchProgram.Fits fun _ => False := by
  intro s hs
  obtain rfl := List.mem_singleton.mp hs
  refine .functionDef nofun ⟨nofun, nofun⟩ nofun nofun ?_
  simp only [List.mem_singleton, forall_eq]
  refine .forLoop .name .name ?_ nofun
  simp only [List.mem_singleton, forall_eq]
  refine .tryExcept ?_ nofun nofun nofun ?_
  · simp only [List.mem_singleton, forall_eq]
    refine .ret ?_
    rintro e ⟨⟩
    exact .name
  · simp only [List.mem_singleton, forall_eq]
    exact .expr .name

theorem exists_compile_searchProgram : ∃ c, compile searchProgram searchTable {} = .ok c := by
  have hok : (compile searchProgram searchTable {}).isOk = true := by decide +kernel
  cases h : compile searchProgram searchTable {} with
  | ok c => exact ⟨c, rfl⟩
  | error e =>
    rw [h] at hok
    cases hok

theorem searchProgram_keepsStack : ∃ c, compile searchProgram searchTable {} = .ok c ∧
    (∀ c', c.Yields (fun _ => False) c' →
      ∃ code, decode c'.code = .ok code ∧ KeepsStack code c'.stackSize.toNat) ∧
    ∀ b k op scope line, compile searchProgram searchTable {} ≠
      .error (.internal (.stackUnderflow b k op) scope line) := by
  obtain ⟨c, hc⟩ := exists_compile_searchProgram
  obtain ⟨hkeeps, hno⟩ := compile_keepsStack fits_searchProgram searchTable {}
  exact ⟨c, hc, fun c' => hkeeps c c' hc, hno (by decide +kernel)⟩

end Wordcode
