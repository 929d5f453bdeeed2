import Mathlib.Tactic.Common
import Wordcode.Proofs.Assembly
import Wordcode.Proofs.Script

/-!
# Wordcode of a script

A draft that was written by a script assembles to wordcode that goes through the script: each
instruction of it stands at a position of the script, the next one is at the position that control
comes to from there, and a jump leads to the position behind its label.
-/

set_option autoImplicit false

namespace Wordcode

namespace Script

/-- Control that stands before item `m` comes to the instruction at `k`; what lies between them is
no instruction. -/
inductive Next (log : Script) : Nat → Nat → Prop where
  | here {m : Nat} {item : Item} {i : Instruction} : log[m]? = some item →
      item.instruction? = some i → Next log m m
  | skip {m k : Nat} {item : Item} : log[m]? = some item → item.instruction? = none →
      Next log (m + 1) k → Next log m k

theorem Next.unique {log : Script} {m k k' : Nat} (h : Next log m k) (h' : Next log m k') :
    k = k' := by
  induction h with
  | here hm hi =>
    cases h' with
    | here => rfl
    | skip hm' hi' =>
      rw [hm] at hm'
      cases hm'
      rw [hi] at hi'
      cases hi'
  | skip hm hi _ ih =>
    cases h' with
    | here hm' hi' =>
      rw [hm] at hm'
      cases hm'
      rw [hi] at hi'
      cases hi'
    | skip _ _ h' => exact ih h'

theorem Next.instruction {log : Script} {m k : Nat} (h : Next log m k) :
    ∃ item i, log[k]? = some item ∧ item.instruction? = some i := by
  induction h with
  | here hm hi => exact ⟨_, _, hm, hi⟩
  | skip _ _ _ ih => exact ih

theorem take_succ {log : Script} {m : Nat} {item : Item} (h : log[m]? = some item) :
    log.take (m + 1) = log.take m ++ [item] := by
  rw [List.take_add_one, h]
  rfl

theorem place_take_succ {log : Script} {m : Nat} {item : Item} (h : log[m]? = some item) :
    place (log.take (m + 1)) = item.advance (place (log.take m)) := by
  rw [take_succ h, place_concat]

/-- Behind a position a script either stays in its block and moves forward there, or it has come
to a label. -/
theorem place_forward {log : Script} {m : Nat} {p : Place} {item : Item} {i : Instruction}
    (hm : log[m]? = some item) (hi : item.instruction? = some i)
    (hp : place (log.take m) = some p) (n : Nat) {q : Place}
    (hq : place (log.take (m + 1 + n)) = some q) :
    q.block = p.block ∧ p.index < q.index ∨ q.block ∈ labels ((log.take (m + 1 + n)).drop m) := by
  induction n generalizing q with
  | zero =>
    rw [Nat.add_zero, place_take_succ hm, Item.advance_of_instruction hi, hp] at hq
    left
    simp only [Option.bind_some] at hq
    split at hq
    · cases hq
    · cases hq
      exact ⟨rfl, Nat.lt_succ_self _⟩
  | succ n ih =>
    rw [← Nat.add_assoc] at hq ⊢
    cases hx : log[m + 1 + n]? with
    | none =>
      rw [List.take_add_one, hx, Option.toList_none, List.append_nil] at hq ⊢
      exact ih hq
    | some x =>
      rw [place_take_succ hx] at hq
      have hdrop : (log.take (m + 1 + n + 1)).drop m = (log.take (m + 1 + n)).drop m ++ [x] := by
        rw [take_succ hx, List.drop_append_of_le_length]
        have hlt := (List.getElem?_eq_some_iff.mp hx).1
        rw [List.length_take]
        omega
      rw [hdrop, labels_append]
      have hstay {q' : Place} (hq' : place (log.take (m + 1 + n)) = some q')
          (hb : q.block = q'.block) (hk : q'.index ≤ q.index) :
          q.block = p.block ∧ p.index < q.index ∨
            q.block ∈ labels ((log.take (m + 1 + n)).drop m) ++ labels [x] := by
        rcases ih hq' with ⟨hb', hk'⟩ | hmem
        · exact .inl ⟨hb.trans hb', Nat.lt_of_lt_of_le hk' hk⟩
        · exact .inr (List.mem_append_left _ (hb ▸ hmem))
      cases x with
      | label b =>
        cases hq
        exact .inr (List.mem_append_right _ (by simp [labels, Item.label?]))
      | alloc | intern => exact hstay hq rfl (Nat.le_refl _)
      | emit | named | load | jump =>
        rw [Item.advance_of_instruction rfl] at hq
        obtain ⟨q', hq', hstep⟩ := Option.bind_eq_some_iff.mp hq
        split at hstep
        · cases hstep
        · cases hstep
          exact hstay hq' rfl (Nat.le_succ _)

/-- There is one place for a label. -/
theorem Fresh.label_unique {log : Script} (h : log.Fresh) {m k : Nat} {b : BlockId}
    (hm : log[m]? = some (.label b)) (hk : log[k]? = some (.label b)) : m = k := by
  have hbefore {i j : Nat} (hi : log[i]? = some (.label b)) (hj : log[j]? = some (.label b))
      (hlt : i < j) : False := by
    have hnodup := (List.nodup_cons.mp h.nodup).2
    rw [← List.take_append_drop j log, labels_append, List.nodup_append] at hnodup
    have hleft : Item.label b ∈ log.take j := by
      refine List.mem_of_getElem? (i := i) ?_
      rwa [List.getElem?_take_of_lt hlt]
    have hright : Item.label b ∈ log.drop j := by
      refine List.mem_of_getElem? (i := 0) ?_
      rwa [List.getElem?_drop, Nat.add_zero]
    exact hnodup.2.2 b (mem_labels.mpr hleft) b (mem_labels.mpr hright) rfl
  rcases Nat.lt_trichotomy m k with hlt | heq | hlt
  · exact (hbefore hm hk hlt).elim
  · exact heq
  · exact (hbefore hk hm hlt).elim

/-- No two instructions of a script have the same place. -/
theorem Fresh.place_injective {log : Script} (hlog : log.Fresh) {m k : Nat} {p : Place}
    {x y : Item} {i j : Instruction} (hm : log[m]? = some x) (hi : x.instruction? = some i)
    (hk : log[k]? = some y) (hj : y.instruction? = some j)
    (hp : place (log.take m) = some p) (hq : place (log.take k) = some p) : m = k := by
  have hlt {m k : Nat} {x : Item} {i : Instruction} (hm : log[m]? = some x)
      (hi : x.instruction? = some i) (hp : place (log.take m) = some p)
      (hq : place (log.take k) = some p) : ¬ m < k := by
    intro hmk
    obtain ⟨n, rfl⟩ : ∃ n, k = m + 1 + n := ⟨k - (m + 1), by omega⟩
    rcases place_forward hm hi hp n hq with ⟨_, hlt⟩ | hmem
    · exact Nat.lt_irrefl _ hlt
    · -- the block would be gone on at twice
      have hnodup := hlog.nodup
      rw [← List.take_append_drop m log, labels_append, ← List.cons_append] at hnodup
      have hbefore : p.block ∈ Draft.entry :: labels (log.take m) := by
        rcases block_of_place hp with h | h
        · exact h ▸ List.mem_cons_self
        · exact List.mem_cons_of_mem _ h
      refine (List.nodup_append.mp hnodup).2.2 _ hbefore _ ?_ rfl
      exact (((List.take_sublist _ log).drop m).filterMap Item.label?).subset hmem
  have h₁ := hlt hm hi hp hq
  have h₂ := hlt hk hj hq hp
  omega

end Script

namespace Draft

/-- What control meets in the graph is the next instruction of the script. -/
theorem Traces.exists_next {d : Draft} {log : Script} (h : d.Traces log) (hend : log.place = none)
    {p q : Place} (hq : Graph.Meets d.blocks p.block p.index q) (m : Nat)
    (hp : Script.place (log.take m) = some p) :
    ∃ k, log.Next m k ∧ Script.place (log.take k) = some q := by
  induction hn : log.length - m generalizing m p with
  | zero =>
    rw [List.take_of_length_le (by omega), hend] at hp
    cases hp
  | succ n ih =>
    obtain ⟨item, hitem⟩ : ∃ item, log[m]? = some item :=
      ⟨_, List.getElem?_eq_getElem (by omega)⟩
    have hnext := Script.place_take_succ hitem
    cases hi : item.instruction? with
    | some i =>
      obtain ⟨line, hline⟩ := h.code m item i p hitem hi hp
      have hlt : p.index < (Graph.block d.blocks p.block).instructions.size :=
        (Array.getElem?_eq_some_iff.mp hline).1
      cases hq with
      | here => exact ⟨m, .here hitem hi, hp⟩
      | onward hle => exact absurd hlt (by omega)
    | none =>
      have hskip {p' : Place} (hp' : Script.place (log.take (m + 1)) = some p')
          (hq' : Graph.Meets d.blocks p'.block p'.index q) :
          ∃ k, log.Next m k ∧ Script.place (log.take k) = some q := by
        obtain ⟨k, hk, hplace⟩ := ih hq' (m + 1) hp' (by omega)
        exact ⟨k, .skip hitem hi hk, hplace⟩
      cases item with
      | label b =>
        obtain ⟨_, hsize, _, hlink⟩ := h.falls m b p hitem hp
        refine hskip hnext ?_
        cases hq with
        | here hlt => exact absurd hlt (by rw [← hsize]; exact Nat.lt_irrefl _)
        | onward _ _ hlink' hq =>
          rw [← block_eq, hlink] at hlink'
          cases hlink'
          exact hq
      | alloc | intern => exact hskip (hnext.trans hp) hq
      | emit | named | load | jump => cases hi

end Draft

/-- Wordcode that goes through a script; `pos` tells where each instruction stands in it. -/
structure Script.Renders (log : Script) (code : List Decoded) (pos : Nat → Nat) : Prop where
  item : ∀ j e, code[j]? = some e → ∃ x i, log[pos j]? = some x ∧ x.instruction? = some i ∧
    e.opcode = i.opcode ∧ (i.target = none → e.arg = i.arg)
  injective : ∀ j k, j < code.length → k < code.length → pos j = pos k → j = k
  start : 0 < code.length ∧ log.Next 0 (pos 0)
  falls : ∀ j e, code[j]? = some e → e.opcode.isTerminal = false →
    j + 1 < code.length ∧ log.Next (pos j + 1) (pos (j + 1))
  jumps : ∀ j e op t, code[j]? = some e → log[pos j]? = some (.jump op t) →
    ∃ off k m, e.jumpTarget = .ok (some off) ∧ code.findIdx? (fun e => e.offset == off) = some k ∧
      k < code.length ∧ log[m]? = some (.label t) ∧ log.Next m (pos k)

namespace Script

/-- The instructions of a script can be added to a draft with that many blocks. -/
structure Sound (blockCount : Nat) (log : Script) : Prop where
  fresh : log.Fresh
  instructions : ∀ x ∈ log, ∀ i, x.instruction? = some i → i.Sound blockCount
  labels_lt : ∀ b ∈ log.labels, b < blockCount
  targets_subset : ∀ b ∈ log.targets, b ∈ log.labels

/-- What is written at the end of a draft that control can get to. -/
def closing (n : Nat) (addNone : Bool) (arg : UInt32) : Script :=
  [.alloc, .label n] ++ (if addNone then [.intern .none, .load arg .none] else []) ++
    [.emit .returnValue 0]

theorem Sound.closing {n : Nat} {log : Script} (h : log.Sound n) (hn : n = 1 + log.allocs)
    (addNone : Bool) (arg : UInt32) : Sound (n + 1) (log ++ closing n addNone arg) := by
  have hlabels : labels (Script.closing n addNone arg) = [n] := by cases addNone <;> rfl
  have htargets : targets (Script.closing n addNone arg) = [] := by cases addNone <;> rfl
  refine ⟨⟨?_, ?_⟩, ?_, ?_, ?_⟩
  · rw [labels_append, hlabels, ← List.cons_append, List.nodup_append]
    refine ⟨h.fresh.nodup, List.nodup_singleton n, ?_⟩
    rintro b hb c hc rfl
    have hbn := List.mem_singleton.mp hc
    rcases List.mem_cons.mp hb with hb | hb
    · have hzero : n = 0 := hbn.symm.trans hb
      omega
    · exact absurd (hbn ▸ h.labels_lt b hb) (Nat.lt_irrefl _)
  · intro m b hb
    by_cases hm : m < log.length
    · rw [List.getElem?_append_left hm] at hb
      rw [List.take_append_of_le_length (Nat.le_of_lt hm)]
      exact h.fresh.placed m b hb
    · rw [List.getElem?_append_right (by omega)] at hb
      obtain ⟨k, rfl⟩ : ∃ k, m = log.length + k := ⟨m - log.length, by omega⟩
      rw [Nat.add_sub_cancel_left] at hb
      have hmem : b ∈ labels (Script.closing n addNone arg) :=
        mem_labels.mpr (List.mem_of_getElem? hb)
      rw [hlabels, List.mem_singleton] at hmem
      have halloc : 0 < allocs ((Script.closing n addNone arg).take k) := by
        cases k with
        | zero => cases addNone <;> cases hb
        | succ k => simp [Script.closing, allocs]
      rw [List.take_length_add_append, allocs_append]
      omega
  · intro x hx i hi
    rcases List.mem_append.mp hx with hx | hx
    · exact (h.instructions x hx i hi).mono (Nat.le_succ n)
    · have hx : x = .alloc ∨ x = .label n ∨ x = .intern .none ∨ x = .load arg .none ∨
          x = .emit .returnValue 0 := by
        cases addNone <;> simp [Script.closing] at hx <;> tauto
      rcases hx with rfl | rfl | rfl | rfl | rfl <;> cases hi
      · exact ⟨by simp, rfl, by simp, fun hjump => by cases hjump⟩
      · exact ⟨by decide, rfl, by simp, fun _ => rfl⟩
  · intro b hb
    rw [labels_append, hlabels] at hb
    rcases List.mem_append.mp hb with hb | hb
    · exact Nat.lt_succ_of_lt (h.labels_lt b hb)
    · exact List.mem_singleton.mp hb ▸ Nat.lt_succ_self n
  · intro b hb
    rw [targets_append, htargets, List.append_nil] at hb
    rw [labels_append]
    exact List.mem_append_left _ (h.targets_subset b hb)

end Script

namespace Draft

theorem Writes.sound_block {name qualname : String} {t : ScopeTable} {serial firstLine : UInt32}
    {nested : Bool} {log : Script} {d : Draft} {n : Nat}
    (h : (ofTable name qualname t serial firstLine nested).Writes log d) (hlog : log.Fresh)
    (hcode : ∀ x ∈ log, ∀ i, x.instruction? = some i → i.Sound n)
    (hlabels : ∀ b ∈ log.labels, b < n) (b : BlockId) : (d.block b).Sound n := by
  induction h generalizing b with
  | nil =>
    have hempty : (ofTable name qualname t serial firstLine nested).block b = {} := by
      cases b <;> simp [Draft.block, ofTable]
    rw [hempty]
    exact Block.sound_empty _
  | quiet _ _ hblocks _ _ _ ih =>
    rw [show Draft.block _ b = _ from congrArg (·.getD b {}) hblocks]
    exact ih hlog hcode hlabels b
  | alloc _ ih =>
    rw [block_newBlock]
    exact ih hlog.of_concat (fun x hx => hcode x (List.mem_append_left _ hx))
      (fun c hc => hlabels c (by simp [hc])) b
  | @label log d₁ c hw ih =>
    have ih := ih hlog.of_concat (fun x hx => hcode x (List.mem_append_left _ hx))
      (fun c hc => hlabels c (by simp [hc]))
    rw [block_fallInto (hw.traces hlog.of_concat).current_lt]
    split
    · exact (ih d₁.current).link (hlabels c (by simp [Script.labels, Item.label?]))
    · exact ih b
  | @code log d₁ x i hw hi _ ih =>
    have ih := ih hlog.of_concat (fun x hx => hcode x (List.mem_append_left _ hx))
      (fun c hc => hlabels c (by simp [hc]))
    by_cases hopen : d₁.currentBlock.terminal = true
    · rw [Draft.append, if_pos hopen]
      exact ih b
    · have hopen := Bool.eq_false_iff.mpr hopen
      obtain ⟨line, hblock⟩ := block_append (hw.traces hlog.of_concat).current_lt hopen i
      have hsound := hcode x (by simp) i hi
      rw [hblock]
      split
      · exact (ih d₁.current).push hopen
          ⟨hsound.not_widening, hsound.target_isSome, hsound.target_lt, hsound.arg_eq_zero⟩
      · exact ih b
  | intern c _ ih =>
    exact ih hlog.of_concat (fun x hx => hcode x (List.mem_append_left _ hx))
      (fun c hc => hlabels c (by simp [hc])) b

theorem Writes.sound {name qualname : String} {t : ScopeTable} {serial firstLine : UInt32}
    {nested : Bool} {log : Script} {d : Draft}
    (h : (ofTable name qualname t serial firstLine nested).Writes log d)
    (hlog : log.Sound d.blocks.size) : d.Sound :=
  ⟨fun b => h.sound_block hlog.fresh hlog.instructions hlog.labels_lt b,
    (h.traces hlog.fresh).current_lt⟩

/-- Control reaches only the entry and labels. -/
theorem Traces.mem_of_reaches {d : Draft} {log : Script} (h : d.Traces log)
    (htargets : ∀ b ∈ log.targets, b ∈ log.labels) {b : BlockId}
    (hb : Graph.Reaches d.blocks entry b) : b ∈ entry :: log.labels := by
  cases hb with
  | entry => exact List.mem_cons_self
  | @jump c t i _ hi ht =>
    obtain ⟨k, hk⟩ := Array.getElem?_of_mem hi
    obtain ⟨m, x, hx, hxi, _⟩ := h.covered ⟨c, k⟩ i hk
    refine List.mem_cons_of_mem _ (htargets b (Script.mem_targets.mpr ?_))
    have hmem := List.mem_of_getElem? hx
    cases x with
    | jump op c =>
      have htarget := congrArg Instruction.target (Option.some.inj hxi)
      cases htarget.trans ht
      exact ⟨op, hmem⟩
    | emit | named | load =>
      have htarget := congrArg Instruction.target (Option.some.inj hxi)
      cases htarget.trans ht
    | label | alloc | intern => cases hxi
  | next _ _ hn => exact List.mem_cons_of_mem _ (h.next_mem _ _ hn)

/-- What is written to a draft that is closed: a return, unless control cannot get to its end. -/
theorem Writes.close {d d' : Draft} {log : Script} (h : d.Writes log d') (addNone : Bool) :
    d'.currentBlock.terminal = true ∧ d.Writes log (d'.close addNone) ∨
      d'.currentBlock.terminal = false ∧ ∃ arg, d.Writes
        (log ++ Script.closing d'.blocks.size addNone arg) (d'.close addNone) := by
  unfold Draft.close
  split
  · next hterm => exact .inl ⟨hterm, h⟩
  · next hterm =>
    refine .inr ⟨Bool.eq_false_iff.mpr hterm, ?_⟩
    have hlabel := h.alloc.label d'.newBlock.1
    simp only [List.append_assoc] at hlabel
    cases addNone with
    | false =>
      have hret := @Writes.code _ _ _ (.emit .returnValue 0) _ hlabel rfl trivial
      simp only [List.append_assoc] at hret
      exact ⟨0, hret⟩
    | true =>
      have hload := (hlabel.intern .none).code (rfl : Item.instruction? (.load _ _) = _)
        (resolves_load _ _)
      have hret := @Writes.code _ _ _ (.emit .returnValue 0) _ hload rfl trivial
      simp only [List.append_assoc] at hret
      exact ⟨_, hret⟩

/-- The positions of the code are those of the instructions that control may get to. -/
structure Covers (d : Draft) (log : Script) (code : List Decoded) (pos : Nat → Nat) : Prop where
  place : ∀ j, j < code.length →
    ∃ p, Script.place (log.take (pos j)) = some p ∧ Graph.Reaches d.blocks entry p.block
  index : ∀ m x i p, log[m]? = some x → x.instruction? = some i →
    Script.place (log.take m) = some p → Graph.Reaches d.blocks entry p.block →
    ∃ j, j < code.length ∧ pos j = m

/-- The listing of a graph that traces a script goes through the script. -/
theorem Traces.exists_renders {d : Draft} {log : Script} (h : d.Traces log)
    (hlog : log.Sound d.blocks.size) (hend : log.place = none) {order : List BlockId}
    {code : List Decoded} (hcode : Realizes d.blocks entry order code) :
    ∃ pos, log.Renders code pos ∧ d.Covers log code pos := by
  have hplace (j : Nat) (hj : j < code.length) :
      ∃ p, (Graph.places d.blocks order)[j]? = some p :=
    ⟨_, List.getElem?_eq_getElem (hcode.length_eq ▸ hj)⟩
  have hlt {j : Nat} {p : Place} (hp : (Graph.places d.blocks order)[j]? = some p) :
      j < code.length := by
    rw [hcode.length_eq]
    exact (List.getElem?_eq_some_iff.mp hp).1
  have hpos (j : Nat) : ∃ m, ∀ p, (Graph.places d.blocks order)[j]? = some p → ∃ x i,
      log[m]? = some x ∧ x.instruction? = some { i with line := 0 } ∧
      Graph.instruction? d.blocks p = some i ∧ Script.place (log.take m) = some p := by
    by_cases hj : j < code.length
    · obtain ⟨p, hp⟩ := hplace j hj
      obtain ⟨i, _, hi, _⟩ := hcode.agrees j p hp
      obtain ⟨m, x, hx, hxi, hm⟩ := h.covered p i hi
      refine ⟨m, fun p' hp' => ?_⟩
      rw [hp] at hp'
      cases hp'
      exact ⟨x, i, hx, hxi, hi, hm⟩
    · exact ⟨0, fun p hp => absurd (hlt hp) hj⟩
  choose pos hpos using hpos
  -- control that meets the instruction numbered `j` comes to its position
  have hnext {m j : Nat} {p q : Place} (hp : Script.place (log.take m) = some p)
      (hq : Graph.Meets d.blocks p.block p.index q)
      (hj : (Graph.places d.blocks order)[j]? = some q) : log.Next m (pos j) := by
    obtain ⟨k, hk, hkq⟩ := h.exists_next hend hq m hp
    obtain ⟨y, i, hy, hyi⟩ := hk.instruction
    obtain ⟨x, i', hx, hxi, _, hm⟩ := hpos j q hj
    rw [← hlog.fresh.place_injective hy hyi hx hxi hkq hm]
    exact hk
  refine ⟨pos, ⟨?_, ?_, ?_, ?_, ?_⟩, ?_, ?_⟩
  · intro j e he
    obtain ⟨p, hp⟩ := hplace j (List.getElem?_eq_some_iff.mp he).1
    obtain ⟨x, i, hx, hxi, hi, _⟩ := hpos j p hp
    obtain ⟨i', e', hi', he', hop, harg⟩ := hcode.agrees j p hp
    rw [hi] at hi'
    cases hi'
    rw [he] at he'
    cases he'
    exact ⟨x, _, hx, hxi, hop, harg⟩
  · intro j k hj hk heq
    obtain ⟨p, hp⟩ := hplace j hj
    obtain ⟨q, hq⟩ := hplace k hk
    obtain ⟨_, _, _, _, _, hpm⟩ := hpos j p hp
    obtain ⟨_, _, _, _, _, hqm⟩ := hpos k q hq
    rw [heq, hqm] at hpm
    cases hpm
    have hnodup := Graph.nodup_places d.blocks hcode.nodup
    exact (List.Nodup.getElem_inj_iff hnodup).mp (Option.some.inj (by
      rw [← List.getElem?_eq_getElem (hcode.length_eq ▸ hj), hp,
        ← List.getElem?_eq_getElem (hcode.length_eq ▸ hk), hq]))
  · obtain ⟨p, _, hmeets, hp, hzero, _⟩ := hcode.entry_first
    exact ⟨(List.getElem?_eq_some_iff.mp hzero).1,
      hnext (rfl : Script.place (log.take 0) = some ⟨entry, 0⟩) hmeets hp⟩
  · intro j e he hterm
    obtain ⟨p, hp⟩ := hplace j (List.getElem?_eq_some_iff.mp he).1
    obtain ⟨x, i, hx, hxi, hi, hm⟩ := hpos j p hp
    obtain ⟨i', e', hi', he', hop, _⟩ := hcode.agrees j p hp
    rw [hi] at hi'
    cases hi'
    rw [he] at he'
    cases he'
    rw [hop] at hterm
    obtain ⟨q, hmeets, hq⟩ := hcode.falls j p i hp hi hterm
    refine ⟨hlt hq, ?_⟩
    have hafter : Script.place (log.take (pos j + 1)) = some ⟨p.block, p.index + 1⟩ := by
      rw [Script.place_take_succ hx, Item.advance_of_instruction hxi, hm]
      simp [hterm]
    exact hnext hafter hmeets hq
  · intro j e op t he hjump
    obtain ⟨p, hp⟩ := hplace j (List.getElem?_eq_some_iff.mp he).1
    obtain ⟨x, i, hx, hxi, hi, _⟩ := hpos j p hp
    rw [hjump] at hx
    cases hx
    have htarget : i.target = some t :=
      (congrArg Instruction.target (Option.some.inj hxi)).symm
    obtain ⟨q, off, k, hmeets, hoff, hq, hfind⟩ := hcode.jumps j p i t e hp hi htarget he
    have hlabel := hlog.targets_subset t
      (Script.mem_targets.mpr ⟨op, List.mem_of_getElem? hjump⟩)
    obtain ⟨m, hm⟩ := List.getElem?_of_mem (Script.mem_labels.mp hlabel)
    refine ⟨off, k, m, hoff, hfind, hlt hq, hm, .skip hm rfl ?_⟩
    exact hnext (Script.place_take_succ hm) hmeets hq
  · intro j hj
    obtain ⟨p, hp⟩ := hplace j hj
    obtain ⟨_, _, _, _, _, hm⟩ := hpos j p hp
    have hmem := (Graph.mem_places.mp (List.mem_of_getElem? hp)).1
    exact ⟨p, hm, (hcode.mem_iff _).mp hmem⟩
  · intro m x i p hx hxi hm hreach
    obtain ⟨line, hline⟩ := h.code m x i p hx hxi hm
    have hlt' := (Array.getElem?_eq_some_iff.mp hline).1
    have hmem := Graph.mem_places.mpr ⟨(hcode.mem_iff _).mpr hreach, hlt'⟩
    obtain ⟨j, hj⟩ := List.getElem?_of_mem hmem
    obtain ⟨_, _, hy, hyi, _, hq⟩ := hpos j p hj
    exact ⟨j, hlt hj, hlog.fresh.place_injective hy hyi hx hxi hq hm⟩

/-- If control does not get to the end of a script, every block that it may get to is closed or
falls through to another. -/
theorem Traces.linked_of_reaches {d : Draft} {log : Script} (h : d.Traces log)
    (hlog : log.Sound d.blocks.size) (hend : log.place = none) (b : BlockId)
    (hb : Graph.Reaches d.blocks entry b) (hopen : (d.block b).terminal = false) :
    (d.block b).next ≠ none := by
  refine h.linked b (h.mem_of_reaches hlog.targets_subset hb) ?_
  -- the block at the end of the script is closed
  rintro rfl
  have hplace := h.place_eq
  rw [hend, Draft.currentBlock, hopen] at hplace
  cases hplace

theorem Writes.exists_closed {name qualname : String} {t : ScopeTable} {serial firstLine : UInt32}
    {nested : Bool} {log : Script} {d : Draft}
    (h : (ofTable name qualname t serial firstLine nested).Writes log d)
    (hlog : log.Sound d.blocks.size) (addNone : Bool) : ∃ tail,
      (ofTable name qualname t serial firstLine nested).Writes (log ++ tail) (d.close addNone) ∧
      Script.Sound (d.close addNone).blocks.size (log ++ tail) ∧
      Script.place (log ++ tail) = none ∧
      (tail = [] ∨ ∃ arg, tail = Script.closing d.blocks.size addNone arg) := by
  have hplace := (h.traces hlog.fresh).place_eq
  rcases h.close addNone with ⟨hterm, hw⟩ | ⟨hopen, arg, hw⟩
  · have hsame : d.close addNone = d := by simp [Draft.close, hterm]
    refine ⟨[], by simpa using hw, ?_, ?_, .inl rfl⟩
    · rw [List.append_nil, hsame]
      exact hlog
    · rw [List.append_nil, hplace, if_pos hterm]
  · have hsize : d.blocks.size = 1 + log.allocs := h.size_blocks
    have hclosed : (d.close addNone).blocks.size = d.blocks.size + 1 := by
      have hallocs : Script.allocs (Script.closing d.blocks.size addNone arg) = 1 := by
        cases addNone <;> rfl
      have hgrow := hw.size_blocks
      rw [Script.allocs_append, hallocs, ← Nat.add_assoc, ← h.size_blocks] at hgrow
      exact hgrow
    refine ⟨_, hw, hclosed ▸ hlog.closing hsize addNone arg, ?_, .inr ⟨arg, rfl⟩⟩
    cases addNone <;> simp [Script.closing, Script.place, Item.advance, Opcode.isTerminal,
      Opcode.isScopeExit]

/-- A draft that a sound script was written to assembles to wordcode that goes through the script
and the return that closes it. -/
theorem Writes.exists_renders {name qualname : String} {t : ScopeTable} {serial firstLine : UInt32}
    {nested : Bool} {log : Script} {d : Draft}
    (h : (ofTable name qualname t serial firstLine nested).Writes log d)
    (hlog : log.Sound d.blocks.size) {addNone : Bool} {filename : String} {c : CodeObject}
    (hc : d.assemble addNone filename = .ok c) : ∃ tail code pos,
      (ofTable name qualname t serial firstLine nested).Writes (log ++ tail) (d.close addNone) ∧
      Script.Sound (d.close addNone).blocks.size (log ++ tail) ∧
      Script.place (log ++ tail) = none ∧
      (tail = [] ∨ ∃ arg, tail = Script.closing d.blocks.size addNone arg) ∧
      decode c.code = .ok code ∧ Script.Renders (log ++ tail) code pos ∧
      (d.close addNone).Covers (log ++ tail) code pos := by
  obtain ⟨tail, hw, hsound, hend, htail⟩ := h.exists_closed hlog addNone
  have htraces := hw.traces hsound.fresh
  obtain ⟨order, code, hdecode, hcode⟩ :=
    (h.sound hlog).exists_realizes hc (htraces.linked_of_reaches hsound hend)
  obtain ⟨pos, hpos⟩ := htraces.exists_renders hsound hend hcode
  exact ⟨tail, code, pos, hw, hsound, hend, htail, hdecode, hpos⟩

end Draft
end Wordcode
