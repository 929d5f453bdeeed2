import Wordcode.Proofs.Chain
import Wordcode.Proofs.Forward
import Wordcode.Proofs.ScopeRuns

/-!
# Assembly accepts what is compiled

A script in which only `jumpAbsolute` goes back leaves a graph in which assembly finds nothing
wrong: every block is followed by the one it falls into, every target has a place, and a jump by a
distance has its target ahead.
-/

set_option autoImplicit false

namespace Wordcode

/-- What assembly refuses in a graph. -/
def Fault.OfGraph : Fault → Prop
  | .operandNotTaken .. | .targetNotTaken .. | .notLaidOutAfter .. | .targetNotLaidOut ..
  | .backwardJump .. | .offsetMismatch .. => True
  | _ => False

namespace Sizing

/-- Every target has a place, which lies behind the jumps that go to it by a distance. -/
def TargetsAhead (code : List Placed) : Prop :=
  ∀ (a : Nat) (p : Placed) (i : Instruction) (t : BlockId), code[a]? = some p → i ∈ p.body →
    i.target = some t → ∃ (a' : Nat) (q : Placed), code[a']? = some q ∧ q.id = t ∧
      (i.opcode.isRelativeJump = true → a < a')

theorem eq_overflow_of_word {n : Nat} {e : CompileError} (h : wordOf n = .error e) :
    e = .overflow := by
  unfold wordOf at h
  split at h
  · cases h
  · exact (Except.error.inj h).symm

theorem eq_overflow_of_resolve {offs : Offsets} {i : Instruction} {stop : Nat} {e : CompileError}
    (h : ∀ t, i.target = some t → ∃ off, offs.getD t none = some off ∧
      (i.opcode.isRelativeJump = true → stop ≤ off)) (he : resolve offs i stop = .error e) :
    e = .overflow := by
  unfold resolve at he
  cases ht : i.target with
  | none =>
    rw [ht] at he
    cases he
  | some t =>
    obtain ⟨off, hoff, hle⟩ := h t ht
    obtain ⟨n, hn⟩ : ∃ n, operand offs i stop t = wordOf n := by
      simp only [operand, hoff]
      cases hrel : i.opcode.isRelativeJump with
      | false => exact ⟨off, rfl⟩
      | true => exact ⟨off - stop, if_pos (hle hrel)⟩
    simp only [ht, hn] at he
    cases hword : wordOf n with
    | ok arg =>
      rw [hword] at he
      cases he
    | error e' =>
      rw [hword] at he
      exact Except.error.inj he ▸ eq_overflow_of_word hword

theorem eq_overflow_of_resolveBody {offs : Offsets} {body : List Instruction}
    {out : Array Instruction} {pos : Nat} {e : CompileError}
    (h : ∀ i ∈ body, ∀ t, i.target = some t → ∃ off, offs.getD t none = some off ∧
      (i.opcode.isRelativeJump = true → pos + bodySize body ≤ off))
    (he : resolveBody offs out pos body = .error e) : e = .overflow := by
  induction body generalizing out pos with
  | nil => cases he
  | cons i rest ih =>
    rw [bodySize_cons] at h
    unfold resolveBody at he
    split at he
    · next hi =>
      cases he
      refine eq_overflow_of_resolve (fun t ht => ?_) hi
      obtain ⟨off, hoff, hle⟩ := h i List.mem_cons_self t ht
      exact ⟨off, hoff, fun hrel => by have := hle hrel; omega⟩
    · refine ih (fun i' hi' t ht => ?_) he
      obtain ⟨off, hoff, hle⟩ := h i' (List.mem_cons_of_mem _ hi') t ht
      exact ⟨off, hoff, fun hrel => by have := hle hrel; omega⟩

theorem eq_overflow_of_resolveCode {offs : Offsets} {code : List Placed} {out : Array Placed}
    {e : CompileError}
    (h : ∀ p ∈ code, ∀ i ∈ p.body, ∀ t, i.target = some t → ∃ off, offs.getD t none = some off ∧
      (i.opcode.isRelativeJump = true → startOf offs p.id + bodySize p.body ≤ off))
    (he : resolveCode offs out code = .error e) : e = .overflow := by
  induction code generalizing out with
  | nil => cases he
  | cons p rest ih =>
    unfold resolveCode at he
    split at he
    · next hp =>
      cases he
      exact eq_overflow_of_resolveBody (h p List.mem_cons_self) hp
    · exact ih (fun q hq => h q (List.mem_cons_of_mem _ hq)) he

variable {blockCount : Nat} {code : List Placed} {e : CompileError}

theorem eq_overflow_of_pass (hnodup : (code.map Placed.id).Nodup)
    (hlt : ∀ p ∈ code, p.id < blockCount) (h : TargetsAhead code)
    (he : pass blockCount code = .error e) : e = .overflow := by
  rcases of_bind_eq_error he with hword | ⟨_, _, hcode⟩
  · exact eq_overflow_of_word hword
  refine eq_overflow_of_resolveCode (fun p hp i hi t ht => ?_) hcode
  obtain ⟨a, ha⟩ := List.getElem?_of_mem hp
  obtain ⟨a', q, hq, rfl, hlater⟩ := h a p i t ha hi ht
  refine ⟨_, getD_offsets hnodup hlt hq, fun hrel => ?_⟩
  rw [startOf, getD_offsets hnodup hlt ha, Option.getD_some, ← codeSize_take_succ ha]
  exact codeSize_take_le code (hlater hrel)

theorem TargetsAhead.rewritten {code' : List Placed} (h : TargetsAhead code)
    (halike : Alike Rewritten code code') : TargetsAhead code' := by
  intro a p' i' t hp' hi' ht
  obtain ⟨p, hp, hid, hbody⟩ := forall₂_getElem? (List.Forall₂.flip halike) hp'
  obtain ⟨i, hi, hij⟩ := exists_of_forall₂_right hbody hi'
  obtain ⟨a', q, hq, hqt, hlater⟩ := h a p i t hp hi (hij.target ▸ ht)
  obtain ⟨q', hq', hidq, _⟩ := forall₂_getElem? halike hq
  exact ⟨a', q', hq', hidq ▸ hqt, hij.opcode ▸ hlater⟩

/-- Where all targets lie ahead, only offsets that are no words keep jumps from being settled. -/
theorem eq_overflow_of_settle (hnodup : (code.map Placed.id).Nodup)
    (hlt : ∀ p ∈ code, p.id < blockCount) (h : TargetsAhead code)
    (he : settle blockCount code = .error e) : e = .overflow := by
  fun_induction settle blockCount code with
  | case1 code e' hpass =>
    cases he
    exact eq_overflow_of_pass hnodup hlt h hpass
  | case2 code next hpass hgrow ih =>
    have halike := (resolvedCode_of_pass hpass).rewritten
    exact ih (halike.map_id ▸ hnodup) (halike.id_lt hlt) (h.rewritten halike) he
  | case3 code next hpass hgrow => cases he

end Sizing

namespace Assembly.Output

/-- Blocks are refused only where they start elsewhere than assigned. -/
theorem of_writeBlocks_error {firstLine : UInt32} {offs : Offsets} {code : List Placed}
    {out : Output} {e : CompileError} (h : writeBlocks firstLine offs out code = .error e) :
    ∃ a p, code[a]? = some p ∧
      out.code.size + codeSize (code.take a) ≠ Sizing.startOf offs p.id := by
  induction code generalizing out with
  | nil => cases h
  | cons p rest ih =>
    unfold writeBlocks at h
    simp only at h
    split at h
    · obtain ⟨a, q, hq, hne⟩ := ih h
      have hsize : (p.body.foldl (write firstLine) out).code.size =
          out.code.size + bodySize p.body := by
        rw [← Array.length_toList, toList_foldl_write, List.length_append, length_bodyBytes,
          Array.length_toList]
      rw [hsize, Nat.add_assoc] at hne
      exact ⟨a + 1, q, hq, hne⟩
    · next hne => exact ⟨0, p, rfl, hne⟩

end Assembly.Output

theorem lt_of_mem_append {α : Type} {xs ys : List α} (h : (xs ++ ys).Nodup) {x y : α} {a b : Nat}
    (hx : x ∈ xs) (hy : y ∈ ys) (ha : (xs ++ ys)[a]? = some x) (hb : (xs ++ ys)[b]? = some y) :
    a < b := by
  have hdisjoint := (List.nodup_append.mp h).2.2
  have hfirst : a < xs.length := by
    by_contra hge
    rw [List.getElem?_append_right (Nat.le_of_not_lt hge)] at ha
    exact hdisjoint x hx x (List.mem_of_getElem? ha) rfl
  have hsecond : xs.length ≤ b := by
    by_contra hlt
    rw [List.getElem?_append_left (Nat.lt_of_not_le hlt)] at hb
    exact hdisjoint y (List.mem_of_getElem? hb) y hy rfl
  exact Nat.lt_of_lt_of_le hfirst hsecond

/-- Behind a jump that goes forward its label is still to come. -/
theorem Script.Forward.mem_labels_drop {log : Script} (h : log.Forward) {m : Nat} {op : Opcode}
    {b : BlockId} (hm : log[m]? = some (.jump op b)) (hop : op.isRelativeJump = true)
    (hb : b ∈ log.labels) : b ∈ labels (log.drop m) := by
  have hahead : b ∈ (Item.jump op b).ahead := by
    have hne : op ≠ .jumpAbsolute := by
      rintro rfl
      cases hop
    simp [Item.ahead, hne]
  have hmem : Item.jump op b ∈ log.drop m := by
    rw [List.mem_iff_getElem?]
    exact ⟨0, by rw [List.getElem?_drop, Nat.add_zero, hm]⟩
  rw [← List.take_append_drop m log, labels_append, List.mem_append] at hb
  refine hb.resolve_left fun hbefore => ?_
  have hpair := List.take_append_drop m log ▸ h
  exact (List.pairwise_append.mp hpair).2.2 _ (mem_labels.mp hbefore) _ hmem b rfl hahead

theorem Script.Forward.closing {log : Script} (h : log.Forward) (n : Nat) (addNone : Bool)
    (arg : UInt32) : Forward (log ++ Script.closing n addNone arg) := by
  have hnone (y : Item) (hy : y ∈ Script.closing n addNone arg) (b : BlockId) : b ∉ y.ahead := by
    have hy : y = .alloc ∨ y = .label n ∨ y = .intern .none ∨ y = .load arg .none ∨
        y = .emit .returnValue 0 := by
      cases addNone <;> simp [Script.closing] at hy <;> tauto
    rcases hy with rfl | rfl | rfl | rfl | rfl <;> exact List.not_mem_nil
  refine List.pairwise_append.mpr ⟨h, ?_, fun _ _ y hy b _ => hnone y hy b⟩
  exact List.pairwise_of_forall_mem_list fun _ _ y hy b _ => hnone y hy b

namespace Draft

variable {name qualname : String} {t : ScopeTable} {serial firstLine : UInt32} {nested : Bool}
  {log : Script} {d : Draft} {addNone : Bool} {filename : String} {e : CompileError}

theorem Writes.targetsAhead (h : (ofTable name qualname t serial firstLine nested).Writes log d)
    (hlog : log.Sound d.blocks.size) (hforward : log.Forward) :
    Sizing.TargetsAhead
      (d.placedBlocks (layout d.blocks (reachable d.blocks entry) entry)) := by
  have hsound := h.sound hlog
  have htraces := h.traces hlog.fresh
  have hentry : entry < d.blocks.size := Nat.lt_of_le_of_lt (Nat.zero_le _) hsound.current_lt
  have hmarked (b : BlockId) := marked_reachable_iff hsound.graph hentry b
  have hlayout := (h.layout_eq hlog).1
  generalize horder : layout d.blocks (reachable d.blocks entry) entry = order at hlayout
  have hmem (b : BlockId) : b ∈ order ↔ Graph.Reaches d.blocks entry b := by
    rw [← horder, mem_layout_iff, hmarked]
    exact ⟨And.right, fun hb => ⟨hb.lt hsound.graph hentry, hb⟩⟩
  intro a p i target hp hi htarget
  obtain ⟨b, hb, rfl⟩ : ∃ b, order[a]? = some b ∧ ⟨b, (d.block b).instructions.toList⟩ = p := by
    simpa [Draft.placedBlocks] using hp
  have hreach := (hmem b).mp (List.mem_of_getElem? hb)
  have hi : i ∈ (d.block b).instructions := Array.mem_toList_iff.mp hi
  have hlive : target ∈ order := (hmem target).mpr (.jump hreach hi htarget)
  obtain ⟨a', ha'⟩ := List.getElem?_of_mem hlive
  refine ⟨a', ⟨target, (d.block target).instructions.toList⟩, ?_, rfl, fun hrel => ?_⟩
  · simp [Draft.placedBlocks, ha']
  -- the block was gone on at before the jump was written, the target is gone on at behind it
  obtain ⟨k, hk⟩ := Array.getElem?_of_mem hi
  obtain ⟨m, x, hx, hxi, hplace⟩ := htraces.covered ⟨b, k⟩ i hk
  obtain rfl : x = .jump i.opcode target := by
    cases x with
    | jump op c =>
      injection hxi with hxi
      have hc := (congrArg Instruction.target hxi).trans htarget
      rw [show i.opcode = op from (congrArg Instruction.opcode hxi).symm, ← Option.some.inj hc]
    | emit | named | load => cases (congrArg Instruction.target (Option.some.inj hxi)).trans htarget
    | label | alloc | intern => cases hxi
  have hlabel := hlog.targets_subset target (Script.mem_targets.mpr ⟨_, List.mem_of_getElem? hx⟩)
  have hbehind := hforward.mem_labels_drop hx hrel hlabel
  have hbefore : b ∈ entry :: Script.labels (log.take m) :=
    (Script.block_of_place hplace).elim (fun h => h ▸ List.mem_cons_self) (List.mem_cons_of_mem _)
  have hsplit : entry :: log.labels =
      (entry :: Script.labels (log.take m)) ++ Script.labels (log.drop m) := by
    rw [List.cons_append, ← Script.labels_append, List.take_append_drop]
  have hlivemem {c : BlockId} (hc : c ∈ order) :
      (reachable d.blocks entry).getD c false = true := by
    rw [hlayout] at hc
    exact (List.mem_filter.mp hc).2
  rw [hsplit, List.filter_append] at hlayout
  have hnodup : order.Nodup := horder ▸ nodup_layout
  refine lt_of_mem_append (hlayout ▸ hnodup) (List.mem_filter.mpr ⟨hbefore, hlivemem ?_⟩)
    (List.mem_filter.mpr ⟨hbehind, hlivemem hlive⟩) (hlayout ▸ hb) (hlayout ▸ ha')
  exact List.mem_of_getElem? hb

/-- What is left to go wrong in assembly: a depth below zero, and a number that is no word. -/
theorem Writes.of_assemble_error
    (h : (ofTable name qualname t serial firstLine nested).Writes log (d.close addNone))
    (hlog : log.Sound (d.close addNone).blocks.size) (hforward : log.Forward)
    (he : d.assemble addNone filename = .error e) :
    (∃ b k op, e = .fault (.stackUnderflow b k op)) ∨ e = .overflow := by
  have hsound := h.sound hlog
  have hentry : entry < (d.close addNone).blocks.size :=
    Nat.lt_of_le_of_lt (Nat.zero_le _) hsound.current_lt
  have hcheck := (h.layout_eq hlog).2
  have hahead := h.targetsAhead hlog hforward
  have hids : (((d.close addNone).placedBlocks (layout (d.close addNone).blocks
      (reachable (d.close addNone).blocks entry) entry)).map Placed.id).Nodup := by
    simpa [Draft.placedBlocks, Function.comp_def] using nodup_layout
  have hlt : ∀ p ∈ (d.close addNone).placedBlocks (layout (d.close addNone).blocks
      (reachable (d.close addNone).blocks entry) entry), p.id < (d.close addNone).blocks.size := by
    intro p hp
    obtain ⟨b, hb, rfl⟩ := List.mem_map.mp hp
    exact (mem_layout_iff.mp hb).1
  unfold Draft.assemble at he
  simp only [bind, Except.bind, pure, Except.pure, hcheck] at he
  split at he
  · next hsettle =>
    cases he
    exact .inr (Sizing.eq_overflow_of_settle hids hlt hahead hsettle)
  next settled hsettle =>
  split at he
  · next hdepth =>
    cases he
    exact maxStackDepth_error hdepth
  split at he
  · next hwrite =>
    -- every block starts behind those that are written before it
    obtain ⟨a, p, hp, hne⟩ := Assembly.Output.of_writeBlocks_error hwrite
    obtain ⟨halike, hoffs, _⟩ :=
      Sizing.settled_of_settle (hsound.graph.rising _) hids hlt hsettle
    rw [hoffs, Sizing.startOf, Sizing.getD_offsets (halike.map_id ▸ hids) (halike.id_lt hlt) hp,
      Option.getD_some] at hne
    exact absurd (by simp) hne
  · cases he

/-- Assembly finds nothing wrong with the graph of a draft that a script was written to in which
jumps by a distance go forward. -/
theorem Writes.not_ofGraph (h : (ofTable name qualname t serial firstLine nested).Writes log d)
    (hlog : log.Sound d.blocks.size) (hforward : log.Forward)
    (he : d.finish addNone filename = .error e) {f : Fault} (hf : e.fault? = some f) :
    ¬ f.OfGraph := by
  unfold Draft.finish at he
  split at he
  · cases hassemble : d.assemble addNone filename with
    | ok c =>
      rw [hassemble] at he
      cases he
    | error e' =>
      rw [hassemble] at he
      cases he
      rw [CompileError.fault?_withContext] at hf
      obtain ⟨tail, hw, hsound, _, htail⟩ := h.exists_closed hlog addNone
      have hclosed : Script.Forward (log ++ tail) := by
        rcases htail with rfl | ⟨arg, rfl⟩
        · rwa [List.append_nil]
        · exact hforward.closing _ _ _
      rcases hw.of_assemble_error hsound hclosed hassemble with
        ⟨b, k, op, rfl⟩ | rfl
      · cases hf
        exact id
      · cases hf
  · cases he
    cases hf
    exact id

end Draft

section

variable {o : Options}

theorem not_ofGraph_of_finish {d d' : Draft} {name qualname : String} {t : ScopeTable}
    {serial line : UInt32} {nested : Bool} {steps : List Step} {log : Script} {k : Nat}
    (hd : d = .ofTable name qualname t serial line nested) (h : Emits o d steps 1 log k)
    (hclosed : Closed steps) (hw : d.Writes log d') {addNone : Bool} {filename : String}
    {e : CompileError} (he : d'.finish addNone filename = .error e) {f : Fault}
    (hf : e.fault? = some f) : ¬ f.OfGraph := by
  have hsound := h.sound hclosed hw (hd ▸ rfl)
  have hforward := h.forward hclosed (List.nodup_cons.mp hsound.fresh.nodup).2
  exact (hd ▸ hw :).not_ofGraph hsound hforward he hf

theorem Fails.not_ofGraph {d : Draft} {steps : List Step} {f : Fault} (h : Fails o d steps f) :
    ¬ f.OfGraph := by
  induction h with
  | later _ ih | run _ ih | inner _ _ _ ih => exact ih
  | @finish _ _ body _ _ _ _ _ _ _ _ _ _ _ _ _ hinner hw hfinish hfault =>
    exact not_ofGraph_of_finish rfl hinner (closed_bodySteps o _ body) hw hfinish hfault

theorem Decoded.jumpTarget_of_not_jump {e : Decoded} (h : e.opcode.isJump = false) :
    e.jumpTarget = .ok none := by
  rw [Opcode.isJump, Bool.or_eq_false_iff] at h
  simp [Decoded.jumpTarget, h]

theorem Decoded.isJump_of_jumpTarget {e : Decoded} {off : UInt32}
    (h : e.jumpTarget = .ok (some off)) : e.opcode.isJump = true := by
  by_contra hnot
  cases (jumpTarget_of_not_jump (Bool.eq_false_iff.mpr hnot)).symm.trans h

/-- The instruction does not jump, or it jumps to one of the code. -/
def Decoded.Lands (e : Decoded) (code : List Decoded) : Prop :=
  ∃ target, e.jumpTarget = .ok target ∧ ∀ off, target = some off → ∃ e' ∈ code, e'.offset = off

/-- The wordcode can be read back, it does not run off its end, and its jumps lead to
instructions. -/
def CodeObject.IsWhole (c : CodeObject) : Prop :=
  ∃ code, Wordcode.decode c.code = .ok code ∧
    (∃ e, code.getLast? = some e ∧ e.opcode.isTerminal = true) ∧
    ∀ e ∈ code, e.Lands code

theorem Script.Renders.whole {log : Script} {code : List Decoded} {pos : Nat → Nat}
    (h : log.Renders code pos) {blockCount : Nat} (hlog : log.Sound blockCount) :
    (∃ e, code.getLast? = some e ∧ e.opcode.isTerminal = true) ∧
      ∀ e ∈ code, e.Lands code := by
  refine ⟨?_, fun e he => ?_⟩
  · obtain ⟨e, he⟩ : ∃ e, code[code.length - 1]? = some e :=
      ⟨_, List.getElem?_eq_getElem (Nat.sub_lt h.start.1 Nat.zero_lt_one)⟩
    refine ⟨e, by rw [List.getLast?_eq_getElem?, he], ?_⟩
    by_contra hopen
    have hlt := (h.falls _ e he (Bool.eq_false_iff.mpr hopen)).1
    omega
  · obtain ⟨j, hj⟩ := List.getElem?_of_mem he
    obtain ⟨x, i, hx, hi, hop, _⟩ := h.item j e hj
    have hsound := hlog.instructions x (List.mem_of_getElem? hx) i hi
    cases hjump : e.opcode.isJump with
    | false => exact ⟨none, Decoded.jumpTarget_of_not_jump hjump, nofun⟩
    | true =>
      rw [hop, ← hsound.target_isSome] at hjump
      cases x with
      | jump op t =>
        obtain ⟨off, k, _, hoff, hfind, _⟩ := h.jumps j e op t hj hx
        obtain ⟨hlt, heq, _⟩ := List.findIdx?_eq_some_iff_getElem.mp hfind
        refine ⟨some off, hoff, ?_⟩
        rintro _ ⟨⟩
        exact ⟨code[k], List.getElem_mem hlt, by simpa using heq⟩
      | emit | named | load =>
        cases hi
        cases hjump
      | label | alloc | intern => cases hi

theorem isWhole_of_finish {d d' : Draft} {name qualname : String} {t : ScopeTable}
    {serial line : UInt32} {nested : Bool} {steps : List Step} {log : Script} {k : Nat}
    (hd : d = .ofTable name qualname t serial line nested) (h : Emits o d steps 1 log k)
    (hclosed : Closed steps) (hw : d.Writes log d') {addNone : Bool} {filename : String}
    {c : CodeObject} (hc : d'.finish addNone filename = .ok c) : c.IsWhole := by
  subst hd
  obtain ⟨tail, code, pos, _, hsound, _, _, hdecode, hrenders, _⟩ :=
    hw.exists_renders (h.sound hclosed hw rfl) (Draft.of_finish_ok hc)
  exact ⟨code, hdecode, hrenders.whole hsound⟩

end

/-- Assembly accepts every graph that compiling a program makes, be the program and its scope table
well-formed or not: no block falls through to one that is not laid out behind it, no jump goes to a
block without a place or backwards by a distance, no opcode gets an operand or a target that it does
not take, and every block starts where it was assigned to. In the code objects that are made, the
last instruction does not go on and all jumps lead to instructions. (Code objects that stand in the
program as constants were not made by compiling it.) -/
theorem compile_isAccepted (p : Program) (t : ScopeTable) (o : Options) :
    (∀ f scope line, compile p t o = .error (.internal f scope line) → ¬ f.OfGraph) ∧
      ∀ c c', compile p t o = .ok c → c.Yields p.Quotes c' → c'.IsWhole := by
  constructor
  · intro f scope line h hf
    have hcode : f.ofCode = true := by cases f <;> first | rfl | exact hf.elim
    rcases of_compile_error h rfl hcode with hfails | ⟨log, d, k, hemits, hw, hfinish⟩
    · exact hfails.not_ofGraph hf
    · exact not_ofGraph_of_finish rfl hemits (closed_programSteps o _ p) hw hfinish rfl hf
  · intro c c' h hc'
    obtain ⟨r, hrun, rfl⟩ := exists_hasRun h hc'
    obtain ⟨hcompletes, ⟨_, _, _, _, _, hopened⟩, _⟩ := hrun.within
    exact isWhole_of_finish hopened hcompletes.emits (r.source.closed o _) hcompletes.runs.writes
      hcompletes.finish

end Wordcode
