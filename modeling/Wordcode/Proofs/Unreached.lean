import Wordcode.Proofs.Assembly
import Wordcode.Proofs.StackDepth

/-!
# What cannot be reached

A graph may be extended by blocks that its own blocks do not lead to: a closed block may be linked
to them, but control does not fall out of a closed block. The same blocks are reachable then, they
are as deep as before, and they are written as before, whatever numbers the other blocks have.
-/

set_option autoImplicit false

namespace Wordcode

/-- Where control goes behind the last instruction of a block. -/
def Block.exit? (b : Block) : Option BlockId := if b.terminal then none else b.next

/-- The graph `g'` has the blocks of `g` and more, and the blocks of `g` do not lead to those. -/
structure Graph.Extends (g g' : Graph) : Prop where
  size_le : g.size ≤ g'.size
  instructions : ∀ b < g.size, (g'.block b).instructions = (g.block b).instructions
  exit : ∀ b < g.size, (g'.block b).exit? = (g.block b).exit?

theorem Block.successors_eq (b : Block) :
    b.successors = b.instructions.toList.filterMap Instruction.target ++ b.exit?.toList := by
  unfold Block.successors Block.exit?
  split <;> rfl

namespace Graph.Extends

variable {g g' : Graph} {entry b : BlockId}

theorem refl (g : Graph) : g.Extends g := ⟨Nat.le_refl _, fun _ _ => rfl, fun _ _ => rfl⟩

theorem successors_eq (h : g.Extends g') (hb : b < g.size) :
    (g'.block b).successors = (g.block b).successors := by
  rw [Block.successors_eq, Block.successors_eq, h.instructions b hb, h.exit b hb]

/-- The blocks that control may get to are the same. -/
theorem reaches_iff (h : g.Extends g') (hg : g.Sound) (hentry : entry < g.size) :
    g'.Reaches entry b ↔ g.Reaches entry b := by
  constructor
  · intro hb
    have hstep {c d : BlockId} (hc : g.Reaches entry c) (hd : d ∈ (g'.block c).successors) :
        g.Reaches entry d :=
      hc.successor (h.successors_eq (hc.lt hg hentry) ▸ hd)
    induction hb with
    | entry => exact .entry
    | jump _ hi ht ih => exact hstep ih (Block.mem_successors.mpr (.inl ⟨_, hi, ht⟩))
    | next _ hopen hn ih => exact hstep ih (Block.mem_successors.mpr (.inr ⟨hopen, hn⟩))
  · intro hb
    have hstep {c d : BlockId} (hc : g.Reaches entry c) (hc' : g'.Reaches entry c)
        (hd : d ∈ (g.block c).successors) : g'.Reaches entry d :=
      hc'.successor (h.successors_eq (hc.lt hg hentry) ▸ hd)
    induction hb with
    | entry => exact .entry
    | jump hc hi ht ih => exact hstep hc ih (Block.mem_successors.mpr (.inl ⟨_, hi, ht⟩))
    | next hc hopen hn ih => exact hstep hc ih (Block.mem_successors.mpr (.inr ⟨hopen, hn⟩))

theorem marked_iff (h : g.Extends g') (hg : g.Sound) (hg' : g'.Sound) (hentry : entry < g.size) :
    Marked (reachable g' entry) b ↔ Marked (reachable g entry) b := by
  rw [marked_reachable_iff hg' (Nat.lt_of_lt_of_le hentry h.size_le), h.reaches_iff hg hentry,
    marked_reachable_iff hg hentry]

end Graph.Extends

namespace StackDepth.State

/-- Two walks that are at the same point and have found the same of the first `n` blocks, all
blocks still to walk being among these. -/
structure Agrees (n : Nat) (s s' : State) : Prop where
  found : ∀ b < n, s'.found[b]? = s.found[b]?
  pending : s'.pending = s.pending
  deepest : s'.deepest = s.deepest
  lt : ∀ p ∈ s.pending, p.1 < n

variable {n : Nat} {s s' t : State}

theorem Agrees.discover (h : Agrees n s s') {b : BlockId} (hb : b < n) (x : Int32) :
    Agrees n (s.discover b x) (s'.discover b x) := by
  unfold State.discover
  simp only [h.found b hb]
  split
  · next hfree =>
    have hsize : b < s.found.size := (Array.getElem?_eq_some_iff.mp hfree).1
    have hsize' : b < s'.found.size := (Array.getElem?_eq_some_iff.mp ((h.found b hb).trans hfree)).1
    refine ⟨fun c hc => ?_, congrArg ((b, x) :: ·) h.pending, h.deepest, fun p hp => ?_⟩
    · simp only [Array.getElem?_setIfInBounds, hsize, hsize', h.found c hc]
    · rcases List.mem_cons.mp hp with rfl | hp
      · exact hb
      · exact h.lt p hp
  · exact h

theorem Agrees.reach (h : Agrees n s s') {b : BlockId} {index : Nat} {op : Opcode} {x : Int32}
    (hs : s.reach b index op x = .ok t) :
    ∃ t', s'.reach b index op x = .ok t' ∧ Agrees n t t' := by
  obtain ⟨hx, rfl⟩ := of_reach_ok hs
  refine ⟨{ s' with deepest := max s'.deepest x }, ?_, h.found, h.pending, ?_, h.lt⟩
  · rw [State.reach, if_neg (Int32.not_lt.mpr hx)]
  · exact congrArg (max · x) h.deepest

theorem Agrees.branch (h : Agrees n s s') {b : BlockId} {index : Nat} {i : Instruction} {w : Int32}
    (hi : ∀ c, i.target = some c → c < n) (hs : s.branch b index i w = .ok t) :
    ∃ t', s'.branch b index i w = .ok t' ∧ Agrees n t t' := by
  unfold State.branch at hs ⊢
  cases htarget : i.target with
  | none =>
    rw [htarget] at hs
    cases hs
    exact ⟨s', rfl, h⟩
  | some c =>
    simp only [htarget] at hs ⊢
    obtain ⟨there, hmoved, hs⟩ := of_bind_eq_ok hs
    obtain ⟨s₁, hr, hs⟩ := of_bind_eq_ok hs
    obtain ⟨s₁', hr', hagree⟩ := h.reach hr
    refine ⟨s₁'.discover c there, ?_, Except.ok.inj hs ▸ hagree.discover (hi c htarget) there⟩
    simp only [bind, Except.bind, hmoved, hr', pure, Except.pure]

theorem Agrees.walk {b : BlockId} {index : Nat} {w w' : Int32} {is : List Instruction}
    (h : Agrees n s s') (his : ∀ c ∈ is.filterMap Instruction.target, c < n)
    (hs : walk b index w s is = .ok (w', t)) :
    ∃ t', State.walk b index w s' is = .ok (w', t') ∧ Agrees n t t' := by
  induction is generalizing index w s s' with
  | nil =>
    cases hs
    exact ⟨s', rfl, h⟩
  | cons i rest ih =>
    rw [State.walk] at hs ⊢
    obtain ⟨s₁, hb, hs⟩ := of_bind_eq_ok hs
    obtain ⟨v, hmoved, hs⟩ := of_bind_eq_ok hs
    obtain ⟨s₂, hr, hs⟩ := of_bind_eq_ok hs
    have htarget (c : BlockId) (hc : i.target = some c) : c < n :=
      his c (List.mem_filterMap.mpr ⟨i, List.mem_cons_self, hc⟩)
    obtain ⟨s₁', hb', hagree₁⟩ := h.branch htarget hb
    obtain ⟨s₂', hr', hagree₂⟩ := hagree₁.reach hr
    have hrest (c : BlockId) (hc : c ∈ rest.filterMap Instruction.target) : c < n := by
      obtain ⟨j, hj, hjc⟩ := List.mem_filterMap.mp hc
      exact his c (List.mem_filterMap.mpr ⟨j, List.mem_cons_of_mem i hj, hjc⟩)
    obtain ⟨t', hwalk, hagree⟩ := ih hagree₂ hrest hs
    exact ⟨t', by simp only [bind, Except.bind, hb', hmoved, hr', hwalk], hagree⟩

theorem fallThrough_eq (s : State) (blk : Block) (x : Int32) :
    s.fallThrough blk x = blk.exit?.elim s (s.discover · x) := by
  unfold fallThrough Block.exit?
  split <;> simp_all

theorem Agrees.fallThrough (h : Agrees n s s') {blk blk' : Block} (hexit : blk'.exit? = blk.exit?)
    (hlt : ∀ c ∈ blk.exit?, c < n) (x : Int32) :
    Agrees n (s.fallThrough blk x) (s'.fallThrough blk' x) := by
  rw [fallThrough_eq, fallThrough_eq, hexit]
  cases hn : blk.exit? with
  | none => exact h
  | some c => exact h.discover (hlt c hn) x

theorem run_done (g : Graph) (rounds : Nat) (h : s.pending = []) :
    State.run g rounds s = .ok s := by
  cases rounds with
  | zero => rfl
  | succ rounds => simp only [State.run, h]

/-- A walk that comes to its end in the smaller graph does so in the larger one. -/
theorem Agrees.run {g g' : Graph} (hext : g.Extends g') (hg : g.Sound) {rounds rounds' : Nat}
    (h : Agrees g.size s s') (htodo : s.search.todo ≤ rounds) (htodo' : s'.search.todo ≤ rounds')
    (hrun : State.run g rounds s = .ok t) :
    ∃ t', State.run g' rounds' s' = .ok t' ∧ t'.deepest = t.deepest := by
  induction rounds generalizing rounds' s s' with
  | zero =>
    have hpending : s.pending = [] := by
      refine List.length_eq_zero_iff.mp ?_
      simp only [Search.todo, State.search, List.length_map] at htodo
      omega
    cases hrun
    exact ⟨s', run_done g' rounds' (h.pending.trans hpending), h.deepest⟩
  | succ rounds ih =>
    obtain ⟨found, pending, deepest⟩ := s
    obtain ⟨found', pending', deepest'⟩ := s'
    obtain rfl : pending' = pending := h.pending
    cases pending' with
    | nil =>
      cases hrun
      exact ⟨_, run_done g' rounds' rfl, h.deepest⟩
    | cons p rest =>
      obtain ⟨b, x⟩ := p
      have hb : b < g.size := h.lt (b, x) List.mem_cons_self
      obtain ⟨rounds', rfl⟩ : ∃ k, rounds' = k + 1 :=
        Nat.exists_eq_add_one_of_ne_zero (by
          rintro rfl
          simp [Search.todo, State.search] at htodo')
      rw [run_cons] at hrun ⊢
      rw [hext.instructions b hb]
      have hrest : Agrees g.size ⟨found, rest, deepest⟩ ⟨found', rest, deepest'⟩ :=
        ⟨h.found, rfl, h.deepest, fun p hp => h.lt p (List.mem_cons_of_mem _ hp)⟩
      have hsuccessors {c : BlockId} (hc : c ∈ (g.block b).successors) : c < g.size :=
        hg.inside b c hc
      rw [Block.successors_eq] at hsuccessors
      cases hwalk : State.walk b 0 x ⟨found, rest, deepest⟩ (g.block b).instructions.toList with
      | error e =>
        rw [hwalk] at hrun
        cases hrun
      | ok r =>
        obtain ⟨x', t₁⟩ := r
        rw [hwalk] at hrun
        obtain ⟨t₁', hwalk', hagree⟩ := hrest.walk (fun c hc => hsuccessors (by simp [hc])) hwalk
        have hfall := hagree.fallThrough (hext.exit b hb)
          (fun c hc => hsuccessors (by simp [Option.mem_def.mp hc])) x'
        have hround := todo_round (g.block b) hwalk
        have hround' := todo_round (g'.block b) hwalk'
        rw [hwalk']
        have hleft : (t₁.fallThrough (g.block b) x').search.todo ≤ rounds := by omega
        have hleft' : (t₁'.fallThrough (g'.block b) x').search.todo ≤ rounds' := by omega
        exact ih hfall hleft hleft' hrun

end StackDepth.State

theorem Graph.Extends.maxStackDepth_eq {g g' : Graph} (h : g.Extends g') (hg : g.Sound)
    {entry : BlockId} (hentry : entry < g.size) {m : UInt32}
    (hm : maxStackDepth g entry = .ok m) : maxStackDepth g' entry = .ok m := by
  have htodo (n : Nat) := StackDepth.State.todo_start n entry
  have hstart : StackDepth.State.Agrees g.size (.start g.size entry) (.start g'.size entry) := by
    have hempty : StackDepth.State.Agrees g.size ⟨Array.replicate g.size false, [], 0⟩
        ⟨Array.replicate g'.size false, [], 0⟩ := by
      refine ⟨fun b hb => ?_, rfl, rfl, by simp⟩
      rw [Array.getElem?_replicate, Array.getElem?_replicate, if_pos hb,
        if_pos (Nat.lt_of_lt_of_le hb h.size_le)]
    exact hempty.discover hentry 0
  unfold maxStackDepth at hm ⊢
  cases hrun : StackDepth.State.run g g.size (.start g.size entry) with
  | error e =>
    rw [hrun] at hm
    cases hm
  | ok t =>
    obtain ⟨t', hrun', hdeepest⟩ := hstart.run h hg (htodo g.size) (htodo g'.size) hrun
    rw [hrun] at hm
    rw [hrun', ← hm]
    exact congrArg (fun x : Int32 => Except.ok x.toUInt32) hdeepest

namespace Sizing

variable {offs offs' : Offsets}

/-- Offsets are looked up, and nothing else is asked of them. -/
theorem resolve_congr (h : ∀ b, offs'.getD b none = offs.getD b none) (i : Instruction)
    (stop : Nat) : resolve offs' i stop = resolve offs i stop := by
  unfold resolve operand
  simp only [h]

theorem resolveBody_congr (h : ∀ b, offs'.getD b none = offs.getD b none)
    (out : Array Instruction) (pos : Nat) (body : List Instruction) :
    resolveBody offs' out pos body = resolveBody offs out pos body := by
  induction body generalizing out pos with
  | nil => rfl
  | cons i rest ih => simp only [resolveBody, resolve_congr h, ih]

theorem resolveCode_congr (h : ∀ b, offs'.getD b none = offs.getD b none) (out : Array Placed)
    (code : List Placed) : resolveCode offs' out code = resolveCode offs out code := by
  induction code generalizing out with
  | nil => rfl
  | cons p rest ih => simp only [resolveCode, h, resolveBody_congr h, ih]

/-- How many blocks have no place makes no difference to those that have one. -/
theorem getD_offsets_of_le {m n : Nat} (hmn : m ≤ n) {code : List Placed}
    (hlt : ∀ p ∈ code, p.id < m) (b : BlockId) :
    (offsets n code).getD b none = (offsets m code).getD b none := by
  have hempty (k : Nat) : (Array.replicate k (none : Option Nat)).getD b none = none := by
    rw [Array.getD_eq_getD_getElem?, Array.getElem?_replicate]
    split <;> rfl
  have hfold (start : Nat × Offsets) (start' : Nat × Offsets) (htotal : start'.1 = start.1)
      (hsize : m ≤ start.2.size) (hsize' : m ≤ start'.2.size)
      (hsame : start'.2.getD b none = start.2.getD b none) :
      (code.foldl assign start').2.getD b none = (code.foldl assign start).2.getD b none := by
    induction code generalizing start start' with
    | nil => exact hsame
    | cons p rest ih =>
      have hp : p.id < m := hlt p List.mem_cons_self
      refine ih (fun q hq => hlt q (List.mem_cons_of_mem p hq)) _ _ ?_ ?_ ?_ ?_
      · simp only [assign, htotal]
      · simpa [assign] using hsize
      · simpa [assign] using hsize'
      · simp only [assign, Array.getD_eq_getD_getElem?, Array.getElem?_setIfInBounds] at hsame ⊢
        split
        · next heq =>
          subst heq
          rw [if_pos (Nat.lt_of_lt_of_le hp hsize'), if_pos (Nat.lt_of_lt_of_le hp hsize), htotal]
        · exact hsame
  exact hfold _ _ rfl (by simp) (by simpa using hmn) ((hempty n).trans (hempty m).symm)

theorem pass_eq_of_le {m n : Nat} (hmn : m ≤ n) {code : List Placed}
    (hlt : ∀ p ∈ code, p.id < m) : pass n code = pass m code := by
  simp only [pass, resolveCode_congr (getD_offsets_of_le hmn hlt)]

theorem settle_eq (n : Nat) (code : List Placed) : settle n code =
    match pass n code with
    | .error e => .error e
    | .ok code' =>
      if codeSize code < codeSize code' then settle n code' else .ok (offsets n code, code') := by
  rw [settle]
  split <;> simp_all

theorem settle_eq_of_le {m n : Nat} (hmn : m ≤ n) {code : List Placed}
    (hlt : ∀ p ∈ code, p.id < m) :
    (settle n code).map Prod.snd = (settle m code).map Prod.snd := by
  induction code using settle.induct m with
  | case1 code e hpass =>
    rw [settle_eq n, settle_eq m, pass_eq_of_le hmn hlt, hpass]
  | case2 code code' hpass hgrows ih =>
    have halike := (resolvedCode_of_pass hpass).rewritten
    rw [settle_eq n, settle_eq m, pass_eq_of_le hmn hlt, hpass]
    simp only [if_pos hgrows]
    exact ih (halike.id_lt hlt)
  | case3 code code' hpass hstays =>
    rw [settle_eq n, settle_eq m, pass_eq_of_le hmn hlt, hpass]
    simp only [if_neg hstays]
    rfl

end Sizing

namespace Draft

variable {d d' : Draft}

theorem startLine_eq_of_extends (hext : Graph.Extends d.blocks d'.blocks)
    (hentry : entry < d.blocks.size) (hfirst : d'.firstLine = d.firstLine) :
    d'.startLine = d.startLine := by
  have hblock : (d'.block entry).instructions = (d.block entry).instructions :=
    hext.instructions entry hentry
  simp only [startLine, hfirst, hblock]

theorem placedBlocks_eq_of_extends (hext : Graph.Extends d.blocks d'.blocks)
    {order : List BlockId} (hlt : ∀ b ∈ order, b < d.blocks.size) :
    d'.placedBlocks order = d.placedBlocks order := by
  refine List.map_congr_left fun b hb => ?_
  have hblock : (d'.block b).instructions = (d.block b).instructions :=
    hext.instructions b (hlt b hb)
  rw [hblock]

theorem firstLine_of_assemble {a : Bool} {filename : String} {c : CodeObject}
    (h : d.assemble a filename = .ok c) : c.firstLine = (d.close a).startLine := by
  unfold Draft.assemble at h
  simp only [bind, Except.bind, pure, Except.pure] at h
  repeat
    split at h
    · cases h
  cases h
  rfl

/-- A draft with a larger graph is assembled to the same code if the blocks laid out are the same. -/
theorem assemble_eq_of_extends {a : Bool} {filename : String} {c c' : CodeObject}
    (hext : Graph.Extends (d.close a).blocks (d'.close a).blocks) (hsound : (d.close a).Sound)
    (hfirst : (d'.close a).firstLine = (d.close a).firstLine)
    (hlayout : layout (d'.close a).blocks (reachable (d'.close a).blocks entry) entry =
      layout (d.close a).blocks (reachable (d.close a).blocks entry) entry)
    (hc : d.assemble a filename = .ok c) (hc' : d'.assemble a filename = .ok c') :
    c'.code = c.code ∧ c'.lines = c.lines ∧ c'.stackSize = c.stackSize ∧
      c'.firstLine = c.firstLine := by
  obtain ⟨order, offs, code, out, depth, horder, _, hsettle, hdepth, hwrite, hcode, hstack, _, _, _,
    _, _, hlines⟩ := assemble_eq_ok hc
  obtain ⟨order', offs', code', out', depth', horder', _, hsettle', hdepth', hwrite', hcode',
    hstack', _, _, _, _, _, hlines'⟩ := assemble_eq_ok hc'
  have hentry : entry < (d.close a).blocks.size :=
    Nat.lt_of_le_of_lt (Nat.zero_le _) hsound.current_lt
  obtain rfl : order' = order := horder'.trans (hlayout.trans horder.symm)
  have hlt (b : BlockId) (hb : b ∈ order') : b < (d.close a).blocks.size :=
    (mem_layout_iff.mp (horder ▸ hb)).1
  have hstart := startLine_eq_of_extends hext hentry hfirst
  obtain rfl : depth' = depth :=
    Except.ok.inj (hdepth'.symm.trans (hext.maxStackDepth_eq hsound.graph hentry hdepth))
  obtain rfl : code' = code := by
    have hids (p : Placed) (hp : p ∈ (d.close a).placedBlocks order') :
        p.id < (d.close a).blocks.size := by
      obtain ⟨b, hb, rfl⟩ := List.mem_map.mp hp
      exact hlt b hb
    have hsame := Sizing.settle_eq_of_le hext.size_le hids
    rw [placedBlocks_eq_of_extends hext hlt] at hsettle'
    rw [hsettle, hsettle'] at hsame
    exact Except.ok.inj hsame
  obtain rfl : out' = out := by
    rw [Assembly.Output.eq_foldl_of_writeBlocks hwrite, ← hstart]
    exact Assembly.Output.eq_foldl_of_writeBlocks hwrite'
  exact ⟨hcode'.trans hcode.symm, hlines'.trans hlines.symm, hstack'.trans hstack.symm,
    (firstLine_of_assemble hc').trans (hstart.trans (firstLine_of_assemble hc).symm)⟩

end Draft

end Wordcode
