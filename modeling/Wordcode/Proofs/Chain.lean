import Mathlib.Data.List.Perm.Subperm
import Wordcode.Proofs.Layout
import Wordcode.Proofs.Rendering

/-!
# The order of a script

Each label of a script is what the block before it is linked to, so all blocks of a draft hang on
one chain, in the order of the labels. Blocks are laid out along this chain: the code of a scope
keeps the order in which it was written, less the blocks that cannot be reached.
-/

set_option autoImplicit false

namespace Wordcode

/-- The blocks that are linked one to the next, from a first one up to the end. -/
inductive Graph.Path (g : Graph) : Option BlockId → List BlockId → Prop where
  | nil : Path g none []
  | cons {b : BlockId} {bs : List BlockId} : Path g (g.block b).next bs → Path g (some b) (b :: bs)

namespace Graph.Path

variable {g g' : Graph} {start : Option BlockId} {bs : List BlockId}

theorem congr (h : Path g start bs) (hnext : ∀ b, (g'.block b).next = (g.block b).next) :
    Path g' start bs := by
  induction h with
  | nil => exact .nil
  | @cons b bs _ ih => exact .cons ((hnext b).symm ▸ ih)

/-- Linking the last block of a path to a new one makes the path longer. -/
theorem concat (h : Path g start bs) {c b : BlockId} (hlast : bs.getLast? = some c)
    (hnodup : (bs ++ [b]).Nodup) (hlink : (g'.block c).next = some b)
    (hend : (g'.block b).next = none)
    (hold : ∀ a, a ≠ c → a ≠ b → (g'.block a).next = (g.block a).next) :
    Path g' start (bs ++ [b]) := by
  induction h with
  | nil => cases hlast
  | @cons a bs hrest ih =>
    rw [List.cons_append, List.nodup_cons] at hnodup
    refine .cons ?_
    cases hrest' : bs with
    | nil =>
      subst hrest'
      obtain rfl : a = c := Option.some.inj hlast
      rw [hlink]
      exact .cons (hend ▸ .nil)
    | cons b' bs' =>
      subst hrest'
      rw [List.getLast?_cons_cons] at hlast
      have hmem := List.mem_of_getLast? hlast
      have hne : a ≠ c := fun h => hnodup.1 (List.mem_append_left _ (h ▸ hmem))
      have hnew : a ≠ b := fun h => hnodup.1 (List.mem_append_right _ (by simp [h]))
      rw [hold a hne hnew]
      exact ih hlast hnodup.2

end Graph.Path

namespace Placement

/-- Placing a path on which nothing has a place yet. -/
theorem chain_path {g : Graph} (live : Array Bool) {start : Option BlockId} {bs : List BlockId}
    (h : g.Path start bs) (hnodup : bs.Nodup) {steps : Nat} (hsteps : bs.length ≤ steps)
    {p : Placement} (hfree : ∀ b ∈ bs, p.placed[b]? = some false) :
    (chain g live steps p start).order.toList =
        p.order.toList ++ bs.filter (live.getD · false) ∧
      (∀ b, Marked p.placed b → Marked (chain g live steps p start).placed b) ∧
      ∀ b ∈ bs, Marked (chain g live steps p start).placed b := by
  induction h generalizing steps p with
  | nil => simp [chain_none]
  | @cons b bs _ ih =>
    obtain ⟨steps, rfl⟩ : ∃ k, steps = k + 1 := ⟨steps - 1, by simp at hsteps; omega⟩
    rw [List.nodup_cons] at hnodup
    have hb := hfree b List.mem_cons_self
    have hlt : b < p.placed.size := (Array.getElem?_eq_some_iff.mp hb).1
    have hrest (c : BlockId) (hc : c ∈ bs) : (p.pass live b).placed[c]? = some false := by
      rw [Placement.pass, Array.getElem?_setIfInBounds, if_neg (by rintro rfl; exact hnodup.1 hc)]
      exact hfree c (List.mem_cons_of_mem _ hc)
    obtain ⟨horder, hmarked, hall⟩ := ih hnodup.2 (Nat.le_of_succ_le_succ hsteps) hrest
    rw [chain_succ, if_pos hb]
    have hpass (c : BlockId) := marked_set hlt c
    refine ⟨?_, fun c hc => hmarked c ((hpass c).mpr (.inl hc)), fun c hc => ?_⟩
    · rw [horder, List.filter_cons, Placement.pass]
      split <;> simp
    · rcases List.mem_cons.mp hc with rfl | hc
      · exact hmarked c ((hpass c).mpr (.inr rfl))
      · exact hall c hc

theorem foldl_leftover_of_placed {g : Graph} {live : Array Bool} {p : Placement}
    (h : ∀ b, Marked live b → Marked p.placed b) (bs : List BlockId) :
    bs.foldl (leftover g live) p = p := by
  induction bs with
  | nil => rfl
  | cons b bs ih =>
    have hskip : leftover g live p b = p := by
      rw [leftover_eq, if_neg]
      intro hcond
      rw [Bool.and_eq_true] at hcond
      have hplaced := h b (marked_iff_getD.mpr hcond.1)
      have hget : p.placed.getD b true = true := by
        rw [Array.getD_eq_getD_getElem?, show p.placed[b]? = some true from hplaced]
        rfl
      rw [hget] at hcond
      cases hcond.2
    rw [List.foldl_cons, hskip, ih]

end Placement

/-- Where all that is live lies on the path from the entry, the order is that of the path. -/
theorem layout_path {g : Graph} (live : Array Bool) {entry : BlockId} {bs : List BlockId}
    (h : g.Path (some entry) bs) (hnodup : bs.Nodup) (hlt : ∀ b ∈ bs, b < g.size)
    (hlive : ∀ b, Marked live b → b ∈ bs) :
    layout g live entry = bs.filter (live.getD · false) := by
  have hlength : bs.length ≤ g.size := by
    have hsub : bs ⊆ List.range g.size := fun b hb => List.mem_range.mpr (hlt b hb)
    simpa using (List.subperm_of_subset hnodup hsub).length_le
  obtain ⟨horder, _, hall⟩ := Placement.chain_path live h hnodup hlength
    (p := ⟨Array.replicate g.size false, #[]⟩)
    (fun b hb => by simp [hlt b hb])
  unfold layout
  simp only
  rw [Placement.foldl_leftover_of_placed fun b hb => hall b (hlive b hb), horder]
  rfl

/-- Such an order passes the check if what is live leads to nothing else. -/
theorem checkLayout_path {g : Graph} {live : Array Bool} {start : Option BlockId}
    {bs : List BlockId} (h : g.Path start bs)
    (hlive : ∀ b n, Marked live b → (g.block b).terminal = false → (g.block b).next = some n →
      Marked live n) :
    checkLayout g (bs.filter (live.getD · false)) = .ok () := by
  induction h with
  | nil => rfl
  | @cons b bs hrest ih =>
    rw [List.filter_cons]
    split
    · next hb =>
      simp only [checkLayout, show g.getD b {} = g.block b from rfl]
      split
      · exact ih
      · next n hn =>
        split at hn
        · cases hn
        · next hopen =>
          have hmarked := hlive b n (marked_iff_getD.mpr hb) (Bool.eq_false_iff.mpr hopen) hn
          -- the block fallen into is the next on the path, and it is live
          rw [hn] at hrest
          cases hrest with
          | @cons _ bs _ =>
            rw [List.filter_cons, if_pos (marked_iff_getD.mp hmarked), List.head?_cons, if_pos rfl]
            rwa [List.filter_cons, if_pos (marked_iff_getD.mp hmarked)] at ih
    · exact ih

namespace Draft

/-- The labels of a script are linked one to the next, and nothing comes behind the last. -/
theorem Writes.path {name qualname : String} {t : ScopeTable} {serial firstLine : UInt32}
    {nested : Bool} {log : Script} {d : Draft}
    (h : (ofTable name qualname t serial firstLine nested).Writes log d) (hlog : log.Fresh) :
    Graph.Path d.blocks (some entry) (entry :: log.labels) ∧
      (entry :: log.labels).getLast? = some d.current := by
  induction h with
  | nil => exact ⟨.cons .nil, rfl⟩
  | quiet _ _ hblocks hcurrent _ _ ih =>
    rw [hblocks, hcurrent]
    exact ih hlog
  | @alloc log d₁ _ ih =>
    obtain ⟨hpath, hlast⟩ := ih hlog.of_concat
    rw [Script.labels_append, show Script.labels [Item.alloc] = [] from rfl, List.append_nil]
    exact ⟨hpath.congr fun b => congrArg Block.next (block_newBlock d₁ b), hlast⟩
  | @label log d₁ b hw ih =>
    obtain ⟨hpath, hlast⟩ := ih hlog.of_concat
    have htraces := hw.traces hlog.of_concat
    have hnodup := hlog.nodup
    rw [Script.labels_append, show Script.labels [Item.label b] = [b] from rfl,
      ← List.cons_append] at hnodup ⊢
    have hnew : b ∉ entry :: log.labels := fun hb =>
      (List.nodup_append.mp hnodup).2.2 b hb b List.mem_cons_self rfl
    have hne : b ≠ d₁.current := fun h => hnew (h ▸ htraces.current_mem)
    have hblock := block_fallInto htraces.current_lt b
    refine ⟨hpath.concat hlast hnodup ?_ ?_ fun a ha _ => ?_,
      List.getLast?_concat⟩
    · exact congrArg Block.next ((hblock d₁.current).trans (if_pos rfl))
    · have hempty := (hblock b).trans (if_neg hne)
      rw [htraces.untouched b hnew] at hempty
      exact congrArg Block.next hempty
    · exact congrArg Block.next ((hblock a).trans (if_neg ha))
  | @code log d₁ item i hw hi _ ih =>
    obtain ⟨hpath, hlast⟩ := ih hlog.of_concat
    have hlabels : Script.labels (log ++ [item]) = log.labels := by
      simp [Script.labels, Item.label?_of_instruction hi]
    rw [hlabels]
    by_cases hterm : d₁.currentBlock.terminal = true
    · rw [show d₁.append i = d₁ by simp [Draft.append, hterm]]
      exact ⟨hpath, hlast⟩
    · have hopen := Bool.eq_false_iff.mpr hterm
      have hcurrent : (d₁.append i).current = d₁.current := by simp [Draft.append, hopen]
      obtain ⟨line, hblock⟩ := block_append (hw.traces hlog.of_concat).current_lt hopen i
      refine ⟨hpath.congr fun b => ?_, hcurrent ▸ hlast⟩
      refine (congrArg Block.next (hblock b)).trans ?_
      split
      · next hb =>
        rw [hb]
        rfl
      · rfl
  | intern c _ ih =>
    rw [Script.labels_append, show Script.labels [Item.intern c] = [] from rfl, List.append_nil]
    exact ih hlog.of_concat

/-- The blocks of a draft are laid out in the order of its script. -/
theorem Writes.layout_eq {name qualname : String} {t : ScopeTable} {serial firstLine : UInt32}
    {nested : Bool} {log : Script} {d : Draft}
    (h : (ofTable name qualname t serial firstLine nested).Writes log d)
    (hlog : log.Sound d.blocks.size) :
    layout d.blocks (reachable d.blocks entry) entry =
        (entry :: log.labels).filter ((reachable d.blocks entry).getD · false) ∧
      checkLayout d.blocks (layout d.blocks (reachable d.blocks entry) entry) = .ok () := by
  have hsound := h.sound hlog
  have htraces := h.traces hlog.fresh
  have hentry : entry < d.blocks.size := Nat.lt_of_le_of_lt (Nat.zero_le _) hsound.current_lt
  have hmarked (b : BlockId) := marked_reachable_iff hsound.graph hentry b
  have hpath := (h.path hlog.fresh).1
  have heq := layout_path (reachable d.blocks entry) hpath hlog.fresh.nodup
    (fun b hb => by
      rcases List.mem_cons.mp hb with rfl | hb
      · exact hentry
      · exact hlog.labels_lt b hb)
    fun b hb => htraces.mem_of_reaches hlog.targets_subset ((hmarked b).mp hb)
  refine ⟨heq, heq ▸ checkLayout_path hpath fun b n hb hopen hn => ?_⟩
  exact (hmarked n).mpr (.next ((hmarked b).mp hb) hopen hn)

end Draft
end Wordcode
