import Wordcode.Assembly.Layout
import Wordcode.Proofs.Reachability

/-!
# Every reachable block has one place

Chains are placed up to the first block that has a place, so no block is placed twice; whatever
the first chain leaves out is placed by a later one. The check behind it says that a block that
falls through stands right before the block it falls into.
-/

set_option autoImplicit false

namespace Wordcode

theorem marked_iff_getD {found : Array Bool} {b : BlockId} :
    Marked found b ↔ found.getD b false = true := by
  rw [Marked, Array.getD_eq_getD_getElem?]
  cases found[b]? <;> simp

namespace Placement

/-- A block is in the order if it was passed and can be reached, and is there once. -/
structure Progress (g : Graph) (live : Array Bool) (p : Placement) : Prop where
  size_eq : p.placed.size = g.size
  nodup : p.order.toList.Nodup
  mem_iff : ∀ b, b ∈ p.order.toList ↔ Marked p.placed b ∧ Marked live b

/-- Placing goes on behind what is there. -/
structure Extends (p q : Placement) : Prop where
  order : p.order.toList <+: q.order.toList
  placed : ∀ b, Marked p.placed b → Marked q.placed b

theorem Extends.refl (p : Placement) : Extends p p := ⟨List.prefix_rfl, fun _ => id⟩

theorem Extends.trans {p q r : Placement} (hpq : Extends p q) (hqr : Extends q r) : Extends p r :=
  ⟨hpq.order.trans hqr.order, fun b hb => hqr.placed b (hpq.placed b hb)⟩

/-- Passing one block. -/
def pass (live : Array Bool) (p : Placement) (b : BlockId) : Placement :=
  ⟨p.placed.setIfInBounds b true, if live.getD b false then p.order.push b else p.order⟩

theorem chain_succ (g : Graph) (live : Array Bool) (steps : Nat) (p : Placement) (b : BlockId) :
    chain g live (steps + 1) p (some b) =
      if p.placed[b]? = some false then
        chain g live steps (p.pass live b) (g.block b).next
      else p := rfl

theorem chain_none (g : Graph) (live : Array Bool) (steps : Nat) (p : Placement) :
    chain g live steps p none = p := by
  cases steps <;> rfl

theorem Progress.pass {g : Graph} {live : Array Bool} {p : Placement} (h : Progress g live p)
    {b : BlockId} (hb : p.placed[b]? = some false) : Progress g live (p.pass live b) := by
  have hlt : b < p.placed.size := (Array.getElem?_eq_some_iff.mp hb).1
  have hnot : b ∉ p.order.toList := by
    intro hmem
    exact (not_marked_iff hlt).mpr hb ((h.mem_iff b).mp hmem).1
  refine ⟨by simp [Placement.pass, h.size_eq], ?_, ?_⟩
  · simp only [Placement.pass]
    split
    · rw [Array.toList_push, List.nodup_append]
      exact ⟨h.nodup, by simp, fun a ha c hc => by
        rw [List.mem_singleton.mp hc]
        exact fun hac => hnot (hac ▸ ha)⟩
    · exact h.nodup
  · intro c
    have hmem := h.mem_iff c
    simp only [Placement.pass]
    rw [marked_set hlt]
    split
    · next hlive =>
      rw [Array.toList_push, List.mem_append, List.mem_singleton, hmem]
      constructor
      · rintro (⟨hc, hl⟩ | rfl)
        · exact ⟨Or.inl hc, hl⟩
        · exact ⟨Or.inr rfl, marked_iff_getD.mpr hlive⟩
      · rintro ⟨hc | rfl, hl⟩
        · exact Or.inl ⟨hc, hl⟩
        · exact Or.inr rfl
    · next hlive =>
      rw [hmem]
      constructor
      · rintro ⟨hc, hl⟩
        exact ⟨Or.inl hc, hl⟩
      · rintro ⟨hc | rfl, hl⟩
        · exact ⟨hc, hl⟩
        · exact absurd (marked_iff_getD.mp hl) hlive

theorem extends_pass (live : Array Bool) {p : Placement} {b : BlockId} (hb : b < p.placed.size) :
    Extends p (p.pass live b) := by
  refine ⟨?_, fun c hc => (marked_set hb c).mpr (Or.inl hc)⟩
  simp only [Placement.pass]
  split
  · rw [Array.toList_push]
    exact List.prefix_append _ _
  · exact List.prefix_rfl

theorem Progress.chain {g : Graph} {live : Array Bool} (steps : Nat) {p : Placement}
    (h : Progress g live p) (start : Option BlockId) :
    Progress g live (chain g live steps p start) ∧
      Extends p (Placement.chain g live steps p start) := by
  induction steps generalizing p start with
  | zero => exact ⟨h, .refl p⟩
  | succ steps ih =>
    cases start with
    | none => exact ⟨h, .refl p⟩
    | some b =>
      rw [chain_succ]
      split
      · next hb =>
        obtain ⟨hprog, hext⟩ := ih (h.pass hb) (g.block b).next
        exact ⟨hprog, (extends_pass live (Array.getElem?_eq_some_iff.mp hb).1).trans hext⟩
      · exact ⟨h, .refl p⟩

/-- The block that a chain starts from has a place afterwards. -/
theorem Progress.marked_chain {g : Graph} {live : Array Bool} {steps : Nat} {p : Placement}
    (h : Progress g live p) (hsteps : 0 < steps) {b : BlockId} (hb : b < g.size) :
    Marked (Placement.chain g live steps p (some b)).placed b := by
  have hlt : b < p.placed.size := h.size_eq ▸ hb
  obtain ⟨steps, rfl⟩ : ∃ k, steps = k + 1 := ⟨steps - 1, by omega⟩
  rw [chain_succ]
  split
  · next hfree =>
    apply ((h.pass hfree).chain steps (g.block b).next).2.placed
    exact (marked_set hlt b).mpr (Or.inr rfl)
  · next hplaced => exact not_not.mp (mt (not_marked_iff hlt).mp hplaced)

theorem leftover_eq (g : Graph) (live : Array Bool) (p : Placement) (b : BlockId) :
    leftover g live p b =
      if live.getD b false && !p.placed.getD b true then Placement.chain g live g.size p (some b)
      else p := rfl

theorem Progress.leftover {g : Graph} {live : Array Bool} {p : Placement} (h : Progress g live p)
    (b : BlockId) : Progress g live (leftover g live p b) ∧
      Extends p (Placement.leftover g live p b) ∧
      (b < g.size → Marked live b → Marked (Placement.leftover g live p b).placed b) := by
  rw [leftover_eq]
  split
  · obtain ⟨hprog, hext⟩ := h.chain g.size (some b)
    exact ⟨hprog, hext, fun hb _ => h.marked_chain (Nat.zero_lt_of_lt hb) hb⟩
  · next hskip =>
    refine ⟨h, .refl p, fun hb hlive => ?_⟩
    have hlt : b < p.placed.size := h.size_eq ▸ hb
    rw [marked_iff_getD.mp hlive] at hskip
    rw [Array.getD_eq_getD_getElem?, Array.getElem?_eq_getElem hlt] at hskip
    rw [Marked, Array.getElem?_eq_getElem hlt]
    simpa using hskip

theorem Progress.leftovers {g : Graph} {live : Array Bool} (bs : List BlockId) {p : Placement}
    (h : Progress g live p) : Progress g live (bs.foldl (Placement.leftover g live) p) ∧
      Extends p (bs.foldl (Placement.leftover g live) p) ∧
      ∀ b ∈ bs, b < g.size → Marked live b →
        Marked (bs.foldl (Placement.leftover g live) p).placed b := by
  induction bs generalizing p with
  | nil => exact ⟨h, .refl p, by simp⟩
  | cons b bs ih =>
    obtain ⟨hprog, hext, hb⟩ := h.leftover b
    obtain ⟨hprog', hext', hbs⟩ := ih hprog
    refine ⟨hprog', hext.trans hext', ?_⟩
    intro c hc hlt hlive
    rcases List.mem_cons.mp hc with rfl | hc
    · exact hext'.placed c (hb hlt hlive)
    · exact hbs c hc hlt hlive

theorem progress_start (g : Graph) (live : Array Bool) :
    Progress g live ⟨Array.replicate g.size false, #[]⟩ :=
  ⟨by simp, by simp, by simp [Marked, Array.getElem?_replicate]⟩

end Placement

section
variable {g : Graph} {live : Array Bool} {entry : BlockId}

theorem nodup_layout : (layout g live entry).Nodup :=
  (((Placement.progress_start g live).chain g.size (some entry)).1.leftovers
    (List.range g.size)).1.nodup

/-- The blocks in the order are the blocks marked. -/
theorem mem_layout_iff {b : BlockId} : b ∈ layout g live entry ↔ b < g.size ∧ Marked live b := by
  obtain ⟨hprog, _, hall⟩ := ((Placement.progress_start g live).chain g.size
    (some entry)).1.leftovers (List.range g.size)
  constructor
  · intro h
    obtain ⟨hplaced, hlive⟩ := (hprog.mem_iff b).mp h
    exact ⟨hprog.size_eq ▸ (Array.getElem?_eq_some_iff.mp hplaced).1, hlive⟩
  · rintro ⟨hb, h⟩
    exact (hprog.mem_iff b).mpr ⟨hall b (List.mem_range.mpr hb) hb h, h⟩

/-- The entry comes first. -/
theorem head?_layout (hentry : entry < g.size) (hlive : Marked live entry) :
    (layout g live entry).head? = some entry := by
  have hstart := Placement.progress_start g live
  have hfree : (⟨Array.replicate g.size false, #[]⟩ : Placement).placed[entry]? = some false := by
    simp [hentry]
  obtain ⟨n, hn⟩ := Nat.exists_eq_add_one_of_ne_zero (Nat.ne_zero_of_lt hentry)
  have hchain : Placement.Extends (Placement.pass live ⟨Array.replicate g.size false, #[]⟩ entry)
      (Placement.chain g live g.size ⟨Array.replicate g.size false, #[]⟩ (some entry)) := by
    conv =>
      arg 2
      rw [show Placement.chain g live g.size = Placement.chain g live (n + 1) by rw [hn],
        Placement.chain_succ, if_pos hfree]
    exact ((hstart.pass hfree).chain n (g.block entry).next).2
  have hext := hchain.trans
    ((hstart.chain g.size (some entry)).1.leftovers (List.range g.size)).2.1
  obtain ⟨tail, htail⟩ := hext.order
  rw [layout, ← htail]
  simp [Placement.pass, marked_iff_getD.mp hlive]

end

/-- Behind a block that falls through stands the block it falls into. -/
theorem head?_of_checkLayout {g : Graph} {before after : List BlockId} {b n : BlockId}
    (h : checkLayout g (before ++ b :: after) = .ok ()) (hterm : (g.block b).terminal = false)
    (hnext : (g.block b).next = some n) : after.head? = some n := by
  have hstep (c : BlockId) (rest : List BlockId) (hc : checkLayout g (c :: rest) = .ok ()) :
      checkLayout g rest = .ok () ∧
        ∀ m, (g.block c).terminal = false → (g.block c).next = some m → rest.head? = some m := by
    simp only [checkLayout] at hc
    split at hc
    · next hnone =>
      refine ⟨hc, fun m hterm hnext => ?_⟩
      rw [show g.getD c {} = g.block c from rfl, hterm, hnext] at hnone
      cases hnone
    · next m hsome =>
      split at hc
      · next hhead =>
        refine ⟨hc, fun k hterm hnext => ?_⟩
        rw [show g.getD c {} = g.block c from rfl, hterm, hnext] at hsome
        rw [hhead, ← hsome]
        rfl
      · cases hc
  induction before with
  | nil => exact (hstep b after h).2 n hterm hnext
  | cons c before ih => exact ih (hstep c _ h).1

end Wordcode
