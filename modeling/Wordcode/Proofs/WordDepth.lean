import Mathlib.Algebra.Group.Int.Defs
import Mathlib.Algebra.Group.Nat.Defs
import Mathlib.Data.List.Nodup
import Mathlib.Data.List.Perm.Subperm
import Wordcode.Proofs.ExactDepth

/-!
# Stack depths in machine words

The walk for the stack depth, as it goes with numbers for depths. The walk in words keeps to it or
overflows; it never gives a wrong depth and never names an underflow that is none. Where operands
are small enough for the effects of instructions to be words, it overflows exactly if a depth
reaches `2 ^ 31`.
-/

set_option autoImplicit false

namespace Wordcode

theorem toInt_toInt32 {arg : UInt32} (h : arg.toNat < 2 ^ 31) : arg.toInt32.toInt = arg.toNat := by
  refine BitVec.toInt_eq_toNat_of_lt ?_
  show 2 * arg.toNat < 2 ^ 32
  omega

namespace Opcode

/-- The operand is one for which the effect can be computed in words. -/
def Fits (op : Opcode) (arg : UInt32) : Prop :=
  arg.toNat < if op = .buildMap then 2 ^ 30 else 2 ^ 31

instance (op : Opcode) (arg : UInt32) : Decidable (op.Fits arg) :=
  inferInstanceAs (Decidable (_ < _))

theorem lowBits_le (arg : UInt32) : (lowBits arg).toNat ≤ 4 := by
  have hbit (a : UInt32) : (a % 2).toNat ≤ 1 := by
    rw [UInt32.toNat_mod]
    exact Nat.le_of_lt_succ (Nat.mod_lt _ (by decide))
  have h₁ := hbit arg
  have h₂ := hbit (arg / 2)
  have h₃ := hbit (arg / 4)
  have h₄ := hbit (arg / 8)
  simp only [lowBits, UInt32.toNat_add]
  omega

section Fits
variable {op : Opcode} {arg : UInt32} (h : op.Fits arg) (taken : Bool)
include h

theorem Fits.lt : arg.toNat < 2 ^ 31 := by
  unfold Fits at h
  split at h <;> omega

/-- The operand is the same number as a signed word, and all that is computed from it are words. -/
theorem Fits.computes : ∀ x ∈ op.effectSteps arg taken, InWord x := by
  have hlt := h.lt
  have hlow := lowBits_le arg
  intro x hx
  rw [inWord_iff]
  unfold effectSteps at hx
  rw [toInt_toInt32 hlt] at hx
  cases op
  case buildMap =>
    have hmap : arg.toNat < 2 ^ 30 := h
    simp only [List.mem_cons, List.not_mem_nil, or_false] at hx
    omega
  all_goals
    simp only [List.mem_cons, List.not_mem_nil, or_false] at hx
    omega

end Fits
end Opcode

namespace Instruction

def Fits (i : Instruction) : Prop := i.opcode.Fits i.arg

instance (i : Instruction) : Decidable i.Fits := inferInstanceAs (Decidable (i.opcode.Fits i.arg))

theorem Fits.computes {i : Instruction} (h : i.Fits) (taken : Bool) : i.Computes taken :=
  Opcode.Fits.computes h taken

theorem Computes.inWord_change {i : Instruction} {taken : Bool} (h : i.Computes taken) :
    InWord (i.change taken) :=
  h.toInt_effect ▸ inWord_toInt _

end Instruction

namespace StackDepth

/-- The state of the walk, with numbers for depths. -/
structure Exact where
  found : Array Bool
  pending : List (BlockId × Int)
  /-- The greatest depth met. -/
  deepest : Int

namespace Exact

def discover : Exact → BlockId → Int → Exact
  | ⟨found, pending, deepest⟩, b, x =>
    if found[b]? = some false then ⟨found.setIfInBounds b true, (b, x) :: pending, deepest⟩
    else ⟨found, pending, deepest⟩

def reach (s : Exact) (x : Int) : Exact := { s with deepest := max s.deepest x }

/-- Notes the depth of the edge to an instruction's target, if it has one. -/
def branch (s : Exact) (i : Instruction) (there : Int) : Exact :=
  match i.target with
  | none => s
  | some t => (s.reach there).discover t there

/-- Walks instructions from number `index` on; gives the depth behind the last one. -/
def walk (b : BlockId) : Nat → Int → Exact → List Instruction → Exact × Except CompileError Int
  | _, x, s, [] => (s, .ok x)
  | index, x, s, i :: rest =>
    let there := x + i.change true
    let next := x + i.change false
    if i.isJump = true ∧ there < 0 then (s, .error (.fault (.stackUnderflow b index i.opcode)))
    else
      let s := s.branch i there
      if next < 0 then (s, .error (.fault (.stackUnderflow b index i.opcode)))
      else walk b (index + 1) next (s.reach next) rest

def fallThrough (s : Exact) (blk : Block) (x : Int) : Exact :=
  match if blk.terminal then none else blk.next with
  | none => s
  | some n => s.discover n x

def run (g : Graph) : Nat → Exact → Exact × Except CompileError Unit
  | 0, s => (s, .ok ())
  | rounds + 1, s =>
    match s.pending with
    | [] => (s, .ok ())
    | (b, x) :: rest =>
      match walk b 0 x { s with pending := rest } (g.block b).instructions.toList with
      | (s, .error e) => (s, .error e)
      | (s, .ok x) => run g rounds (s.fallThrough (g.block b) x)

def start (size : Nat) (entry : BlockId) : Exact :=
  discover ⟨Array.replicate size false, [], 0⟩ entry 0

end Exact
end StackDepth

open StackDepth

namespace Graph

/-- The greatest depth that the walk meets before it ends or fails. -/
def deepestMet (g : Graph) (entry : BlockId) : Int :=
  (Exact.run g g.size (.start g.size entry)).1.deepest

/-- What the walk gives in numbers: the greatest depth, or the first underflow met. -/
def exactDepth (g : Graph) (entry : BlockId) : Except CompileError Int :=
  (Exact.run g g.size (.start g.size entry)).2.map fun _ => g.deepestMet entry

end Graph

namespace StackDepth

/-- The state that words stand for. -/
def State.exact (s : State) : Exact :=
  ⟨s.found, s.pending.map fun p => (p.1, p.2.toInt), s.deepest.toInt⟩

/-- What a part of the walk gives in words, seen as numbers, beside what it gives in numbers: the
same, from depths below `2 ^ 31`, or it overflows. If all effects are words, a depth has then come
to `2 ^ 31`. -/
inductive Follows {α β : Type} (fits : Prop) (view : α → Exact × β) :
    Except CompileError α → Exact × Except CompileError β → Prop where
  | ok (a : α) : Follows fits view (.ok a) ((view a).1, .ok (view a).2)
  | underflow {t : Exact} (b : BlockId) (k : Nat) (op : Opcode) : t.deepest < 2 ^ 31 →
      Follows fits view (.error (.fault (.stackUnderflow b k op)))
        (t, .error (.fault (.stackUnderflow b k op)))
  | overflow {r : Exact × Except CompileError β} :
      (fits → 2 ^ 31 ≤ r.1.deepest) → Follows fits view (.error .overflow) r

theorem toInt_max (a b : Int32) : (max a b).toInt = max a.toInt b.toInt := by
  rcases State.max_eq a b with ⟨heq, hle⟩ | ⟨heq, hle⟩
  · rw [heq, Int.max_eq_left (Int32.le_iff_toInt_le.mp hle)]
  · rw [heq, Int.max_eq_right (Int32.le_iff_toInt_le.mp hle)]

theorem State.exact_discover (s : State) (b : BlockId) (w : Int32) :
    (s.discover b w).exact = s.exact.discover b w.toInt := by
  unfold State.discover Exact.discover State.exact
  dsimp only
  split <;> rfl

theorem State.exact_fallThrough (s : State) (blk : Block) (w : Int32) :
    (s.fallThrough blk w).exact = s.exact.fallThrough blk w.toInt := by
  unfold State.fallThrough Exact.fallThrough
  cases (if blk.terminal then none else blk.next : Option BlockId) with
  | none => rfl
  | some n => exact s.exact_discover n w

/-- From a depth that is not negative, a depth can be computed, or it is `2 ^ 31` or more. -/
theorem moved_cases {i : Instruction} (taken : Bool) {w : Int32} (hw : 0 ≤ w.toInt) :
    (∃ v, moved i taken w = .ok v ∧ v.toInt = w.toInt + i.change taken) ∨
      moved i taken w = .error .overflow ∧ (i.Fits → 2 ^ 31 ≤ w.toInt + i.change taken) := by
  cases hmoved : moved i taken w with
  | ok v => exact .inl ⟨v, rfl, (moved_eq_ok.mp hmoved).2⟩
  | error e =>
    obtain ⟨hnot, rfl⟩ := moved_eq_error.mp hmoved
    refine .inr ⟨rfl, fun hfits => ?_⟩
    have hcomputes := hfits.computes taken
    have hchange := inWord_iff.mp hcomputes.inWord_change
    have hsum := mt (And.intro hcomputes) hnot
    rw [inWord_iff] at hsum
    omega

namespace State

theorem reach_of_neg {s : State} {b : BlockId} {k : Nat} {op : Opcode} {w : Int32}
    (h : w.toInt < 0) : s.reach b k op w = .error (.fault (.stackUnderflow b k op)) :=
  if_pos (Int32.lt_iff_toInt_lt.mpr h)

theorem reach_of_nonneg (s : State) (b : BlockId) (k : Nat) (op : Opcode) {w : Int32}
    (h : 0 ≤ w.toInt) :
    ∃ s', s.reach b k op w = .ok s' ∧ s'.exact = s.exact.reach w.toInt := by
  have hpos : 0 ≤ w := Int32.le_iff_toInt_le.mpr h
  refine ⟨_, if_neg (Int32.not_lt.mpr hpos), ?_⟩
  simp only [exact, Exact.reach, toInt_max]

/-- The edge of one instruction. -/
theorem follows_branch (s : State) (b : BlockId) (k : Nat) {i : Instruction} {w : Int32}
    (hw : 0 ≤ w.toInt) :
    (∃ s', s.branch b k i w = .ok s' ∧ ¬ (i.isJump = true ∧ w.toInt + i.change true < 0) ∧
      s'.exact = s.exact.branch i (w.toInt + i.change true)) ∨
    (s.branch b k i w = .error (.fault (.stackUnderflow b k i.opcode)) ∧
      i.isJump = true ∧ w.toInt + i.change true < 0) ∨
    s.branch b k i w = .error .overflow ∧ i.isJump = true ∧
      (i.Fits → 2 ^ 31 ≤ w.toInt + i.change true) := by
  unfold State.branch Exact.branch Instruction.isJump
  cases i.target with
  | none => exact .inl ⟨s, rfl, nofun, rfl⟩
  | some t =>
    simp only [Option.isSome_some, true_and]
    rcases moved_cases (i := i) true hw with ⟨v, hmoved, hv⟩ | ⟨hmoved, hle⟩
    · rw [← hv]
      rcases Int.lt_or_le v.toInt 0 with hneg | hpos
      · exact .inr (.inl ⟨by simp [bind, Except.bind, hmoved, reach_of_neg hneg], hneg⟩)
      · obtain ⟨s', hreach, hexact⟩ := s.reach_of_nonneg b k i.opcode hpos
        refine .inl ⟨s'.discover t v, ?_, Int.not_lt.mpr hpos, ?_⟩
        · simp only [bind, Except.bind, hmoved, hreach, pure, Except.pure]
        · rw [exact_discover, hexact]
    · exact .inr (.inr ⟨by simp only [bind, Except.bind, hmoved], hle⟩)

end State

namespace Exact

theorem deepest_discover (s : Exact) (b : BlockId) (x : Int) :
    (s.discover b x).deepest = s.deepest := by
  simp only [discover]
  split <;> rfl

theorem deepest_fallThrough (s : Exact) (blk : Block) (x : Int) :
    (s.fallThrough blk x).deepest = s.deepest := by
  unfold fallThrough
  split
  · rfl
  · exact deepest_discover ..

theorem deepest_branch (s : Exact) (i : Instruction) (there : Int) :
    s.deepest ≤ (s.branch i there).deepest ∧
      (i.isJump = true → there ≤ (s.branch i there).deepest) := by
  unfold branch Instruction.isJump
  cases i.target with
  | none => exact ⟨Int.le_refl _, nofun⟩
  | some t =>
    rw [deepest_discover]
    exact ⟨Int.le_max_left .., fun _ => Int.le_max_right ..⟩

/-- The greatest depth met only grows. -/
theorem le_deepest_walk (b : BlockId) (k : Nat) (x : Int) (s : Exact) (is : List Instruction) :
    s.deepest ≤ (walk b k x s is).1.deepest := by
  induction is generalizing k x s with
  | nil => exact Int.le_refl _
  | cons i rest ih =>
    have hbranch := (s.deepest_branch i (x + i.change true)).1
    rw [walk]
    split
    · exact Int.le_refl _
    · dsimp only
      split
      · exact hbranch
      · exact Int.le_trans (Int.le_trans hbranch (Int.le_max_left ..)) (ih _ _ _)

/-- Depths that are not negative are among those met. -/
theorem le_deepest_walk_cons (b : BlockId) (k : Nat) {x : Int} (s : Exact) {i : Instruction}
    (rest : List Instruction) :
    (i.isJump = true → 0 ≤ x + i.change true →
      x + i.change true ≤ (walk b k x s (i :: rest)).1.deepest) ∧
    (¬ (i.isJump = true ∧ x + i.change true < 0) → 0 ≤ x + i.change false →
      x + i.change false ≤ (walk b k x s (i :: rest)).1.deepest) := by
  have hbranch := (s.deepest_branch i (x + i.change true)).2
  have hrest := le_deepest_walk b (k + 1) (x + i.change false)
    ((s.branch i (x + i.change true)).reach (x + i.change false)) rest
  have hmax : ((s.branch i (x + i.change true)).reach (x + i.change false)).deepest =
    max (s.branch i (x + i.change true)).deepest (x + i.change false) := rfl
  rw [walk]
  refine ⟨fun hjump hpos => ?_, fun hok hpos => ?_⟩
  · rw [if_neg (fun h => Int.not_lt.mpr hpos h.2)]
    dsimp only
    split
    · exact hbranch hjump
    · have := hbranch hjump
      omega
  · rw [if_neg hok]
    dsimp only
    rw [if_neg (Int.not_lt.mpr hpos)]
    omega

theorem le_deepest_run (g : Graph) (rounds : Nat) (s : Exact) :
    s.deepest ≤ (run g rounds s).1.deepest := by
  induction rounds generalizing s with
  | zero => exact Int.le_refl _
  | succ rounds ih =>
    unfold run
    split
    · exact Int.le_refl _
    · next b x rest _ =>
      have hwalk := le_deepest_walk b 0 x { s with pending := rest } (g.block b).instructions.toList
      split
      · next hr => simpa [hr] using hwalk
      · next t x' hr =>
        rw [hr] at hwalk
        have hrest := ih (t.fallThrough (g.block b) x')
        rw [deepest_fallThrough] at hrest
        exact Int.le_trans hwalk hrest

end Exact

/-- A walk through instructions in words. -/
theorem State.follows_walk {fits : Prop} {is : List Instruction}
    (hfits : fits → ∀ i ∈ is, i.Fits) (b : BlockId) (k : Nat) {w : Int32} (hw : 0 ≤ w.toInt)
    (s : State) :
    Follows fits (fun r : Int32 × State => (r.2.exact, r.1.toInt)) (walk b k w s is)
      (Exact.walk b k w.toInt s.exact is) := by
  induction is generalizing k w s with
  | nil => exact .ok (w, s)
  | cons i rest ih =>
    have hi (h : fits) : i.Fits := hfits h i List.mem_cons_self
    obtain ⟨hthere, hnext⟩ := Exact.le_deepest_walk_cons b k (x := w.toInt) s.exact (i := i) rest
    rcases s.follows_branch b k (i := i) hw with
      ⟨s₁, hbranch, hok, hs₁⟩ | ⟨hbranch, hunder⟩ | ⟨hbranch, hjump, hle⟩
    · rcases moved_cases (i := i) false hw with ⟨v, hmoved, hv⟩ | ⟨hmoved, hle⟩
      · rcases Int.lt_or_le v.toInt 0 with hneg | hpos
        · simp only [walk, bind, Except.bind, hbranch, hmoved]
          rw [reach_of_neg hneg, Exact.walk, if_neg hok, if_pos (hv ▸ hneg), ← hs₁]
          exact .underflow _ _ _ s₁.deepest.toInt_lt
        · obtain ⟨s₂, hreach, hs₂⟩ := s₁.reach_of_nonneg b k i.opcode hpos
          simp only [walk, bind, Except.bind, hbranch, hmoved, hreach]
          rw [Exact.walk, if_neg hok]
          simp only [← hv, ← hs₁, ← hs₂, if_neg (Int.not_lt.mpr hpos)]
          exact ih (fun h j hj => hfits h j (List.mem_cons_of_mem i hj)) (k + 1) hpos s₂
      · simp only [walk, bind, Except.bind, hbranch, hmoved]
        refine .overflow fun h => ?_
        have := hle (hi h)
        exact Int.le_trans this (hnext hok (by omega))
    · simp only [walk, bind, Except.bind, hbranch]
      rw [Exact.walk, if_pos hunder]
      exact .underflow _ _ _ s.deepest.toInt_lt
    · simp only [walk, bind, Except.bind, hbranch]
      refine .overflow fun h => ?_
      have := hle (hi h)
      exact Int.le_trans this (hthere hjump (by omega))

end StackDepth

/-- The most that instructions can add to the depth. -/
def rise (is : List Instruction) : Int :=
  is.foldr (fun i n => max 0 (max (i.change true) (i.change false)) + n) 0

theorem rise_cons (i : Instruction) (is : List Instruction) :
    rise (i :: is) = max 0 (max (i.change true) (i.change false)) + rise is := rfl

theorem rise_nonneg (is : List Instruction) : 0 ≤ rise is := by
  induction is with
  | nil => exact Int.le_refl 0
  | cons i is ih =>
    rw [rise_cons]
    omega

namespace Graph

def riseOf (g : Graph) (bs : List BlockId) : Int :=
  bs.foldr (fun b n => rise (g.block b).instructions.toList + n) 0

/-- The most that all instructions together can add to the depth. -/
def totalRise (g : Graph) : Int := g.riseOf (List.range g.size)

theorem riseOf_cons (g : Graph) (b : BlockId) (bs : List BlockId) :
    g.riseOf (b :: bs) = rise (g.block b).instructions.toList + g.riseOf bs := rfl

theorem riseOf_perm (g : Graph) {bs cs : List BlockId} (h : bs.Perm cs) :
    g.riseOf bs = g.riseOf cs := by
  induction h with
  | nil => rfl
  | cons b _ ih => rw [riseOf_cons, riseOf_cons, ih]
  | swap b c bs =>
    simp only [riseOf_cons]
    omega
  | trans _ _ ih ih' => exact ih.trans ih'

theorem riseOf_le_of_sublist (g : Graph) {bs cs : List BlockId} (h : bs.Sublist cs) :
    g.riseOf bs ≤ g.riseOf cs := by
  induction h with
  | slnil => exact Int.le_refl _
  | cons c _ ih =>
    have := rise_nonneg (g.block c).instructions.toList
    rw [riseOf_cons]
    omega
  | cons_cons c _ ih =>
    rw [riseOf_cons, riseOf_cons]
    omega

/-- Different blocks of a graph do not add more than all of them. -/
theorem riseOf_le (g : Graph) {bs : List BlockId} (hnodup : bs.Nodup) (hlt : ∀ b ∈ bs, b < g.size) :
    g.riseOf bs ≤ g.totalRise := by
  have hsub : bs.Subperm (List.range g.size) :=
    List.subperm_of_subset hnodup fun b hb => List.mem_range.mpr (hlt b hb)
  obtain ⟨cs, hperm, hsublist⟩ := hsub
  rw [← g.riseOf_perm hperm]
  exact g.riseOf_le_of_sublist hsublist

end Graph

namespace StackDepth.Exact

/-- Between the rounds of the walk: the blocks walked and those pending are different ones, and no
depth is above `top`. -/
structure Within (g : Graph) (walked : List BlockId) (top : Int) (s : Exact) : Prop where
  size_eq : s.found.size = g.size
  nodup : (walked ++ s.pending.map Prod.fst).Nodup
  marked : ∀ b ∈ walked ++ s.pending.map Prod.fst, Marked s.found b
  pending : ∀ p ∈ s.pending, 0 ≤ p.2 ∧ p.2 ≤ top
  deepest : s.deepest ≤ top

section Within
variable {g : Graph} {walked : List BlockId} {top : Int} {s : Exact}

theorem Within.discover (h : Within g walked top s) {b : BlockId} {x : Int} (hx : 0 ≤ x ∧ x ≤ top) :
    Within g walked top (s.discover b x) := by
  obtain ⟨found, pending, deepest⟩ := s
  simp only [Exact.discover]
  split
  · next hfree =>
    have hlt : b < found.size := (Array.getElem?_eq_some_iff.mp hfree).1
    have hnew : b ∉ walked ++ pending.map Prod.fst := fun hb =>
      (not_marked_iff hlt).mpr hfree (h.marked b hb)
    refine ⟨by rw [Array.size_setIfInBounds, h.size_eq], ?_, fun c hc => ?_, fun p hp => ?_,
      h.deepest⟩
    · rw [List.map_cons, List.nodup_middle, List.nodup_cons]
      exact ⟨hnew, h.nodup⟩
    · rw [marked_set hlt]
      rw [List.map_cons, List.mem_append, List.mem_cons] at hc
      rcases hc with hc | rfl | hc
      · exact .inl (h.marked c (List.mem_append_left _ hc))
      · exact .inr rfl
      · exact .inl (h.marked c (List.mem_append_right _ hc))
    · rcases List.mem_cons.mp hp with rfl | hp
      · exact hx
      · exact h.pending p hp
  · exact h

theorem Within.reach (h : Within g walked top s) {x : Int} (hx : x ≤ top) :
    Within g walked top (s.reach x) :=
  ⟨h.size_eq, h.nodup, h.marked, h.pending, Int.max_le.mpr ⟨h.deepest, hx⟩⟩

theorem Within.branch (h : Within g walked top s) {i : Instruction} {there : Int}
    (hthere : i.isJump = true → 0 ≤ there ∧ there ≤ top) :
    Within g walked top (s.branch i there) := by
  unfold Exact.branch
  cases ht : i.target with
  | none => exact h
  | some t =>
    have hx := hthere (by rw [Instruction.isJump, ht]; rfl)
    exact (h.reach hx.2).discover hx

theorem Within.fallThrough (h : Within g walked top s) {x : Int} (hx : 0 ≤ x ∧ x ≤ top)
    (blk : Block) : Within g walked top (s.fallThrough blk x) := by
  unfold Exact.fallThrough
  split
  · exact h
  · exact h.discover hx

theorem Within.walk (h : Within g walked top s) (b : BlockId) (k : Nat) {x : Int} (hx : 0 ≤ x)
    {is : List Instruction} (htop : x + rise is ≤ top) :
    Within g walked top (walk b k x s is).1 ∧
      ∀ x', (walk b k x s is).2 = .ok x' → 0 ≤ x' ∧ x' ≤ top := by
  induction is generalizing k x s with
  | nil =>
    refine ⟨h, fun x' hx' => ?_⟩
    obtain rfl : x = x' := Except.ok.inj hx'
    exact ⟨hx, by simpa [rise] using htop⟩
  | cons i rest ih =>
    have hrest := rise_nonneg rest
    rw [rise_cons] at htop
    rw [Exact.walk]
    split
    · exact ⟨h, nofun⟩
    · next hok =>
      rw [not_and] at hok
      have hbranch : Within g walked top (s.branch i (x + i.change true)) := by
        refine h.branch fun hjump => ?_
        have := hok hjump
        omega
      dsimp only
      split
      · exact ⟨hbranch, nofun⟩
      · exact ih (hbranch.reach (by omega)) (k + 1) (by omega) (by omega)

/-- A round adds the rise of the block it walks. -/
theorem Within.start_round {found : Array Bool} {b : BlockId} {x deepest : Int}
    {rest : List (BlockId × Int)}
    (h : Within g walked top ⟨found, (b, x) :: rest, deepest⟩) {top' : Int} (hle : top ≤ top') :
    Within g (b :: walked) top' ⟨found, rest, deepest⟩ := by
  refine ⟨h.size_eq, ?_, fun c hc => h.marked c ?_, fun p hp => ?_, Int.le_trans h.deepest hle⟩
  · have hnodup := h.nodup
    rwa [List.map_cons, List.nodup_middle] at hnodup
  · rw [List.cons_append, List.mem_cons] at hc
    rw [List.map_cons, List.mem_append, List.mem_cons]
    rcases hc with rfl | hc
    · exact .inr (.inl rfl)
    · exact (List.mem_append.mp hc).imp_right .inr
  · obtain ⟨hnonneg, htop⟩ := h.pending p (List.mem_cons_of_mem _ hp)
    exact ⟨hnonneg, Int.le_trans htop hle⟩

/-- What a round leaves. -/
theorem Within.round {found : Array Bool} {b : BlockId} {x deepest : Int}
    {rest : List (BlockId × Int)}
    (h : Within g walked (g.riseOf walked) ⟨found, (b, x) :: rest, deepest⟩) :
    Within g (b :: walked) (g.riseOf (b :: walked))
        (Exact.walk b 0 x ⟨found, rest, deepest⟩ (g.block b).instructions.toList).1 ∧
      ∀ x', (Exact.walk b 0 x ⟨found, rest, deepest⟩ (g.block b).instructions.toList).2 = .ok x' →
        0 ≤ x' ∧ x' ≤ g.riseOf (b :: walked) := by
  have hrise := rise_nonneg (g.block b).instructions.toList
  obtain ⟨hx, hxtop⟩ := h.pending (b, x) List.mem_cons_self
  have hcons := g.riseOf_cons b walked
  exact (h.start_round (by omega)).walk b 0 hx (by rw [hcons]; simp only at hxtop; omega)

theorem Within.riseOf_le (h : Within g walked top s) : g.riseOf walked ≤ g.totalRise := by
  refine g.riseOf_le (List.nodup_append.mp h.nodup).1 fun b hb => ?_
  rw [← h.size_eq]
  exact (Array.getElem?_eq_some_iff.mp (h.marked b (List.mem_append_left _ hb))).1

end Within

theorem run_cons (g : Graph) (rounds : Nat) (found : Array Bool) (b : BlockId) (x deepest : Int)
    (rest : List (BlockId × Int)) :
    run g (rounds + 1) ⟨found, (b, x) :: rest, deepest⟩ =
      match walk b 0 x ⟨found, rest, deepest⟩ (g.block b).instructions.toList with
      | (s, .error e) => (s, .error e)
      | (s, .ok x) => run g rounds (s.fallThrough (g.block b) x) := rfl

theorem Within.deepest_run_le {g : Graph} {walked : List BlockId} (rounds : Nat) {s : Exact}
    (h : Within g walked (g.riseOf walked) s) : (run g rounds s).1.deepest ≤ g.totalRise := by
  induction rounds generalizing walked s with
  | zero => exact Int.le_trans h.deepest h.riseOf_le
  | succ rounds ih =>
    obtain ⟨found, pending, deepest⟩ := s
    cases pending with
    | nil => exact Int.le_trans h.deepest h.riseOf_le
    | cons p rest =>
      obtain ⟨b, x⟩ := p
      obtain ⟨hwithin, hdepth⟩ := h.round
      rw [run_cons]
      split
      · next hwalk =>
        rw [hwalk] at hwithin
        exact Int.le_trans hwithin.deepest hwithin.riseOf_le
      · next s' x' hwalk =>
        rw [hwalk] at hwithin hdepth
        exact ih (hwithin.fallThrough (hdepth x' rfl) (g.block b))

end StackDepth.Exact

/-- The effects of all instructions can be computed in words. -/
def Graph.Fits (g : Graph) : Prop := ∀ b, ∀ i ∈ (g.block b).instructions, i.Fits

namespace StackDepth

/-- The walk in words, round by round. -/
theorem State.follows_run {g : Graph} {walked : List BlockId} (rounds : Nat)
    {s : State} (h : s.exact.Within g walked (g.riseOf walked)) :
    Follows g.Fits (fun s : State => (s.exact, ())) (run g rounds s) (Exact.run g rounds s.exact) := by
  induction rounds generalizing walked s with
  | zero => exact .ok s
  | succ rounds ih =>
    obtain ⟨found, pending, deepest⟩ := s
    cases pending with
    | nil => exact .ok (State.mk found [] deepest)
    | cons p rest =>
      obtain ⟨b, w⟩ := p
      have hexact : (State.mk found ((b, w) :: rest) deepest).exact =
          ⟨found, (b, w.toInt) :: (State.mk found rest deepest).exact.pending, deepest.toInt⟩ := rfl
      rw [hexact] at h ⊢
      rw [State.run_cons, Exact.run_cons]
      have hw := (h.pending (b, w.toInt) List.mem_cons_self).1
      have hwalk : Follows g.Fits _ _ (Exact.walk b 0 w.toInt
          ⟨found, (State.mk found rest deepest).exact.pending, deepest.toInt⟩ _) :=
        State.follows_walk (fun hfits i hi => hfits b i (Array.mem_toList_iff.mp hi)) b 0 hw
          ⟨found, rest, deepest⟩
      obtain ⟨hwithin, hdepth⟩ := h.round
      generalize walk b 0 w ⟨found, rest, deepest⟩ (g.block b).instructions.toList = word at hwalk ⊢
      generalize Exact.walk b 0 w.toInt _ (g.block b).instructions.toList = numbers at *
      cases hwalk with
      | ok r =>
        have hnext := hwithin.fallThrough (hdepth _ rfl) (g.block b)
        have hfall := r.2.exact_fallThrough (g.block b) r.1
        have hrun := ih (hfall ▸ hnext)
        rw [hfall] at hrun
        exact hrun
      | underflow c k op hlt => exact .underflow c k op hlt
      | overflow hle =>
        obtain ⟨t, result⟩ := numbers
        cases result with
        | error e => exact .overflow hle
        | ok x =>
          have hrun := Exact.le_deepest_run g rounds (t.fallThrough (g.block b) x)
          rw [Exact.deepest_fallThrough] at hrun
          exact .overflow fun hfits => Int.le_trans (hle hfits) hrun

theorem State.exact_start (size : Nat) (entry : BlockId) :
    (State.start size entry).exact = Exact.start size entry :=
  State.exact_discover _ entry 0

theorem Exact.within_start (g : Graph) (entry : BlockId) :
    Within g [] (g.riseOf []) (Exact.start g.size entry) := by
  have hnew : Within g [] (g.riseOf []) ⟨Array.replicate g.size false, [], 0⟩ :=
    ⟨Array.size_replicate, .nil, nofun, nofun, Int.le_refl 0⟩
  exact hnew.discover ⟨Int.le_refl 0, Int.le_refl 0⟩

end StackDepth

/-- The walk for the depth, in words and in numbers. Of an operand below `2 ^ 31`, or `2 ^ 30` for a
map, the effect can be computed in words. The walk gives what it gives in numbers, the greatest
depth or the underflow at the first negative depth, or it overflows. It overflows if a depth reaches
`2 ^ 31`, and where all operands are such, only then; none does if all instructions together do not
add as much. -/
theorem maxStackDepth_in_words (g : Graph) (entry : BlockId) :
    (∀ i : Instruction, i.Fits →
      i.arg.toInt32.toInt = i.arg.toNat ∧ ∀ taken, i.Computes taken) ∧
    (maxStackDepth g entry = ((g.exactDepth entry).map fun x => UInt32.ofNat x.toNat) ∨
      maxStackDepth g entry = .error .overflow) ∧
    (g.Fits → g.deepestMet entry < 2 ^ 31 →
      maxStackDepth g entry = (g.exactDepth entry).map fun x => UInt32.ofNat x.toNat) ∧
    (2 ^ 31 ≤ g.deepestMet entry → maxStackDepth g entry = .error .overflow) ∧
    g.deepestMet entry ≤ g.totalRise := by
  have hstart := Exact.within_start g entry
  have hrun := State.follows_run g.size (State.exact_start g.size entry ▸ hstart)
  have hdeepest := Exact.le_deepest_run g g.size (Exact.start g.size entry)
  have hzero : (Exact.start g.size entry).deepest = 0 := Exact.deepest_discover ..
  have hcases : (maxStackDepth g entry = (g.exactDepth entry).map (fun x => UInt32.ofNat x.toNat) ∧
      g.deepestMet entry < 2 ^ 31) ∨
      maxStackDepth g entry = .error .overflow ∧ (g.Fits → 2 ^ 31 ≤ g.deepestMet entry) := by
    rw [State.exact_start] at hrun
    unfold maxStackDepth Graph.exactDepth Graph.deepestMet
    generalize State.run g g.size _ = word at hrun ⊢
    generalize Exact.run g g.size _ = numbers at *
    cases hrun with
    | ok s =>
      rw [hzero] at hdeepest
      have hpos : 0 ≤ s.deepest := Int32.le_iff_toInt_le.mpr hdeepest
      have hword : s.deepest.toInt.toNat = s.deepest.toUInt32.toNat := by
        rw [← toNat_toUInt32_of_nonneg hpos, Int.toNat_natCast]
      refine .inl ⟨?_, s.deepest.toInt_lt⟩
      show Except.ok s.deepest.toUInt32 = .ok (UInt32.ofNat s.deepest.toInt.toNat)
      rw [hword, UInt32.ofNat_toNat]
    | underflow b k op hlt => exact .inl ⟨rfl, hlt⟩
    | overflow hle => exact .inr ⟨rfl, hle⟩
  refine ⟨fun i hi => ⟨toInt_toInt32 hi.lt, hi.computes⟩, ?_, ?_, ?_,
    hstart.deepest_run_le g.size⟩
  · exact hcases.imp And.left And.left
  · intro hfits hlt
    rcases hcases with ⟨hsame, _⟩ | ⟨_, hle⟩
    · exact hsame
    · exact absurd (hle hfits) (Int.not_le.mpr hlt)
  · intro hle
    rcases hcases with ⟨_, hlt⟩ | ⟨hover, _⟩
    · exact absurd hle (Int.not_le.mpr hlt)
    · exact hover

theorem Graph.fits_of_lt {g : Graph}
    (h : ∀ b < g.size, ∀ i ∈ (g.block b).instructions.toList, i.Fits) : g.Fits := by
  intro b i hi
  rcases Nat.lt_or_ge b g.size with hlt | hge
  · exact h b hlt i (Array.mem_toList_iff.mpr hi)
  · have hempty : g.block b = {} := by
      rw [block, Array.getD_eq_getD_getElem?, Array.getElem?_eq_none hge]
      rfl
    rw [hempty] at hi
    exact absurd hi (Array.not_mem_empty i)

/-- A value is unpacked into `2 ^ 31 - 1` items, and the last of these into as many again. -/
def Draft.unpacking : Draft :=
  let d := ofTable "<module>" "<module>" .module 0 1 false
  let d := (d.append ⟨.loadName, 0, none, 0⟩).append ⟨.unpackSequence, 0x7FFFFFFF, none, 0⟩
  (d.append ⟨.unpackSequence, 0x7FFFFFFF, none, 0⟩).append ⟨.returnValue, 0, none, 0⟩

theorem Draft.written_unpacking : unpacking.Written := by
  have hload := @Written.emit _ .loadName 0 _
    (.fresh "<module>" "<module>" .module 0 1 false) (by decide) (by decide) rfl
  have hfirst := @Written.emit _ .unpackSequence 0x7FFFFFFF _ hload (by decide) (by decide) rfl
  have hsecond := @Written.emit _ .unpackSequence 0x7FFFFFFF _ hfirst (by decide) (by decide) rfl
  exact @Written.emit _ .returnValue 0 _ hsecond (by decide) (by decide) rfl

theorem Draft.fits_unpacking : Graph.Fits (unpacking.close true).blocks :=
  Graph.fits_of_lt (by decide)

theorem depth_in_words_cases :
    Graph.dropping.Fits ∧ Graph.dropping.deepestMet 0 < 2 ^ 31 ∧
      maxStackDepth Graph.dropping 0 =
        (Graph.dropping.exactDepth 0).map (fun x => UInt32.ofNat x.toNat) ∧
    Graph.Fits (Draft.unpacking.close true).blocks ∧
      2 ^ 31 ≤ Graph.deepestMet (Draft.unpacking.close true).blocks Draft.entry ∧
      maxStackDepth (Draft.unpacking.close true).blocks Draft.entry = .error .overflow := by
  have hdropping : Graph.dropping.Fits := Graph.fits_of_lt (by decide)
  have hlow : Graph.dropping.deepestMet 0 < 2 ^ 31 := by decide
  have hhigh : 2 ^ 31 ≤ Graph.deepestMet (Draft.unpacking.close true).blocks Draft.entry := by
    decide
  exact ⟨hdropping, hlow, (maxStackDepth_in_words _ 0).2.2.1 hdropping hlow, Draft.fits_unpacking,
    hhigh, (maxStackDepth_in_words _ Draft.entry).2.2.2.1 hhigh⟩

/-- Not every depth that there is can be computed. -/
theorem depth_overflows : ¬ ∀ (d : Draft) (addNone : Bool), d.Written →
    maxStackDepth (d.close addNone).blocks Draft.entry =
      (Graph.exactDepth (d.close addNone).blocks Draft.entry).map
        fun x => UInt32.ofNat x.toNat := by
  intro h
  have hexact : (Graph.exactDepth (Draft.unpacking.close true).blocks Draft.entry).toOption =
      some 4294967293 := by
    decide
  have hword : (maxStackDepth (Draft.unpacking.close true).blocks Draft.entry).toOption = none := by
    decide
  rw [h Draft.unpacking true Draft.written_unpacking] at hword
  cases hdepth : Graph.exactDepth (Draft.unpacking.close true).blocks Draft.entry with
  | error e =>
    rw [hdepth] at hexact
    cases hexact
  | ok m =>
    rw [hdepth] at hword
    cases hword

end Wordcode
