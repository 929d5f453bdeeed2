import Mathlib.Logic.Relation
import Wordcode.Proofs.Depths

/-!
# The block stack of compiled code

A machine that runs wordcode keeps a stack of the handlers that are set up and of those that are
running. It may raise at any instruction, and then goes on at the innermost handler. In what a
program in context is compiled to, the block stack at an instruction does not depend on the way to
it, whatever was raised before; what is popped is there, and a return leaves nothing behind.
-/

set_option autoImplicit false

namespace Wordcode

/-- A machine before an instruction. Handlers are instructions too. -/
structure Machine where
  index : Nat
  depth : Int
  blocks : List (Guard Nat Int)

namespace Machine

def start : Machine := ⟨0, 0, []⟩

/-- The innermost handler that is set up, with its level and what lies below it. Handlers that are
running are left. -/
def innermost : List (Guard Nat Int) → Option (Nat × Int × List (Guard Nat Int))
  | [] => none
  | .handler _ :: rest => innermost rest
  | .finally k l :: rest => some (k, l, rest)

/-- One instruction, or an exception that is raised there. -/
inductive Moves (code : List Decoded) : Machine → Machine → Prop where
  | falls {j : Nat} {e : Decoded} {x : Int} {bs : List (Guard Nat Int)} : code[j]? = some e →
      e.opcode.isTerminal = false → e.opcode ≠ .setupFinally → e.opcode ≠ .popBlock →
      e.opcode ≠ .popExcept → Moves code ⟨j, x, bs⟩ ⟨j + 1, x + e.effect false, bs⟩
  | jumps {j k : Nat} {e : Decoded} {off : UInt32} {x : Int} {bs : List (Guard Nat Int)} :
      code[j]? = some e → e.opcode ≠ .setupFinally → e.jumpTarget = .ok (some off) →
      code.findIdx? (fun e => e.offset == off) = some k →
      Moves code ⟨j, x, bs⟩ ⟨k, x + e.effect true, bs⟩
  | setup {j k : Nat} {e : Decoded} {off : UInt32} {x : Int} {bs : List (Guard Nat Int)} :
      code[j]? = some e → e.opcode = .setupFinally → e.jumpTarget = .ok (some off) →
      code.findIdx? (fun e => e.offset == off) = some k →
      Moves code ⟨j, x, bs⟩ ⟨j + 1, x + e.effect false, .finally k x :: bs⟩
  | popBlock {j k : Nat} {e : Decoded} {x l : Int} {bs : List (Guard Nat Int)} :
      code[j]? = some e → e.opcode = .popBlock →
      Moves code ⟨j, x, .finally k l :: bs⟩ ⟨j + 1, x + e.effect false, bs⟩
  | popExcept {j : Nat} {e : Decoded} {x l : Int} {bs : List (Guard Nat Int)} :
      code[j]? = some e → e.opcode = .popExcept → x = l + 3 ∨ x = l + 4 →
      Moves code ⟨j, x, .handler l :: bs⟩ ⟨j + 1, x + e.effect false, bs⟩
  | raises {j k : Nat} {e : Decoded} {x l : Int} {bs rest : List (Guard Nat Int)} :
      code[j]? = some e → innermost bs = some (k, l, rest) →
      Moves code ⟨j, x, bs⟩ ⟨k, l + 6, .handler l :: rest⟩

/-- A machine that may come about when the code is run. -/
def Occurs (code : List Decoded) (m : Machine) : Prop :=
  Relation.ReflTransGen (Moves code) start m

end Machine

/-- The discipline of the block stack. -/
structure KeepsBlocks (code : List Decoded) : Prop where
  unique : ∀ j x y bs cs, Machine.Occurs code ⟨j, x, bs⟩ → Machine.Occurs code ⟨j, y, cs⟩ →
    x = y ∧ bs = cs
  popBlock : ∀ j x bs e, Machine.Occurs code ⟨j, x, bs⟩ → code[j]? = some e →
    e.opcode = .popBlock → ∃ k l rest, bs = .finally k l :: rest
  popExcept : ∀ j x bs e, Machine.Occurs code ⟨j, x, bs⟩ → code[j]? = some e →
    e.opcode = .popExcept → ∃ l rest, bs = .handler l :: rest ∧ (x = l + 3 ∨ x = l + 4)
  returns : ∀ j x bs e, Machine.Occurs code ⟨j, x, bs⟩ → code[j]? = some e →
    e.opcode = .returnValue → bs = []

/-- A depth that is counted as a machine word. -/
def levelOf (n : Nat) : Int := (Int32.ofNat n).toInt

/-- The guards of a shape stand for blocks of a machine: the label of a handler is where `At` says,
and what is raised comes to it with the shape that it is given. -/
inductive Stands (Γ : Shapes) (At : BlockId → Nat → Prop) :
    List (Guard BlockId Nat) → List (Guard Nat Int) → Prop where
  | nil : Stands Γ At [] []
  | setUp {h : BlockId} {k l : Nat} {gs : List (Guard BlockId Nat)} {bs : List (Guard Nat Int)} :
      At h k → (h, ⟨l + 6, .handler l :: gs⟩) ∈ Γ → 0 ≤ Int32.ofNat l → Stands Γ At gs bs →
      Stands Γ At (.finally h l :: gs) (.finally k (levelOf l) :: bs)
  | running {l : Nat} {gs : List (Guard BlockId Nat)} {bs : List (Guard Nat Int)} :
      0 ≤ Int32.ofNat l → Stands Γ At gs bs →
      Stands Γ At (.handler l :: gs) (.handler (levelOf l) :: bs)

variable {Γ : Shapes} {At : BlockId → Nat → Prop} {gs : List (Guard BlockId Nat)}
  {bs cs : List (Guard Nat Int)}

theorem Stands.unique (hAt : ∀ h k k', At h k → At h k' → k = k') (h : Stands Γ At gs bs)
    (h' : Stands Γ At gs cs) : bs = cs := by
  induction h generalizing cs with
  | nil =>
    cases h'
    rfl
  | setUp hk _ _ _ ih =>
    cases h' with
    | setUp hk' _ _ h' => rw [hAt _ _ _ hk hk', ih h']
  | running _ _ ih =>
    cases h' with
    | running _ h' => rw [ih h']

/-- An exception finds a handler whose shape is known. -/
theorem Stands.innermost (h : Stands Γ At gs bs) {k : Nat} {x : Int} {rest : List (Guard Nat Int)}
    (hin : Machine.innermost bs = some (k, x, rest)) : ∃ b l gs', At b k ∧ x = levelOf l ∧
      0 ≤ Int32.ofNat l ∧ (b, ⟨l + 6, .handler l :: gs'⟩) ∈ Γ ∧ Stands Γ At gs' rest := by
  induction h with
  | nil => cases hin
  | setUp hk hmem hl h _ =>
    cases hin
    exact ⟨_, _, _, hk, rfl, hl, hmem, h⟩
  | running _ _ ih => exact ih hin

theorem levelOf_add {n k : Nat} (hn : 0 ≤ Int32.ofNat n) (hk : k < 2 ^ 31)
    (h : 0 ≤ Int32.ofNat (n + k)) : levelOf (n + k) = levelOf n + k := by
  unfold levelOf
  rw [Int32.ofNat_add] at h ⊢
  rw [toInt_add_of_nonneg hn h, Int32.toInt_ofNat_of_lt hk]

section Flow

variable {M : Nat} {x : Item} {i : Instruction} {σ σ' : Shape}

/-- Other instructions that control passes leave the block stack alone. -/
theorem Flow.guards_next (h : Flow M Γ x σ σ') (hi : x.instruction? = some i)
    (hopen : i.opcode.isTerminal = false) (hsetup : i.opcode ≠ .setupFinally)
    (hblock : i.opcode ≠ .popBlock) (hexcept : i.opcode ≠ .popExcept) : σ'.guards = σ.guards := by
  cases h with
  | plain | branch | label | alloc | intern => rfl
  | jump hop =>
    cases hi
    rcases hop with rfl | rfl <;> cases hopen
  | setup =>
    cases hi
    exact absurd rfl hsetup
  | popBlock =>
    cases hi
    exact absurd rfl hblock
  | popExcept =>
    cases hi
    exact absurd rfl hexcept
  | returnValue | raise | reraise =>
    cases hi
    cases hopen

/-- So do other jumps that are taken. -/
theorem Flow.guards_there {op : Opcode} {b : BlockId} (h : Flow M Γ (.jump op b) σ σ')
    (hop : op ≠ .setupFinally) : ∃ τ, (b, τ) ∈ Γ ∧ τ.guards = σ.guards := by
  cases h with
  | plain hi ht =>
    cases hi
    cases ht
  | branch _ hb => exact ⟨_, hb, rfl⟩
  | jump _ hb => exact ⟨_, hb, rfl⟩
  | setup => exact absurd rfl hop

theorem Flow.of_setupFinally {b : BlockId} (h : Flow M Γ (.jump .setupFinally b) σ σ') :
    (b, σ.caught) ∈ Γ ∧ σ' = σ.guarded b := by
  cases h with
  | plain hi ht =>
    cases hi
    cases ht
  | branch hop => cases hop
  | jump hop => rcases hop with hop | hop <;> cases hop
  | setup hb => exact ⟨hb, rfl⟩

theorem Flow.of_popBlock (h : Flow M Γ x σ σ') (hi : x.instruction? = some i)
    (hop : i.opcode = .popBlock) :
    ∃ b l gs, σ.guards = .finally b l :: gs ∧ σ'.guards = gs := by
  cases h with
  | plain hi' _ hordinary =>
    rw [hi] at hi'
    cases hi'
    rw [hop] at hordinary
    cases hordinary
  | popBlock => exact ⟨_, _, _, rfl, rfl⟩
  | branch hbranch =>
    cases hi
    subst hop
    cases hbranch
  | jump hjump =>
    cases hi
    subst hop
    rcases hjump with hjump | hjump <;> cases hjump
  | label | alloc | intern => cases hi
  | _ =>
    cases hi
    cases hop

theorem Flow.of_popExcept (h : Flow M Γ x σ σ') (hi : x.instruction? = some i)
    (hop : i.opcode = .popExcept) : ∃ l gs, σ.guards = .handler l :: gs ∧ σ'.guards = gs ∧
      (σ.depth = l + 3 ∨ σ.depth = l + 4) := by
  cases h with
  | plain hi' _ hordinary =>
    rw [hi] at hi'
    cases hi'
    rw [hop] at hordinary
    cases hordinary
  | popExcept hd => exact ⟨_, _, rfl, rfl, by rcases hd with rfl | rfl <;> simp⟩
  | branch hbranch =>
    cases hi
    subst hop
    cases hbranch
  | jump hjump =>
    cases hi
    subst hop
    rcases hjump with hjump | hjump <;> cases hjump
  | label | alloc | intern => cases hi
  | _ =>
    cases hi
    cases hop

end Flow

/-- The label of a block leads to an instruction of the code. -/
def Script.LeadsTo (log : Script) (code : List Decoded) (pos : Nat → Nat) (b : BlockId) (k : Nat) :
    Prop :=
  k < code.length ∧ ∃ m, log[m]? = some (.label b) ∧ log.Next m (pos k)

/-- A machine agrees with the shape at its instruction. -/
structure Machine.Agrees (Γ : Shapes) (log : Script) (S : Nat → Shape) (code : List Decoded)
    (pos : Nat → Nat) (m : Machine) : Prop where
  inside : m.index < code.length
  depth : m.depth = levelOf (S (pos m.index)).depth
  blocks : Stands Γ (log.LeadsTo code pos) (S (pos m.index)).guards m.blocks

namespace CodeObject.Shaped

variable {c : CodeObject} {M : Nat} {d : Draft} {log : Script} {S : Nat → Shape}
  {code : List Decoded} {pos : Nat → Nat}

theorem nonneg (h : c.Shaped M Γ d log S code pos) {j : Nat} (hj : j < code.length) :
    0 ≤ Int32.ofNat (S (pos j)).depth := by
  obtain ⟨x, ha⟩ := h.arrives hj
  exact (h.depth_eq ha).2.1

theorem levelOf_falls (h : c.Shaped M Γ d log S code pos) {j : Nat} {e : Decoded}
    (he : code[j]? = some e) (hopen : e.opcode.isTerminal = false) :
    levelOf (S (pos (j + 1))).depth = levelOf (S (pos j)).depth + e.effect false := by
  obtain ⟨x, ha⟩ := h.arrives (List.getElem?_eq_some_iff.mp he).1
  obtain ⟨_, _, hx⟩ := h.depth_eq ha
  obtain ⟨_, _, hy⟩ := h.depth_eq (.falls ha he hopen)
  rw [levelOf, levelOf, ← hx, ← hy]

theorem levelOf_jumps (h : c.Shaped M Γ d log S code pos) {j k : Nat} {e : Decoded} {off : UInt32}
    (he : code[j]? = some e) (hoff : e.jumpTarget = .ok (some off))
    (hk : code.findIdx? (fun e => e.offset == off) = some k) :
    levelOf (S (pos k)).depth = levelOf (S (pos j)).depth + e.effect true := by
  obtain ⟨x, ha⟩ := h.arrives (List.getElem?_eq_some_iff.mp he).1
  obtain ⟨_, _, hx⟩ := h.depth_eq ha
  obtain ⟨_, _, hy⟩ := h.depth_eq (.jumps ha he hoff hk)
  rw [levelOf, levelOf, ← hx, ← hy]

theorem leadsTo_unique (h : c.Shaped M Γ d log S code pos) {b : BlockId} {k k' : Nat}
    (hk : log.LeadsTo code pos b k) (hk' : log.LeadsTo code pos b k') : k = k' := by
  obtain ⟨hlt, m, hm, hnext⟩ := hk
  obtain ⟨hlt', m', hm', hnext'⟩ := hk'
  obtain rfl := h.sound.fresh.label_unique hm hm'
  exact h.renders.injective k k' hlt hlt' (hnext.unique hnext')

/-- The handler that a label leads to has the shape of the label. -/
theorem shape_of_leadsTo (h : c.Shaped M Γ d log S code pos) {b : BlockId} {k : Nat} {τ : Shape}
    (hk : log.LeadsTo code pos b k) (hb : (b, τ) ∈ Γ) : S (pos k) = τ := by
  obtain ⟨_, m, hm, hnext⟩ := hk
  rw [h.shapes.next hnext]
  exact h.shapes.unique (h.shapes.label hm) hb

/-- A jump leads to where its label does. -/
theorem leadsTo_of_jump (h : c.Shaped M Γ d log S code pos) {j k : Nat} {e : Decoded}
    {off : UInt32} {op : Opcode} {b : BlockId} (he : code[j]? = some e)
    (hjump : log[pos j]? = some (.jump op b)) (hoff : e.jumpTarget = .ok (some off))
    (hk : code.findIdx? (fun e => e.offset == off) = some k) : log.LeadsTo code pos b k := by
  obtain ⟨off', k', m, hoff', hk', hlt, hm, hnext⟩ := h.renders.jumps j e op b he hjump
  rw [hoff] at hoff'
  cases hoff'
  rw [hk] at hk'
  cases hk'
  exact ⟨hlt, m, hm, hnext⟩

theorem agrees_start (h : c.Shaped M Γ d log S code pos) :
    Machine.start.Agrees Γ log S code pos := by
  obtain ⟨hlt, hempty⟩ := h.start
  refine ⟨hlt, ?_, ?_⟩
  · show 0 = levelOf (S (pos 0)).depth
    rw [hempty]
    rfl
  · show Stands Γ _ (S (pos 0)).guards []
    rw [hempty]
    exact .nil

/-- A machine that passes an instruction agrees with the next one, if its blocks do. -/
theorem agrees_next (h : c.Shaped M Γ d log S code pos) {j : Nat} {x : Int} {e : Decoded}
    {bs' : List (Guard Nat Int)} (hm : Machine.Agrees Γ log S code pos ⟨j, x, bs⟩)
    (he : code[j]? = some e) (hopen : e.opcode.isTerminal = false)
    (hbs' : Stands Γ (log.LeadsTo code pos) (S (pos j + 1)).guards bs') :
    Machine.Agrees Γ log S code pos ⟨j + 1, x + e.effect false, bs'⟩ := by
  have hdepth : x = levelOf (S (pos j)).depth := hm.depth
  obtain ⟨hlt, hnext⟩ := h.falls he hopen
  refine ⟨hlt, ?_, ?_⟩
  · show x + e.effect false = levelOf (S (pos (j + 1))).depth
    rw [h.levelOf_falls he hopen, hdepth]
  · show Stands Γ _ (S (pos (j + 1))).guards bs'
    rw [hnext]
    exact hbs'

/-- Whatever a machine does, it agrees with the shapes. -/
theorem agrees_moves (h : c.Shaped M Γ d log S code pos) {m m' : Machine}
    (hm : m.Agrees Γ log S code pos) (hmoves : Machine.Moves code m m') :
    m'.Agrees Γ log S code pos := by
  cases hmoves with
  | @falls j e x bs he hopen hsetup hblock hexcept =>
    have hblocks : Stands Γ (log.LeadsTo code pos) (S (pos j)).guards bs := hm.blocks
    obtain ⟨y, i, _, hi, hop, _, _, hflow⟩ := h.flow he
    refine h.agrees_next hm he hopen ?_
    rw [hop] at hopen hsetup hblock hexcept
    rw [hflow.guards_next hi hopen hsetup hblock hexcept]
    exact hblocks
  | @jumps j k e off x bs he hsetup hoff hk =>
    have hdepth : x = levelOf (S (pos j)).depth := hm.depth
    obtain ⟨y, i, hy, hi, hop, _, _, hflow⟩ := h.flow he
    obtain ⟨hlt, op, b, hjump, hb⟩ := h.jumps he hoff hk
    rw [hy] at hjump
    cases hjump
    cases hi
    rw [hop] at hsetup
    obtain ⟨τ, hτ, hguards⟩ := hflow.guards_there hsetup
    obtain rfl := h.shapes.unique hb hτ
    refine ⟨hlt, ?_, ?_⟩
    · show x + e.effect true = levelOf (S (pos k)).depth
      rw [h.levelOf_jumps he hoff hk, hdepth]
    · show Stands Γ _ (S (pos k)).guards bs
      rw [hguards]
      exact hm.blocks
  | @setup j k e off x bs he hop hoff hk =>
    have hdepth : x = levelOf (S (pos j)).depth := hm.depth
    obtain ⟨y, i, hy, hi, hop', _, _, hflow⟩ := h.flow he
    obtain ⟨_, op, b, hjump, _⟩ := h.jumps he hoff hk
    have hleads := h.leadsTo_of_jump he hjump hoff hk
    rw [hy] at hjump
    cases hjump
    cases hi
    rw [hop] at hop'
    subst hop'
    obtain ⟨hcaught, hguarded⟩ := hflow.of_setupFinally
    refine h.agrees_next hm he (by rw [hop]; rfl) ?_
    rw [hguarded, hdepth]
    exact .setUp hleads hcaught (h.nonneg hm.inside) hm.blocks
  | @popBlock j k e x l bs he hop =>
    have hblocks : Stands Γ (log.LeadsTo code pos) (S (pos j)).guards (.finally k l :: bs) :=
      hm.blocks
    obtain ⟨y, i, _, hi, hop', _, _, hflow⟩ := h.flow he
    obtain ⟨b, l', gs, hbefore, hafter⟩ := hflow.of_popBlock hi (hop' ▸ hop)
    refine h.agrees_next hm he (by rw [hop]; rfl) ?_
    rw [hafter]
    rw [hbefore] at hblocks
    cases hblocks with
    | setUp _ _ _ hrest => exact hrest
  | @popExcept j e x l bs he hop _ =>
    have hblocks : Stands Γ (log.LeadsTo code pos) (S (pos j)).guards (.handler l :: bs) :=
      hm.blocks
    obtain ⟨y, i, _, hi, hop', _, _, hflow⟩ := h.flow he
    obtain ⟨l', gs, hbefore, hafter, _⟩ := hflow.of_popExcept hi (hop' ▸ hop)
    refine h.agrees_next hm he (by rw [hop]; rfl) ?_
    rw [hafter]
    rw [hbefore] at hblocks
    cases hblocks with
    | running _ hrest => exact hrest
  | @raises j k e x l bs rest he hin =>
    have hblocks : Stands Γ (log.LeadsTo code pos) (S (pos j)).guards bs := hm.blocks
    obtain ⟨b, n, gs, hleads, rfl, hn, hb, hrest⟩ := hblocks.innermost hin
    have hshape := h.shape_of_leadsTo hleads hb
    have hpos := h.nonneg hleads.1
    rw [hshape] at hpos
    refine ⟨hleads.1, ?_, ?_⟩
    · show levelOf n + 6 = levelOf (S (pos k)).depth
      rw [hshape]
      exact (levelOf_add hn (by decide) hpos).symm
    · show Stands Γ _ (S (pos k)).guards (.handler (levelOf n) :: rest)
      rw [hshape]
      exact .running hn hrest

theorem agrees_of_occurs (h : c.Shaped M Γ d log S code pos) {m : Machine}
    (hm : Machine.Occurs code m) : m.Agrees Γ log S code pos := by
  induction hm with
  | refl => exact h.agrees_start
  | tail _ hmoves ih => exact h.agrees_moves ih hmoves

theorem keepsBlocks (h : c.Shaped M Γ d log S code pos) : KeepsBlocks code where
  unique j x y bs cs hm hm' := by
    obtain ⟨_, hx, hbs⟩ := h.agrees_of_occurs hm
    obtain ⟨_, hy, hcs⟩ := h.agrees_of_occurs hm'
    refine ⟨hx.trans hy.symm, hbs.unique (fun b k k' hk hk' => ?_) hcs⟩
    exact h.leadsTo_unique hk hk'
  popBlock j x bs e hm he hop := by
    have hbs : Stands Γ (log.LeadsTo code pos) (S (pos j)).guards bs := (h.agrees_of_occurs hm).blocks
    obtain ⟨y, i, _, hi, hop', _, _, hflow⟩ := h.flow he
    obtain ⟨b, l, gs, hbefore, _⟩ := hflow.of_popBlock hi (hop' ▸ hop)
    rw [hbefore] at hbs
    cases hbs with
    | setUp => exact ⟨_, _, _, rfl⟩
  popExcept j x bs e hm he hop := by
    have hagrees := h.agrees_of_occurs hm
    have hx : x = levelOf (S (pos j)).depth := hagrees.depth
    have hbs : Stands Γ (log.LeadsTo code pos) (S (pos j)).guards bs := hagrees.blocks
    obtain ⟨y, i, _, hi, hop', _, _, hflow⟩ := h.flow he
    obtain ⟨l, gs, hbefore, _, hd⟩ := hflow.of_popExcept hi (hop' ▸ hop)
    have hpos := h.nonneg hagrees.inside
    rw [hbefore] at hbs
    cases hbs with
    | running hl _ =>
      have hword (k : Nat) (hk : k < 2 ^ 31) (hd : (S (pos j)).depth = l + k) :
          x = levelOf l + k := by
        rw [hx, hd]
        exact levelOf_add hl hk (hd ▸ hpos)
      exact ⟨_, _, rfl, hd.imp (hword 3 (by decide)) (hword 4 (by decide))⟩
  returns j x bs e hm he hop := by
    have hbs : Stands Γ (log.LeadsTo code pos) (S (pos j)).guards bs := (h.agrees_of_occurs hm).blocks
    rw [h.shape_of_return he hop] at hbs
    cases hbs with
    | nil => rfl

end CodeObject.Shaped

/-- Every code object that a program in context is compiled to keeps the discipline of the block
stack. Code objects that stand in the program as constants, for which `K` holds, were not made by
compiling it. -/
theorem compile_keepsBlocks {K : CodeObject → Prop} {p : Program} (hp : p.Fits K) {t : ScopeTable}
    {o : Options} {c c' : CodeObject} (hc : compile p t o = .ok c) (hc' : c.Yields K c') :
    ∃ code, decode c'.code = .ok code ∧ KeepsBlocks code := by
  obtain ⟨_, _, _, _, _, code, _, h⟩ := hasShapes_of_compile hp hc hc'
  exact ⟨code, h.decodes, h.keepsBlocks⟩

theorem searchProgram_keepsBlocks : ∃ c, compile searchProgram searchTable {} = .ok c ∧
    ∀ c', c.Yields (fun _ => False) c' → ∃ code, decode c'.code = .ok code ∧ KeepsBlocks code := by
  obtain ⟨c, hc⟩ := exists_compile_searchProgram
  exact ⟨c, hc, fun c' hc' => compile_keepsBlocks fits_searchProgram hc hc'⟩

end Wordcode
