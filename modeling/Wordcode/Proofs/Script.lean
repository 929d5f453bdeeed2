import Mathlib.Data.List.Induction
import Wordcode.Proofs.Graph

/-!
# Scripts

What a build does to a draft, as a list: the blocks it makes, the labels it goes on at, the
instructions it adds and the constants it interns. The script alone tells where each instruction
ends up, and which of them are dropped because nothing leads to them.
-/

set_option autoImplicit false

namespace Wordcode

inductive Item where
  | emit (op : Opcode) (arg : UInt32)
  /-- An instruction whose operand stands for a name. -/
  | named (op : Opcode) (arg : UInt32) (name : String)
  /-- An instruction whose operand stands for a constant. -/
  | load (arg : UInt32) (c : Constant)
  | jump (op : Opcode) (target : BlockId)
  | label (b : BlockId)
  | alloc
  | intern (c : Constant)

namespace Item

def instruction? : Item → Option Instruction
  | .emit op arg | .named op arg _ => some ⟨op, arg, none, 0⟩
  | .load arg _ => some ⟨.loadConst, arg, none, 0⟩
  | .jump op b => some ⟨op, 0, some b, 0⟩
  | .label _ | .alloc | .intern _ => none

def label? : Item → Option BlockId
  | .label b => some b
  | _ => none

def target? : Item → Option BlockId
  | .jump _ b => some b
  | _ => none

/-- Where the next instruction would go, if there is a place for it: behind an instruction that
ends its block there is none. -/
def advance (p : Option Place) : Item → Option Place
  | .label b => some ⟨b, 0⟩
  | .alloc | .intern _ => p
  | .emit op _ | .named op _ _ | .jump op _ =>
    p.bind fun p => if op.isTerminal then none else some ⟨p.block, p.index + 1⟩
  | .load _ _ => p.bind fun p => some ⟨p.block, p.index + 1⟩

theorem advance_of_instruction {item : Item} {i : Instruction} (h : item.instruction? = some i)
    (p : Option Place) : item.advance p =
      p.bind fun p => if i.opcode.isTerminal then none else some ⟨p.block, p.index + 1⟩ := by
  cases item <;> cases h <;> rfl

theorem label?_of_instruction {item : Item} {i : Instruction} (h : item.instruction? = some i) :
    item.label? = none := by
  cases item <;> cases h <;> rfl

end Item

abbrev Script := List Item

namespace Script

def labels (log : Script) : List BlockId := log.filterMap Item.label?

def targets (log : Script) : List BlockId := log.filterMap Item.target?

def allocs (log : Script) : Nat := log.countP fun
  | .alloc => true
  | _ => false

/-- Where a script leads that starts at the entry. -/
def place (log : Script) : Option Place := log.foldl Item.advance (some ⟨Draft.entry, 0⟩)

@[simp] theorem labels_append (log log' : Script) :
    labels (log ++ log') = labels log ++ labels log' := List.filterMap_append

@[simp] theorem targets_append (log log' : Script) :
    targets (log ++ log') = targets log ++ targets log' := List.filterMap_append

@[simp] theorem allocs_append (log log' : Script) :
    allocs (log ++ log') = allocs log + allocs log' := List.countP_append

@[simp] theorem place_concat (log : Script) (item : Item) :
    place (log ++ [item]) = item.advance (place log) := by
  simp [place]

theorem mem_labels {log : Script} {b : BlockId} : b ∈ labels log ↔ Item.label b ∈ log := by
  simp only [labels, List.mem_filterMap]
  constructor
  · rintro ⟨item, hitem, hb⟩
    cases item <;> cases hb
    exact hitem
  · exact fun h => ⟨_, h, rfl⟩

theorem mem_targets {log : Script} {b : BlockId} :
    b ∈ targets log ↔ ∃ op, Item.jump op b ∈ log := by
  simp only [targets, List.mem_filterMap]
  constructor
  · rintro ⟨item, hitem, hb⟩
    cases item <;> cases hb
    exact ⟨_, hitem⟩
  · exact fun ⟨_, h⟩ => ⟨_, h, rfl⟩

/-- A script stands in the entry or behind one of its labels. -/
theorem block_of_place {log : Script} {p : Place} (h : place log = some p) :
    p.block = Draft.entry ∨ p.block ∈ labels log := by
  induction log using List.reverseRecOn generalizing p with
  | nil => exact .inl (Option.some.inj h ▸ rfl)
  | append_singleton log item ih =>
    rw [place_concat] at h
    have hstay (hp : ∃ q, place log = some q ∧ q.block = p.block) :
        p.block = Draft.entry ∨ p.block ∈ labels (log ++ [item]) := by
      obtain ⟨q, hq, hqp⟩ := hp
      rw [labels_append, List.mem_append, ← hqp]
      exact (ih hq).imp_right .inl
    cases item with
    | label b =>
      cases h
      simp [labels, Item.label?]
    | alloc | intern => exact hstay ⟨p, h, rfl⟩
    | emit | named | load | jump =>
      obtain ⟨q, hq, hqp⟩ := Option.bind_eq_some_iff.mp h
      refine hstay ⟨q, hq, ?_⟩
      first
      | cases hqp
        rfl
      | split at hqp
        · cases hqp
        · cases hqp
          rfl

/-- The constants that a script interns. -/
def interned (log : Script) : List Constant :=
  log.filterMap fun
    | .intern c => some c
    | _ => none

end Script

theorem getElem?_of_isPrefix {α : Type} {xs ys : List α} (h : xs <+: ys) {i : Nat} {a : α}
    (ha : xs[i]? = some a) : ys[i]? = some a := by
  obtain ⟨zs, rfl⟩ := h
  rw [List.getElem?_append_left (List.getElem?_eq_some_iff.mp ha).1]
  exact ha

namespace Draft

/-- What does not change while a scope is written. -/
def header (d : Draft) : Draft :=
  { d with
    children := [], constants := .empty, names := .empty, varnames := .empty, blocks := #[],
    current := entry, line := 0, stamped := false }

/-- A draft of the same scope further on: tables of nested scopes are taken from the front, and
entries are added to pools behind. -/
structure Evolves (d d' : Draft) : Prop where
  header : d'.header = d.header
  children : d'.children <:+ d.children
  constants : d.constants.toList <+: d'.constants.toList
  names : d.names.toList <+: d'.names.toList
  varnames : d.varnames.toList <+: d'.varnames.toList

theorem Evolves.refl (d : Draft) : d.Evolves d :=
  ⟨rfl, List.suffix_rfl, List.prefix_rfl, List.prefix_rfl, List.prefix_rfl⟩

theorem Evolves.trans {d d' d'' : Draft} (h : d.Evolves d') (h' : d'.Evolves d'') :
    d.Evolves d'' :=
  ⟨h'.header.trans h.header, h'.children.trans h.children, h.constants.trans h'.constants,
    h.names.trans h'.names, h.varnames.trans h'.varnames⟩

theorem Evolves.keeps {d d' : Draft} (h : d.Evolves d') {α : Type} (f : Draft → α)
    (hf : ∀ d, f d.header = f d) : f d' = f d := by
  rw [← hf d', h.header, hf d]

/-- The table that the operand of an opcode refers to. -/
def operandNames (d : Draft) : Opcode → List String
  | .loadClosure | .loadDeref | .loadClassderef | .storeDeref | .deleteDeref =>
    d.cellvars.toList ++ d.freevars.toList
  | .loadFast | .storeFast | .deleteFast => d.varnames.toList
  | _ => d.names.toList

/-- An item is one that can be added: its operand is a number of what it stands for, and a jump
has a jump's opcode. -/
def Resolves (d : Draft) : Item → Prop
  | .named op arg name => ∃ i, arg = UInt32.ofNat i ∧ (d.operandNames op)[i]? = some name
  | .load arg c => ∃ i, arg = UInt32.ofNat i ∧ d.constants.toList[i]?.map Constant.key = some c.key
  | .jump op _ => op.isJump = true
  | _ => True

theorem Evolves.operandNames {d d' : Draft} (h : d.Evolves d') (op : Opcode) :
    d.operandNames op <+: d'.operandNames op := by
  have hcell : d'.cellvars = d.cellvars := h.keeps Draft.cellvars fun _ => rfl
  have hfree : d'.freevars = d.freevars := h.keeps Draft.freevars fun _ => rfl
  unfold Draft.operandNames
  split
  all_goals first
  | exact h.varnames
  | exact h.names
  | rewrite [hcell, hfree]; exact List.prefix_rfl

theorem Evolves.resolves {d d' : Draft} (h : d.Evolves d') {item : Item} (hi : d.Resolves item) :
    d'.Resolves item := by
  cases item with
  | named op arg name =>
    obtain ⟨i, harg, hname⟩ := hi
    exact ⟨i, harg, getElem?_of_isPrefix (h.operandNames op) hname⟩
  | load arg c =>
    obtain ⟨i, harg, hc⟩ := hi
    obtain ⟨c', hc', hkey⟩ := Option.map_eq_some_iff.mp hc
    exact ⟨i, harg, by rw [getElem?_of_isPrefix h.constants hc']; exact congrArg some hkey⟩
  | jump => exact hi
  | emit | label | alloc | intern => trivial

/-- A script that leads from one draft to another. -/
inductive Writes (d : Draft) : Script → Draft → Prop where
  | nil : Writes d [] d
  /-- Changes of lines and tables of names are not recorded; a new line is yet to be stamped. -/
  | quiet {log : Script} {d₁ d₂ : Draft} : Writes d log d₁ → d₁.Evolves d₂ →
      d₂.blocks = d₁.blocks → d₂.current = d₁.current → d₂.constants = d₁.constants →
      (d₂.stamped = true → d₁.stamped = true ∧ d₂.line = d₁.line) → Writes d log d₂
  | alloc {log : Script} {d₁ : Draft} : Writes d log d₁ → Writes d (log ++ [.alloc]) d₁.newBlock.2
  | label {log : Script} {d₁ : Draft} (b : BlockId) : Writes d log d₁ →
      Writes d (log ++ [.label b]) (d₁.fallInto b)
  | code {log : Script} {d₁ : Draft} {item : Item} {i : Instruction} : Writes d log d₁ →
      item.instruction? = some i → d₁.Resolves item → Writes d (log ++ [item]) (d₁.append i)
  | intern {log : Script} {d₁ : Draft} (c : Constant) : Writes d log d₁ →
      Writes d (log ++ [.intern c]) (d₁.internConstant c).2

theorem Writes.trans {d d₁ d₂ : Draft} {log log' : Script} (h : d.Writes log d₁)
    (h' : d₁.Writes log' d₂) : d.Writes (log ++ log') d₂ := by
  induction h' with
  | nil => simpa using h
  | quiet _ he hb hc hk hs ih => exact .quiet ih he hb hc hk hs
  | alloc _ ih => exact (List.append_assoc ..) ▸ ih.alloc
  | label b _ ih => exact (List.append_assoc ..) ▸ ih.label b
  | code _ hi hr ih => exact (List.append_assoc ..) ▸ ih.code hi hr
  | intern c _ ih => exact (List.append_assoc ..) ▸ ih.intern c

theorem evolves_append (d : Draft) (i : Instruction) : d.Evolves (d.append i) := by
  unfold Draft.append
  split
  · exact .refl d
  · exact ⟨rfl, List.suffix_rfl, List.prefix_rfl, List.prefix_rfl, List.prefix_rfl⟩

theorem evolves_internConstant (d : Draft) (c : Constant) : d.Evolves (d.internConstant c).2 :=
  ⟨rfl, List.suffix_rfl, Pool.toList_prefix_intern _ _, List.prefix_rfl, List.prefix_rfl⟩

theorem resolves_load (d : Draft) (c : Constant) :
    (d.internConstant c).2.Resolves (.load (UInt32.ofNat (d.internConstant c).1) c) :=
  ⟨_, rfl, Pool.getElem?_intern d.constants c⟩

theorem Writes.evolves {d d' : Draft} {log : Script} (h : d.Writes log d') : d.Evolves d' := by
  induction h with
  | nil => exact .refl d
  | quiet _ he _ _ _ _ ih => exact ih.trans he
  | alloc _ ih =>
    exact ih.trans ⟨rfl, List.suffix_rfl, List.prefix_rfl, List.prefix_rfl, List.prefix_rfl⟩
  | label b _ ih =>
    exact ih.trans ⟨rfl, List.suffix_rfl, List.prefix_rfl, List.prefix_rfl, List.prefix_rfl⟩
  | code _ _ _ ih => exact ih.trans (evolves_append _ _)
  | intern c _ ih => exact ih.trans (evolves_internConstant _ c)

@[simp] theorem size_blocks_append (d : Draft) (i : Instruction) :
    (d.append i).blocks.size = d.blocks.size := by
  unfold Draft.append
  split <;> simp

theorem Writes.size_blocks {d d' : Draft} {log : Script} (h : d.Writes log d') :
    d'.blocks.size = d.blocks.size + log.allocs := by
  induction h with
  | nil => rfl
  | quiet _ _ hb _ _ _ ih => rw [hb, ih]
  | alloc _ ih => simp [Draft.newBlock, ih, Script.allocs]; omega
  | label b _ ih => simp [Draft.fallInto, ih, Script.allocs]
  | @code _ _ item _ _ hi _ ih => cases item <;> simp_all [Script.allocs, Item.instruction?]
  | intern c _ ih => simp [Draft.internConstant, ih, Script.allocs]

/-- Constants come into the table by being interned. -/
theorem Writes.mem_constants {d d' : Draft} {log : Script} (h : d.Writes log d') {c : Constant}
    (hc : c ∈ d'.constants.toList) : c ∈ d.constants.toList ∨ Item.intern c ∈ log := by
  induction h with
  | nil => exact .inl hc
  | quiet _ _ _ _ hk _ ih => exact ih (hk ▸ hc)
  | alloc _ ih | label _ _ ih => exact (ih hc).imp_right (List.mem_append_left _)
  | code _ _ _ ih =>
    refine (ih ?_).imp_right (List.mem_append_left _)
    unfold Draft.append at hc
    split at hc <;> exact hc
  | intern k _ ih =>
    simp only [Draft.internConstant, Pool.toList_intern] at hc
    split at hc
    · exact (ih hc).imp_right (List.mem_append_left _)
    · rcases List.mem_append.mp hc with hc | hc
      · exact (ih hc).imp_right (List.mem_append_left _)
      · exact .inr (by simp [List.mem_singleton.mp hc])

/-- The constants of a draft are those that were interned, the first ones first. -/
theorem Writes.constants_eq {d d' : Draft} {log : Script} (h : d.Writes log d') :
    d'.constants = log.interned.foldl (fun p c => (p.intern c).2) d.constants := by
  have hsilent (log : Script) (item : Item) (h : ∀ c, item ≠ .intern c) :
      Script.interned (log ++ [item]) = log.interned := by
    cases item with
    | intern c => exact absurd rfl (h c)
    | _ => simp [Script.interned]
  induction h with
  | nil => rfl
  | quiet _ _ _ _ hk _ ih => rw [hk, ih]
  | alloc _ ih =>
    rw [hsilent _ .alloc fun _ => nofun, ← ih]
    rfl
  | label b _ ih =>
    rw [hsilent _ (.label b) fun _ => nofun, ← ih]
    rfl
  | @code log d₁ item i _ hi _ ih =>
    have hitem (c : Constant) (heq : item = .intern c) : False := by
      rw [heq] at hi
      cases hi
    rw [hsilent _ _ hitem, ← ih, Draft.append]
    split <;> rfl
  | intern c _ ih =>
    simp only [Script.interned, List.filterMap_append, List.foldl_append] at ih ⊢
    rw [← ih]
    rfl

end Draft

/-- Labels are made before control goes on at them, which it does once. -/
structure Script.Fresh (log : Script) : Prop where
  nodup : (Draft.entry :: log.labels).Nodup
  placed : ∀ m b, log[m]? = some (.label b) → b < 1 + allocs (log.take m)

theorem getElem?_concat {α : Type} {xs : List α} {x y : α} {m : Nat}
    (h : (xs ++ [x])[m]? = some y) : xs[m]? = some y ∧ m < xs.length ∨ m = xs.length ∧ y = x := by
  rcases Nat.lt_trichotomy m xs.length with hm | hm | hm
  · rw [List.getElem?_append_left hm] at h
    exact .inl ⟨h, hm⟩
  · subst hm
    rw [List.getElem?_concat_length] at h
    exact .inr ⟨rfl, (Option.some.inj h).symm⟩
  · rw [List.getElem?_eq_none (by simp; omega)] at h
    cases h

theorem Script.Fresh.of_concat {log : Script} {item : Item} (h : Fresh (log ++ [item])) :
    Fresh log := by
  refine ⟨?_, fun m b hb => ?_⟩
  · have := h.nodup
    rw [labels_append, ← List.cons_append] at this
    exact (List.nodup_append.mp this).1
  · have hm := (List.getElem?_eq_some_iff.mp hb).1
    have := h.placed m b (by rw [List.getElem?_append_left hm]; exact hb)
    rwa [List.take_append_of_le_length (Nat.le_of_lt hm)] at this

namespace Draft

theorem block_newBlock (d : Draft) (b : BlockId) : d.newBlock.2.block b = d.block b :=
  getD_push d.blocks b

theorem block_fallInto {d : Draft} (h : d.current < d.blocks.size) (b c : BlockId) :
    (d.fallInto b).block c =
      if c = d.current then { d.currentBlock with next := some b } else d.block c :=
  getD_modify _ _ _ _ h

/-- An instruction as the draft would add it. -/
def stampedWith (d : Draft) (i : Instruction) : Instruction :=
  { i with line := if d.stamped then i.line else d.line }

theorem block_append_eq {d : Draft} (h : d.current < d.blocks.size)
    (hopen : d.currentBlock.terminal = false) (i : Instruction) (c : BlockId) :
    (d.append i).block c =
      if c = d.current then d.currentBlock.push (d.stampedWith i) else d.block c := by
  have hline : (if d.stamped then i else { i with line := d.line }) = d.stampedWith i := by
    unfold stampedWith
    split <;> rfl
  simp only [Draft.append, hopen, Bool.false_eq_true, if_false, hline]
  exact getD_modify _ _ _ _ h

theorem block_append {d : Draft} (h : d.current < d.blocks.size)
    (hopen : d.currentBlock.terminal = false) (i : Instruction) : ∃ line, ∀ c,
      (d.append i).block c =
        if c = d.current then d.currentBlock.push { i with line := line } else d.block c :=
  ⟨_, block_append_eq h hopen i⟩

/-- The graph of a draft is what a script says: an instruction stands where the script leads
before it, there are no others, and a label is what the block before it falls through to. -/
structure Traces (d : Draft) (log : Script) : Prop where
  current_lt : d.current < d.blocks.size
  current_mem : d.current ∈ entry :: log.labels
  place_eq : log.place = if d.currentBlock.terminal then none
    else some ⟨d.current, d.currentBlock.instructions.size⟩
  untouched : ∀ b, b ∉ entry :: log.labels → d.block b = {}
  code : ∀ m item i p, log[m]? = some item → item.instruction? = some i →
    Script.place (log.take m) = some p →
    ∃ line, Graph.instruction? d.blocks p = some { i with line := line }
  falls : ∀ m b p, log[m]? = some (.label b) → Script.place (log.take m) = some p →
    p.block ≠ d.current ∧ (d.block p.block).instructions.size = p.index ∧
      (d.block p.block).terminal = false ∧ (d.block p.block).next = some b
  covered : ∀ p i, Graph.instruction? d.blocks p = some i → ∃ m item, log[m]? = some item ∧
    item.instruction? = some { i with line := 0 } ∧ Script.place (log.take m) = some p
  linked : ∀ b ∈ entry :: log.labels, b ≠ d.current → (d.block b).next ≠ none
  next_mem : ∀ b n, (d.block b).next = some n → n ∈ log.labels

theorem Traces.congr {d d' : Draft} {log : Script} (h : d.Traces log)
    (hblocks : d'.blocks = d.blocks) (hcurrent : d'.current = d.current) : d'.Traces log := by
  have hblock (b : BlockId) : d'.block b = d.block b := congrArg (·.getD b {}) hblocks
  have hnow : d'.currentBlock = d.currentBlock := by
    rw [Draft.currentBlock, hblock, hcurrent]
    rfl
  refine ⟨by rw [hblocks, hcurrent]; exact h.current_lt, by rw [hcurrent]; exact h.current_mem,
    by rw [hnow, hcurrent]; exact h.place_eq, ?_, by rw [hblocks]; exact h.code, ?_,
    by rw [hblocks]; exact h.covered, ?_, ?_⟩
  · simpa only [hblock] using h.untouched
  · simpa only [hblock, hcurrent] using h.falls
  · simpa only [hblock, hcurrent] using h.linked
  · simpa only [hblock] using h.next_mem

/-- An item that is no instruction and no label changes nothing that a script says. -/
theorem Traces.silent {d d' : Draft} {log : Script} {item : Item} (h : d.Traces log)
    (hinstr : item.instruction? = none) (hlabel : item.label? = none)
    (hblock : ∀ b, d'.block b = d.block b) (hsize : d.blocks.size ≤ d'.blocks.size)
    (hcurrent : d'.current = d.current) : d'.Traces (log ++ [item]) := by
  have hlabels : Script.labels (log ++ [item]) = log.labels := by simp [Script.labels, hlabel]
  have hplace : Script.place (log ++ [item]) = log.place := by
    rw [Script.place_concat]
    cases item <;> simp_all [Item.advance, Item.instruction?, Item.label?]
  have hgraph (p : Place) : Graph.instruction? d'.blocks p = Graph.instruction? d.blocks p :=
    congrArg (·.instructions[p.index]?) (hblock p.block)
  have hold {m : Nat} {x : Item} (hx : (log ++ [item])[m]? = some x) (hne : x ≠ item) :
      log[m]? = some x ∧ (log ++ [item]).take m = log.take m := by
    rcases getElem?_concat hx with ⟨hx, hm⟩ | ⟨_, rfl⟩
    · exact ⟨hx, List.take_append_of_le_length (Nat.le_of_lt hm)⟩
    · exact absurd rfl hne
  refine ⟨by rw [hcurrent]; exact Nat.lt_of_lt_of_le h.current_lt hsize, ?_, ?_, ?_, ?_, ?_, ?_, ?_, ?_⟩
  · rw [hcurrent, hlabels]
    exact h.current_mem
  · rw [hplace, Draft.currentBlock, hblock, hcurrent]
    exact h.place_eq
  · intro b hb
    rw [hblock]
    exact h.untouched b (hlabels ▸ hb)
  · intro m x i p hx hi hp
    obtain ⟨hx, htake⟩ := hold hx (by rintro rfl; rw [hinstr] at hi; cases hi)
    rw [hgraph]
    exact h.code m x i p hx hi (htake ▸ hp)
  · intro m b p hx hp
    obtain ⟨hx, htake⟩ := hold hx (by rintro rfl; cases hlabel)
    rw [hblock, hcurrent]
    exact h.falls m b p hx (htake ▸ hp)
  · intro p i hi
    rw [hgraph] at hi
    obtain ⟨m, x, hx, hxi, hp⟩ := h.covered p i hi
    have hm := (List.getElem?_eq_some_iff.mp hx).1
    refine ⟨m, x, ?_, hxi, ?_⟩
    · rw [List.getElem?_append_left hm]
      exact hx
    · rw [List.take_append_of_le_length (Nat.le_of_lt hm)]
      exact hp
  · intro b hb hne
    rw [hblock]
    exact h.linked b (hlabels ▸ hb) (hcurrent ▸ hne)
  · intro b n hn
    rw [hlabels]
    exact h.next_mem b n (hblock b ▸ hn)

theorem Traces.label {d : Draft} {log : Script} {b : BlockId} (h : d.Traces log)
    (hb : b ∉ entry :: log.labels) (hlt : b < d.blocks.size) :
    (d.fallInto b).Traces (log ++ [.label b]) := by
  have hlabels : Script.labels (log ++ [.label b]) = log.labels ++ [b] := by
    simp [Script.labels, Item.label?]
  have hne : b ≠ d.current := fun heq => hb (heq ▸ h.current_mem)
  have hblock := block_fallInto h.current_lt b
  have hinstrs (c : BlockId) : ((d.fallInto b).block c).instructions = (d.block c).instructions := by
    rw [hblock]
    split
    · next hc => rw [hc, currentBlock]
    · rfl
  have hgraph (p : Place) :
      Graph.instruction? (d.fallInto b).blocks p = Graph.instruction? d.blocks p :=
    congrArg (·[p.index]?) (hinstrs p.block)
  have hmem {c : BlockId} : c ∈ entry :: Script.labels (log ++ [.label b]) ↔
      c ∈ entry :: log.labels ∨ c = b := by
    rw [hlabels, ← List.cons_append, List.mem_append, List.mem_singleton]
  have hempty : (d.fallInto b).block b = {} := by
    rw [hblock, if_neg hne]
    exact h.untouched b hb
  refine ⟨by simpa [Draft.fallInto] using hlt, hmem.mpr (.inr rfl), ?_, ?_, ?_, ?_, ?_, ?_, ?_⟩
  · rw [Script.place_concat, Draft.currentBlock, show (d.fallInto b).current = b from rfl, hempty]
    rfl
  · intro c hc
    have hc' : c ∉ entry :: log.labels := fun hin => hc (hmem.mpr (.inl hin))
    rw [hblock, if_neg (by rintro rfl; exact hc' h.current_mem)]
    exact h.untouched c hc'
  · intro m x i p hx hi hp
    rw [hgraph]
    rcases getElem?_concat hx with ⟨hx, hm⟩ | ⟨_, rfl⟩
    · rw [List.take_append_of_le_length (Nat.le_of_lt hm)] at hp
      exact h.code m x i p hx hi hp
    · cases hi
  · intro m c p hx hp
    rcases getElem?_concat hx with ⟨hx, hm⟩ | ⟨hm, hc⟩
    · rw [List.take_append_of_le_length (Nat.le_of_lt hm)] at hp
      obtain ⟨hcur, hfalls⟩ := h.falls m c p hx hp
      rw [hblock, if_neg hcur]
      refine ⟨fun heq => hb ?_, hfalls⟩
      -- the block left at a label was gone on at before
      rw [← show p.block = b from heq]
      rcases Script.block_of_place hp with he | he
      · rw [he]
        exact List.mem_cons_self
      · refine List.mem_cons_of_mem _ ?_
        exact ((List.take_sublist m log).filterMap Item.label?).subset he
    · cases hc
      subst hm
      rw [List.take_left', h.place_eq] at hp
      · split at hp
        · cases hp
        · next hopen =>
          cases hp
          refine ⟨hne.symm, ?_⟩
          rw [hblock, if_pos rfl]
          exact ⟨rfl, Bool.eq_false_iff.mpr hopen, rfl⟩
      · rfl
  · intro p i hi
    rw [hgraph] at hi
    obtain ⟨m, x, hx, hxi, hp⟩ := h.covered p i hi
    have hm := (List.getElem?_eq_some_iff.mp hx).1
    refine ⟨m, x, ?_, hxi, ?_⟩
    · rw [List.getElem?_append_left hm]
      exact hx
    · rw [List.take_append_of_le_length (Nat.le_of_lt hm)]
      exact hp
  · intro c hc hcur
    rw [hblock]
    split
    · simp
    · next hold => exact h.linked c ((hmem.mp hc).resolve_right hcur) hold
  · intro c n hn
    rw [hlabels, List.mem_append, List.mem_singleton]
    rw [hblock] at hn
    split at hn
    · exact .inr (Option.some.inj hn).symm
    · exact .inl (h.next_mem c n hn)

theorem Traces.code_append {d : Draft} {log : Script} {item : Item} {i : Instruction}
    (h : d.Traces log) (hi : item.instruction? = some i) :
    (d.append i).Traces (log ++ [item]) := by
  have hlabels : Script.labels (log ++ [item]) = log.labels := by
    simp [Script.labels, Item.label?_of_instruction hi]
  have hplace := Script.place_concat log item
  rw [Item.advance_of_instruction hi, h.place_eq] at hplace
  have hold {m : Nat} (hm : m ≤ log.length) : (log ++ [item]).take m = log.take m :=
    List.take_append_of_le_length hm
  by_cases hterm : d.currentBlock.terminal = true
  · -- nothing leads here, and the instruction is dropped
    have hsame : d.append i = d := by simp [Draft.append, hterm]
    rw [if_pos hterm] at hplace
    rw [hsame]
    refine ⟨h.current_lt, by rw [hlabels]; exact h.current_mem, by rw [if_pos hterm]; exact hplace,
      by rw [hlabels]; exact h.untouched, ?_, ?_, ?_, by rw [hlabels]; exact h.linked,
      by rw [hlabels]; exact h.next_mem⟩
    · intro m x j p hx hj hp
      rcases getElem?_concat hx with ⟨hx, hm⟩ | ⟨rfl, rfl⟩
      · exact h.code m x j p hx hj (hold (Nat.le_of_lt hm) ▸ hp)
      · rw [hold (Nat.le_refl _), List.take_length, h.place_eq, if_pos hterm] at hp
        cases hp
    · intro m b p hx hp
      rcases getElem?_concat hx with ⟨hx, hm⟩ | ⟨rfl, rfl⟩
      · exact h.falls m b p hx (hold (Nat.le_of_lt hm) ▸ hp)
      · cases hi
    · intro p j hj
      obtain ⟨m, x, hx, hxj, hp⟩ := h.covered p j hj
      have hm := (List.getElem?_eq_some_iff.mp hx).1
      exact ⟨m, x, by rw [List.getElem?_append_left hm]; exact hx, hxj,
        by rw [hold (Nat.le_of_lt hm)]; exact hp⟩
  · have hopen : d.currentBlock.terminal = false := Bool.eq_false_iff.mpr hterm
    obtain ⟨line, hblock⟩ := block_append h.current_lt hopen i
    have hcur : (d.append i).current = d.current := by simp [Draft.append, hopen]
    have hgraph (p : Place) : Graph.instruction? (d.append i).blocks p =
        if p = ⟨d.current, d.currentBlock.instructions.size⟩ then some { i with line := line }
        else Graph.instruction? d.blocks p := by
      have hb := congrArg (·.instructions[p.index]?) (hblock p.block)
      refine hb.trans ?_
      obtain ⟨c, k⟩ := p
      by_cases hc : c = d.current
      · subst hc
        simp [Block.push, Array.getElem?_push, Graph.instruction?, Draft.currentBlock, block_eq]
      · simp [hc, Graph.instruction?, block_eq]
    rw [if_neg hterm] at hplace
    have hhere : Graph.instruction? d.blocks ⟨d.current, d.currentBlock.instructions.size⟩ = none := by
      simp [Graph.instruction?, Draft.currentBlock, block_eq]
    refine ⟨by simpa [hcur] using h.current_lt, by rw [hcur, hlabels]; exact h.current_mem,
      ?_, ?_, ?_, ?_, ?_, ?_, ?_⟩
    · have hnow : (d.append i).currentBlock = d.currentBlock.push { i with line := line } := by
        rw [Draft.currentBlock, hcur, hblock, if_pos rfl]
      rw [hplace, hnow, hcur]
      simp [Block.push, hopen]
    · intro b hb
      rw [hlabels] at hb
      rw [hblock, if_neg (by rintro rfl; exact hb h.current_mem)]
      exact h.untouched b hb
    · intro m x j p hx hj hp
      rw [hgraph]
      rcases getElem?_concat hx with ⟨hx, hm⟩ | ⟨rfl, rfl⟩
      · rw [hold (Nat.le_of_lt hm)] at hp
        obtain ⟨l, hl⟩ := h.code m x j p hx hj hp
        rw [if_neg (by rintro rfl; rw [hhere] at hl; cases hl)]
        exact ⟨l, hl⟩
      · rw [hold (Nat.le_refl _), List.take_length, h.place_eq, if_neg hterm] at hp
        cases hp
        rw [hi] at hj
        cases hj
        exact ⟨line, if_pos rfl⟩
    · intro m b p hx hp
      rcases getElem?_concat hx with ⟨hx, hm⟩ | ⟨rfl, rfl⟩
      · rw [hold (Nat.le_of_lt hm)] at hp
        have hfalls := h.falls m b p hx hp
        rw [hcur, hblock, if_neg hfalls.1]
        exact hfalls
      · cases hi
    · intro p j hj
      rw [hgraph] at hj
      split at hj
      · next heq =>
        cases hj
        refine ⟨log.length, item, by simp, ?_, ?_⟩
        · cases item <;> cases hi <;> rfl
        · rw [hold (Nat.le_refl _), List.take_length, h.place_eq, if_neg hterm, heq]
      · obtain ⟨m, x, hx, hxj, hp⟩ := h.covered p j hj
        have hm := (List.getElem?_eq_some_iff.mp hx).1
        exact ⟨m, x, by rw [List.getElem?_append_left hm]; exact hx, hxj,
          by rw [hold (Nat.le_of_lt hm)]; exact hp⟩
    · intro b hb hne
      rw [hcur] at hne
      rw [hblock, if_neg hne]
      exact h.linked b (hlabels ▸ hb) hne
    · intro b n hn
      rw [hlabels]
      rw [hblock] at hn
      split at hn
      · exact h.next_mem d.current n hn
      · exact h.next_mem b n hn

theorem traces_ofTable (name qualname : String) (t : ScopeTable) (serial firstLine : UInt32)
    (nested : Bool) : (ofTable name qualname t serial firstLine nested).Traces [] := by
  have hempty (b : BlockId) : (ofTable name qualname t serial firstLine nested).block b = {} := by
    cases b <;> simp [Draft.block, ofTable]
  refine ⟨by simp [ofTable, entry], List.mem_cons_self, ?_, fun b _ => hempty b, ?_, ?_, ?_, ?_, ?_⟩
  · rw [Draft.currentBlock, hempty]
    rfl
  · intro m item i p hx
    simp at hx
  · intro m b p hx
    simp at hx
  · intro p i hi
    rw [Graph.instruction?, ← block_eq, hempty] at hi
    simp at hi
  · intro b hb hne
    exact absurd (show b = entry by simpa [Script.labels] using hb) hne
  · intro b n hn
    rw [hempty] at hn
    cases hn

/-- A fresh draft becomes what the script written to it says. -/
theorem Writes.traces {name qualname : String} {t : ScopeTable} {serial firstLine : UInt32}
    {nested : Bool} {log : Script} {d : Draft}
    (h : (ofTable name qualname t serial firstLine nested).Writes log d) (hlog : log.Fresh) :
    d.Traces log := by
  induction h with
  | nil => exact traces_ofTable ..
  | quiet _ _ hblocks hcurrent _ _ ih =>
    exact (ih hlog).congr hblocks hcurrent
  | alloc _ ih =>
    exact (ih hlog.of_concat).silent rfl rfl (block_newBlock _) (by simp [Draft.newBlock]) rfl
  | @label log d₁ b hw ih =>
    have hplaced := hlog.placed log.length b List.getElem?_concat_length
    rw [List.take_left' rfl] at hplaced
    have hsize : d₁.blocks.size = 1 + log.allocs := hw.size_blocks
    refine (ih hlog.of_concat).label (fun hb => ?_) (hsize ▸ hplaced)
    have hnodup := hlog.nodup
    rw [Script.labels_append, ← List.cons_append] at hnodup
    exact (List.nodup_append.mp hnodup).2.2 b hb b List.mem_cons_self rfl
  | code _ hi _ ih => exact (ih hlog.of_concat).code_append hi
  | intern c _ ih => exact (ih hlog.of_concat).silent rfl rfl (fun _ => rfl) (Nat.le_refl _) rfl

end Draft
end Wordcode
