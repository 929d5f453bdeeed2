import Wordcode.Proofs.Chain
import Wordcode.Proofs.Discipline
import Wordcode.Proofs.EnteringStmt
import Wordcode.Proofs.ScopeTree
import Wordcode.Proofs.Unreached

/-!
# Code behind a return

Behind a statement that returns or raises the current block is closed. What is compiled from there
on goes into new blocks, which nothing before leads to, or is dropped; names and constants get
into their tables behind those that are there. So the code object of a body is that of its
statements up to the first such one, but for entries at the ends of its tables.
-/

set_option autoImplicit false

namespace Wordcode

open Build

theorem Script.labels_closing (n : Nat) (addNone : Bool) (arg : UInt32) :
    labels (closing n addNone arg) = [n] := by
  cases addNone <;> rfl

namespace Draft

/-- The draft has a larger graph than `g`, and stands where nothing gets into the blocks of `g`. -/
structure Beyond (g : Graph) (d : Draft) : Prop where
  graph : g.Extends d.blocks
  current : g.size ≤ d.current ∨ d.currentBlock.terminal = true

variable {g : Graph} {d d' : Draft}

theorem Beyond.congr (h : Beyond g d) (hblocks : d'.blocks = d.blocks)
    (hcurrent : d'.current = d.current) : Beyond g d' := by
  have hblock : d'.currentBlock = d.currentBlock := by
    rw [currentBlock, block, hblocks, hcurrent]
    rfl
  exact ⟨hblocks ▸ h.graph, by rw [hblock, hcurrent]; exact h.current⟩

theorem Beyond.newBlock (h : Beyond g d) : Beyond g d.newBlock.2 := by
  have hblock (b : BlockId) : Graph.block d.newBlock.2.blocks b = Graph.block d.blocks b :=
    block_newBlock d b
  refine ⟨⟨?_, fun b hb => ?_, fun b hb => ?_⟩, h.current.imp_right fun hterm => ?_⟩
  · exact Nat.le_trans h.graph.size_le (by simp [Draft.newBlock])
  · rw [hblock, h.graph.instructions b hb]
  · rw [hblock, h.graph.exit b hb]
  · exact (congrArg Block.terminal (block_newBlock d d.current)).trans hterm

/-- The block left may be one of the old ones, but then it is closed. -/
theorem Beyond.fallInto (h : Beyond g d) {b : BlockId} (hb : g.size ≤ b) :
    Beyond g (d.fallInto b) := by
  have hother {c : BlockId} (hc : c ≠ d.current) : (d.fallInto b).block c = d.block c := by
    simp only [Draft.fallInto, block, Array.getD_eq_getD_getElem?, Array.getElem?_modify,
      if_neg (Ne.symm hc)]
  have hold {c : BlockId} (hc : c < g.size) :
      ((d.fallInto b).block c).instructions = (d.block c).instructions ∧
        ((d.fallInto b).block c).exit? = (d.block c).exit? := by
    by_cases hcur : c = d.current
    · subst hcur
      have hterm : d.currentBlock.terminal = true :=
        h.current.resolve_left (Nat.not_le_of_lt hc)
      have hlt : d.current < d.blocks.size := Nat.lt_of_lt_of_le hc h.graph.size_le
      rw [block_fallInto hlt, if_pos rfl]
      refine ⟨rfl, ?_⟩
      have hclosed {blk : Block} (hblk : blk.terminal = true) : blk.exit? = none := by
        simp [Block.exit?, hblk]
      rw [hclosed (by exact hterm), hclosed (by exact hterm)]
    · rw [hother hcur]
      exact ⟨rfl, rfl⟩
  refine ⟨⟨?_, fun c hc => ?_, fun c hc => ?_⟩, .inl hb⟩
  · simpa [Draft.fallInto] using h.graph.size_le
  · exact (hold hc).1.trans (h.graph.instructions c hc)
  · exact (hold hc).2.trans (h.graph.exit c hc)

theorem Beyond.append (h : Beyond g d) (i : Instruction) : Beyond g (d.append i) := by
  by_cases hterm : d.currentBlock.terminal = true
  · rw [show d.append i = d by simp [Draft.append, hterm]]
    exact h
  · have hcur := h.current.resolve_right hterm
    have hcurrent : (d.append i).current = d.current := by simp [Draft.append, hterm]
    have hold {c : BlockId} (hc : c < g.size) : (d.append i).block c = d.block c := by
      have hne : d.current ≠ c := by
        rintro rfl
        exact Nat.not_le_of_lt hc hcur
      simp [Draft.append, hterm, block, Array.getElem?_modify, hne]
    refine ⟨⟨?_, fun c hc => ?_, fun c hc => ?_⟩, .inl (hcurrent ▸ hcur)⟩
    · rw [size_blocks_append]
      exact h.graph.size_le
    · exact (congrArg Block.instructions (hold hc)).trans (h.graph.instructions c hc)
    · exact (congrArg Block.exit? (hold hc)).trans (h.graph.exit c hc)

/-- A script that goes on at new labels only leaves the old blocks as they are. -/
theorem Beyond.writes (h : Beyond g d) {log : Script} (hw : d.Writes log d')
    (hlabels : ∀ b ∈ log.labels, g.size ≤ b) : Beyond g d' := by
  induction hw with
  | nil => exact h
  | quiet _ _ hblocks hcurrent _ _ ih => exact (ih hlabels).congr hblocks hcurrent
  | alloc _ ih => exact (ih fun b hb => hlabels b (by simp [hb])).newBlock
  | label b _ ih =>
    exact (ih fun c hc => hlabels c (by simp [hc])).fallInto
      (hlabels b (by simp [Script.labels, Item.label?]))
  | code _ _ _ ih => exact (ih fun b hb => hlabels b (by simp [hb])).append _
  | intern c _ ih => exact (ih fun b hb => hlabels b (by simp [hb])).congr rfl rfl

/-- The blocks laid out are those of the script before. -/
theorem Writes.layout_append {name qualname : String} {t : ScopeTable} {serial firstLine : UInt32}
    {nested : Bool} {log tail : Script}
    (h : (ofTable name qualname t serial firstLine nested).Writes log d)
    (hlog : log.Sound d.blocks.size)
    (h' : (ofTable name qualname t serial firstLine nested).Writes (log ++ tail) d')
    (hlog' : Script.Sound d'.blocks.size (log ++ tail)) (hext : Graph.Extends d.blocks d'.blocks)
    (htail : ∀ b ∈ tail.labels, d.blocks.size ≤ b) :
    layout d'.blocks (reachable d'.blocks entry) entry =
      layout d.blocks (reachable d.blocks entry) entry := by
  have hsound := h.sound hlog
  have hentry : entry < d.blocks.size := Nat.lt_of_le_of_lt (Nat.zero_le _) hsound.current_lt
  have hmarked (b : BlockId) :=
    hext.marked_iff (b := b) hsound.graph (h'.sound hlog').graph hentry
  have hlive (b : BlockId) : (reachable d'.blocks entry).getD b false =
      (reachable d.blocks entry).getD b false := by
    rw [Bool.eq_iff_iff, ← marked_iff_getD, ← marked_iff_getD]
    exact hmarked b
  have hnone : tail.labels.filter ((reachable d.blocks entry).getD · false) = [] := by
    refine List.filter_eq_nil_iff.mpr fun b hb hlive => ?_
    have hreach := (marked_reachable_iff hsound.graph hentry b).mp (marked_iff_getD.mpr hlive)
    exact Nat.not_lt_of_le (htail b hb) (hreach.lt hsound.graph hentry)
  rw [(h.layout_eq hlog).1, (h'.layout_eq hlog').1, Script.labels_append, ← List.cons_append,
    List.filter_append]
  simp only [hlive, hnone, List.append_nil]

end Draft

/-- A statement that returns or raises. -/
def Stmt.isExit : Stmt → Bool
  | .ret .. | .raise .. => true
  | _ => false

namespace Build

variable {α : Type}

/-- A build that leaves a closed block behind, if there is a block at all. -/
def Closes (b : Build Unit) : Prop :=
  ∀ s s', b s = .ok () s' → s'.draft.current < s'.draft.blocks.size →
    s'.draft.currentBlock.terminal = true

theorem Closes.after {f : α → Build Unit} (h : ∀ a, Closes (f a)) (b : Build α) :
    Closes (b >>= f) := by
  intro s s' hrun
  obtain ⟨a, s₁, _, hf⟩ := of_bind_ok hrun
  exact h a s₁ s' hf

theorem Closes.ite {c : Prop} [Decidable c] {b b' : Build Unit} (h : Closes b) (h' : Closes b') :
    Closes (if c then b else b') := by
  split
  · exact h
  · exact h'

theorem closes_emitArg {op : Opcode} (hop : op.isTerminal = true) (arg : UInt32) :
    Closes (emitArg op arg) := by
  intro s s' hrun hlt
  rw [of_emitArg_ok hrun] at hlt ⊢
  by_cases hterm : s.draft.currentBlock.terminal = true
  · rw [show s.draft.append _ = s.draft by simp [Draft.append, hterm]]
    exact hterm
  · have hopen := Bool.eq_false_iff.mpr hterm
    have hcurrent : (s.draft.append ⟨op, arg, none, 0⟩).current = s.draft.current := by
      simp [Draft.append, hopen]
    rw [hcurrent, Draft.size_blocks_append] at hlt
    rw [Draft.currentBlock, hcurrent, Draft.block_append_eq hlt hopen, if_pos rfl]
    simp [Block.push, Draft.stampedWith, hop]

theorem closes_raiseStatement (filename : String) (exc cause : Option Expr) :
    Closes (raiseStatement filename exc cause) := by
  have hraise (arg : UInt32) : Closes (emitArg .raiseVarargs arg) := closes_emitArg rfl arg
  unfold raiseStatement
  split
  · exact hraise 0
  · exact .after (fun _ => hraise 1) _
  · exact .after (fun _ => .after (fun _ => hraise 2) _) _

end Build

theorem Stmt.closes (o : Options) (frames : List Frame) {s : Stmt} (hs : s.isExit = true) :
    Closes (Stmt.lower o frames s) := by
  intro st st' hrun
  have hleave {α β : Type} (b : Build α) (b' : Build β) :
      Closes (b >>= fun _ => b' >>= fun _ => emit .returnValue) :=
    .after (fun _ => .after (fun _ => closes_emitArg rfl 0) b') b
  cases s with
  | ret line e =>
    rw [Stmt.lower, inStatement_run_ok] at hrun
    refine Closes.after (fun own => ?_) _ _ st' hrun
    cases e with
    | none => exact .ite (.after (fun _ => hleave _ _) _) (hleave _ _)
    | some e =>
      exact .ite (.after (fun _ => .ite (hleave _ _) (hleave _ _)) _)
        (.ite (hleave _ _) (hleave _ _))
  | raise line exc cause =>
    rw [Stmt.lower, inStatement_run_ok] at hrun
    exact closes_raiseStatement o.filename exc cause _ st' hrun
  | _ => cases hs

theorem Stmt.lowerAll_append (o : Options) (frames : List Frame) (ss ss' : List Stmt) :
    Stmt.lowerAll o frames (ss ++ ss') =
      (Stmt.lowerAll o frames ss >>= fun _ => Stmt.lowerAll o frames ss') := by
  induction ss with
  | nil =>
    rw [Stmt.lowerAll, pure_bind]
    rfl
  | cons s ss ih =>
    rw [List.cons_append, Stmt.lowerAll, ih, Stmt.lowerAll, bind_assoc]

theorem Stmt.closesAll (o : Options) (frames : List Frame) (ss : List Stmt) {s : Stmt}
    (hs : s.isExit = true) : Closes (Stmt.lowerAll o frames (ss ++ [s])) := by
  have hlast : Closes (Stmt.lowerAll o frames [s]) := by
    rw [Stmt.lowerAll, Stmt.lowerAll]
    change Closes (Stmt.lower o frames s >>= pure)
    rw [bind_pure]
    exact Stmt.closes o frames hs
  rw [Stmt.lowerAll_append]
  exact .after (fun _ => hlast) _

theorem docstring?_append {body : List Stmt} (hbody : body ≠ []) (dead : List Stmt) :
    docstring? (body ++ dead) = docstring? body := by
  cases body with
  | nil => exact absurd rfl hbody
  | cons s body =>
    have hhead (rest : List Stmt) : docstring? (s :: rest) = docstring? [s] := by
      cases s with
      | expr line e =>
        cases e with
        | constant line c => cases c <;> rfl
        | _ => rfl
      | _ => rfl
    exact (hhead (body ++ dead)).trans (hhead body).symm

theorem keptDocstring?_append (o : Options) {body : List Stmt} (hbody : body ≠ [])
    (dead : List Stmt) : keptDocstring? o (body ++ dead) = keptDocstring? o body := by
  simp only [keptDocstring?, docstring?_append hbody]

theorem withoutDocstring_append (o : Options) {body : List Stmt} (hbody : body ≠ [])
    (dead : List Stmt) : withoutDocstring o (body ++ dead) = withoutDocstring o body ++ dead := by
  rw [withoutDocstring, withoutDocstring, keptDocstring?_append o hbody]
  split
  · exact List.tail_append_of_ne_nil hbody
  · rfl

/-- A statement that returns is no docstring. -/
theorem exists_withoutDocstring_exit (o : Options) (pre : List Stmt) {t : Stmt}
    (ht : t.isExit = true) : ∃ pre', withoutDocstring o (pre ++ [t]) = pre' ++ [t] := by
  by_cases hpre : pre = []
  · subst hpre
    have hnone : docstring? [t] = none := by cases t <;> first | rfl | cases ht
    exact ⟨[], by simp [withoutDocstring, keptDocstring?, hnone]⟩
  · exact ⟨_, withoutDocstring_append o hpre [t]⟩

theorem Body.build_append (o : Options) {body : List Stmt} (hbody : body ≠ []) (dead : List Stmt) :
    (Body.function (body ++ dead)).build o =
      ((Body.function body).build o >>= fun r => Stmt.lowerAll o [] dead >>= fun _ => pure r) := by
  simp only [Body.build, keptDocstring?_append o hbody, withoutDocstring_append o hbody,
    Stmt.lowerAll_append, bind_assoc, pure_bind]

/-- The same code with tables of constants and names that may have more entries. -/
structure CodeObject.Extends (c c' : CodeObject) : Prop where
  code : c'.code = c.code
  lines : c'.lines = c.lines
  stackSize : c'.stackSize = c.stackSize
  firstLine : c'.firstLine = c.firstLine
  flags : c'.flags = c.flags
  argCount : c'.argCount = c.argCount
  posonlyCount : c'.posonlyCount = c.posonlyCount
  kwonlyCount : c'.kwonlyCount = c.kwonlyCount
  constants : c.constants <+: c'.constants
  names : c.names <+: c'.names
  varnames : c.varnames <+: c'.varnames

namespace Draft

theorem Beyond.close {g : Graph} {d : Draft} (h : Beyond g d) (a : Bool) :
    Beyond g (d.close a) := by
  have hnil : d.Writes [] d := .nil
  rcases hnil.close a with ⟨_, hw⟩ | ⟨_, arg, hw⟩
  · exact h.writes hw nofun
  · refine h.writes hw fun b hb => ?_
    rw [List.nil_append, Script.labels_closing, List.mem_singleton] at hb
    exact hb ▸ h.graph.size_le

/-- What is written behind a closed block, at new labels only, is not seen in the code. It does not
matter which tables of nested scopes are at hand there. -/
theorem extends_of_finish {name qualname : String} {t : ScopeTable} {serial firstLine : UInt32}
    {nested : Bool} {d d' : Draft} {extra : List ScopeTable} {log tail : Script} {a : Bool}
    {filename : String} {c c' : CodeObject}
    (hw : (ofTable name qualname t serial firstLine nested).Writes log { d with children := extra })
    (hlog : log.Sound d.blocks.size) (hclosed : d.currentBlock.terminal = true)
    (hw' : { d with children := extra }.Writes tail d')
    (hlog' : Script.Sound d'.blocks.size (log ++ tail))
    (htail : ∀ b ∈ tail.labels, d.blocks.size ≤ b) (hc : d.finish a filename = .ok c)
    (hc' : d'.finish a filename = .ok c') : c.Extends c' := by
  have hclose : d.close a = d := by simp [Draft.close, hclosed]
  have hbeyond : Beyond d.blocks { d with children := extra } := ⟨.refl _, .inr hclosed⟩
  have hext : Graph.Extends d.blocks (d'.close a).blocks := ((hbeyond.writes hw' htail).close a).graph
  have hevolves := hw'.evolves.trans (d'.evolves_close a)
  have hsound := hw.sound hlog
  obtain ⟨rest, hrest, hlogs, _, hends⟩ := (hw.trans hw').exists_closed hlog' a
  have hlabels (b : BlockId) (hb : b ∈ Script.labels (tail ++ rest)) : d.blocks.size ≤ b := by
    rw [Script.labels_append, List.mem_append] at hb
    rcases hb with hb | hb
    · exact htail b hb
    · rcases hends with rfl | ⟨arg, rfl⟩
      · cases hb
      · rw [Script.labels_closing, List.mem_singleton, hw'.size_blocks] at hb
        exact hb ▸ Nat.le_add_right _ _
  rw [List.append_assoc] at hrest hlogs
  have hlayout := hw.layout_append hlog hrest hlogs hext hlabels
  have hassemble := of_finish_ok hc
  have hassemble' := of_finish_ok hc'
  obtain ⟨hcode, hlines, hstack, hfirst⟩ := assemble_eq_of_extends (a := a) (hclose.symm ▸ hext)
    (hclose.symm ▸ ⟨hsound.graph, hsound.current_lt⟩)
    (hclose.symm ▸ hevolves.keeps Draft.firstLine fun _ => rfl) (hclose.symm ▸ hlayout) hassemble
    hassemble'
  obtain ⟨_, _, _, _, _, _, _, _, _, _, _, _, hconstants, hnames, hvarnames, _⟩ :=
    assemble_eq_ok hassemble
  obtain ⟨_, _, _, _, _, _, _, _, _, _, _, _, hconstants', hnames', hvarnames', _⟩ :=
    assemble_eq_ok hassemble'
  have hkeeps {α : Type} (f : Draft → α) (hf : ∀ d, f d.header = f d) : f d' = f d :=
    (hw'.evolves.keeps f hf).trans ((hf _).symm.trans (hf d))
  have hinherits := inherits_of_finish hc
  have hinherits' := inherits_of_finish hc'
  exact {
    code := hcode
    lines := hlines
    stackSize := hstack
    firstLine := hfirst
    flags := by rw [hinherits'.flags, hinherits.flags, hkeeps Draft.flags fun _ => rfl]
    argCount := by rw [hinherits'.argCount, hinherits.argCount, hkeeps Draft.argCount fun _ => rfl]
    posonlyCount := by
      rw [hinherits'.posonlyCount, hinherits.posonlyCount, hkeeps Draft.posonlyCount fun _ => rfl]
    kwonlyCount := by
      rw [hinherits'.kwonlyCount, hinherits.kwonlyCount, hkeeps Draft.kwonlyCount fun _ => rfl]
    constants := by rw [hconstants', hconstants, hclose]; exact hevolves.constants
    names := by rw [hnames', hnames, hclose]; exact hevolves.names
    varnames := by rw [hvarnames', hvarnames, hclose]; exact hevolves.varnames }

end Draft

/-- The table of a scope in which more scopes are nested behind the others. -/
def ScopeTable.addChildren (t : ScopeTable) (extra : List ScopeTable) : ScopeTable :=
  { t with children := t.children ++ extra }

section Bodies

variable {o : Options} {body dead : List Stmt} {name qualname : String} {t : ScopeTable}
  {serial firstLine : UInt32} {nested : Bool}

theorem Stmt.emits_behind {s s' : Session}
    (hs : (Draft.ofTable name qualname t serial firstLine nested).Evolves s.draft)
    (h : Stmt.lowerAll o [] dead s = .ok () s') : ∃ log,
      Emits o (Draft.ofTable name qualname t serial firstLine nested) [.run (.stmts [] dead)]
        s.draft.blocks.size log s'.draft.blocks.size ∧
      s.draft.Writes log s'.draft ∧ ∀ b ∈ log.labels, s.draft.blocks.size ≤ b := by
  obtain ⟨_, log, hemits, hruns⟩ := (Stmt.lowersAll o [] dead _).ok hs h
  refine ⟨log, hemits, hruns.writes, fun b hb => ?_⟩
  have hcount := hemits.labelled.count b
  have hpos := List.count_pos_iff.mpr hb
  rw [show placesOf [.run (.stmts [] dead)] = [] from rfl, List.count_nil] at hcount
  split at hcount
  · next hrange => exact hrange.1
  · omega

/-- A body that comes to its end at a closed block has the code that it has with other statements
behind, of which the nested scopes come last. -/
theorem extends_of_build {extra : List ScopeTable} {k : UInt32} {a a' : Bool} {s s' : Session}
    {c c' : CodeObject} (hbody : body ≠ [])
    (hclosed : s.draft.current < s.draft.blocks.size → s.draft.currentBlock.terminal = true)
    (hrun : (Body.function body).build o
      ⟨.ofTable name qualname t serial firstLine nested, k⟩ = .ok a s)
    (hrun' : (Body.function (body ++ dead)).build o
      ⟨.ofTable name qualname (t.addChildren extra) serial firstLine nested, k⟩ = .ok a' s')
    (hc : s.draft.finish a o.filename = .ok c) (hc' : s'.draft.finish a' o.filename = .ok c') :
    c.Extends c' := by
  -- the body takes its own tables, whatever comes behind them
  obtain ⟨_, taken, _, hchildren, _, _, hframe⟩ :=
    Body.enters (p := False) (.function body) False.elim _ a s hrun
  rw [Draft.children_of_finish hc, List.append_nil] at hchildren
  have hfirst := hframe extra
  rw [← hchildren] at hfirst
  rw [Body.build_append o hbody] at hrun'
  obtain ⟨a₁, s₁, hfirst', hrest⟩ := of_bind_ok hrun'
  obtain ⟨rfl, rfl⟩ := EStateM.Result.ok.inj (hfirst'.symm.trans hfirst)
  obtain ⟨_, s₂, hdead, hpure⟩ := of_bind_ok hrest
  cases hpure
  obtain ⟨_, log, hemits, hruns⟩ := (Body.follows o _ (.function body)).ok (.refl _) hfirst'
  have hwrites := hruns.writes
  obtain ⟨tail, hemits', hwrites', hlabels⟩ := Stmt.emits_behind hwrites.evolves hdead
  have hsteps := closed_bodySteps o
    (.ofTable name qualname (t.addChildren extra) serial firstLine nested) (.function body)
  have hlog := hemits.sound hsteps hwrites rfl
  have hlog' := (hemits.append hemits').sound (hsteps.append ⟨rfl, rfl, rfl⟩)
    (hwrites.trans hwrites') rfl
  have hterm := hclosed (hwrites.traces hlog.fresh).current_lt
  exact Draft.extends_of_finish hwrites hlog hterm hwrites' hlog' hlabels hc hc'

end Bodies

/-- Statements behind a top-level `return` or `raise` are not seen in the code of a function. If
the scopes nested in them come last in its table, then the code object differs from the one without
them in nothing but further entries of its tables. -/
theorem code_unchanged_by_dead_statements (o : Options) (pre dead : List Stmt) {t : Stmt}
    (ht : t.isExit = true) {name : String} {line : UInt32} {table : ScopeTable}
    {rest extra : List ScopeTable} {s s₁ s₂ : Session} {c c' : CodeObject}
    (hs : s.draft.children = table :: rest)
    (hc : inScope o.filename name .function line ((Body.function (pre ++ [t])).build o) s =
      .ok c s₁)
    (hc' : inScope o.filename name .function line ((Body.function (pre ++ [t] ++ dead)).build o)
      (s.withTables (table.addChildren extra :: rest)) = .ok c' s₂) : c.Extends c' := by
  obtain ⟨table₁, st, a, inner, hnext, _, hrun, hfinish, _⟩ := of_inScope_ok hc
  obtain ⟨table₂, st', a', inner', hnext', _, hrun', hfinish', _⟩ := of_inScope_ok hc'
  rw [nextChild_run, hs] at hnext
  cases hnext
  cases hnext'
  refine extends_of_build (by simp) (fun hlt => ?_) hrun hrun' hfinish hfinish'
  -- the last statement of the body closes its block
  obtain ⟨_, s₃, _, hstmts⟩ := of_bind_ok hrun
  obtain ⟨_, s₄, hstmts, hpure⟩ := of_bind_ok hstmts
  cases hpure
  obtain ⟨pre', hpre⟩ := exists_withoutDocstring_exit o pre ht
  rw [hpre] at hstmts
  exact Stmt.closesAll o [] pre' ht _ _ hstmts hlt

/-- The code object of a nested scope, if building it succeeds. -/
def Build.code? (b : Build CodeObject) (s : Session) : Option CodeObject :=
  match b s with
  | .ok c _ => some c
  | .error .. => none

theorem Build.of_code? {b : Build CodeObject} {s : Session} {names : List String}
    (h : (b.code? s).map CodeObject.varnames = some names) :
    ∃ c s', b s = .ok c s' ∧ c.varnames = names := by
  unfold code? at h
  split at h
  · next c s' hrun => exact ⟨c, s', hrun, Option.some.inj h⟩
  · cases h

/-- The table of a function `f(x)`. -/
def returningTable : ScopeTable :=
  { ScopeTable.function "f" 1 with
    params := ["x"]
    symbols := [("x", .local), ("y", .local), ("z", .globalImplicit)] }

/-- The statements `y = lambda: 0`, `while y: z` and `return y`. -/
def deadLoop : List Stmt :=
  [.assign 5 [.name 5 "y" .store]
      (.lambda 5 ⟨[], [], none, [], [], none, []⟩ (.constant 5 (.int 0))),
    .whileLoop 6 (.name 6 "y" .load) [.expr 7 (.name 7 "z" .load)] [],
    .ret 8 (some (.name 8 "y" .load))]

/-- Behind `if x: raise` and `return x` they leave no trace but a name. -/
theorem deadLoop_leaves_code_unchanged : ∃ (s s₁ s₂ : Session) (pre : List Stmt) (t : Stmt)
    (c c' : CodeObject), t.isExit = true ∧ s.draft.children = [returningTable] ∧
      inScope "<string>" "f" .function 1 ((Body.function (pre ++ [t])).build {}) s = .ok c s₁ ∧
      inScope "<string>" "f" .function 1 ((Body.function (pre ++ [t] ++ deadLoop)).build {})
        (s.withTables [returningTable.addChildren [.lambda 5]]) = .ok c' s₂ ∧
      c.Extends c' ∧ c.varnames = ["x"] ∧ c'.varnames = ["x", "y"] := by
  let s : Session := ⟨.ofModule { ScopeTable.module with children := [returningTable] }, 1⟩
  let pre : List Stmt := [.ifElse 2 (.name 2 "x" .load) [.raise 3 none none] []]
  let t : Stmt := .ret 4 (some (.name 4 "x" .load))
  have hshort : (Build.code? (inScope "<string>" "f" .function 1
      ((Body.function (pre ++ [t])).build {})) s).map CodeObject.varnames = some ["x"] := by
    decide +kernel
  have hlong : (Build.code? (inScope "<string>" "f" .function 1
      ((Body.function (pre ++ [t] ++ deadLoop)).build {}))
        (s.withTables [returningTable.addChildren [.lambda 5]])).map CodeObject.varnames =
          some ["x", "y"] := by
    decide +kernel
  obtain ⟨c, s₁, hc, hvarnames⟩ := Build.of_code? hshort
  obtain ⟨c', s₂, hc', hvarnames'⟩ := Build.of_code? hlong
  have hextends := code_unchanged_by_dead_statements {} pre deadLoop (t := t) rfl rfl hc hc'
  exact ⟨s, s₁, s₂, pre, t, c, c', rfl, rfl, hc, hc', hextends, hvarnames, hvarnames'⟩

end Wordcode
