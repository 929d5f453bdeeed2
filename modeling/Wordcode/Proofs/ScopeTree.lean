import Wordcode.Proofs.Assertions
import Wordcode.Proofs.Depths
import Wordcode.Proofs.Keys
import Wordcode.Proofs.Operands

/-!
# The tree of code objects

The scopes of a program are entered one inside the other, and each is finished and put among the
constants of the scope around it before the next one is entered. So the tree of code objects has
the form of the tree of scope tables, less the tables that assertions left out pass over, and serial
numbers count the code objects in preorder.
-/

set_option autoImplicit false

namespace Wordcode

theorem CodeObject.sizeOf_lt_of_mem_nested {c c' : CodeObject} (h : c' ∈ c.nested) :
    sizeOf c' < sizeOf c := by
  obtain ⟨k, hk, hcode⟩ := List.mem_filterMap.mp h
  have hlt := List.sizeOf_lt_of_mem hk
  cases k with
  | code k =>
    cases hcode
    obtain ⟨name, qualname, filename, firstLine, flags, argCount, posonlyCount, kwonlyCount,
      stackSize, serial, constants, names, varnames, cellvars, freevars, code, lines⟩ := c
    simp only [Constant.code.sizeOf_spec, CodeObject.mk.sizeOf_spec] at hlt ⊢
    omega
  | _ => cases hcode

/-- A code object and those inside it, each before what is inside it. -/
def CodeObject.preorder (c : CodeObject) : List CodeObject :=
  c :: c.nested.attach.flatMap fun ⟨c', _⟩ => c'.preorder
termination_by sizeOf c
decreasing_by exact CodeObject.sizeOf_lt_of_mem_nested ‹_›

theorem CodeObject.preorder_eq (c : CodeObject) :
    c.preorder = c :: c.nested.flatMap CodeObject.preorder := by
  rw [preorder]
  simp

namespace ScopeTable

mutual

/-- How many scopes a table describes, with those inside it. -/
def scopeCount : ScopeTable → Nat
  | ⟨_, _, _, _, _, _, _, _, _, _, _, children⟩ => scopeCountOfAll children + 1

def scopeCountOfAll : List ScopeTable → Nat
  | [] => 0
  | t :: ts => t.scopeCount + scopeCountOfAll ts

end

theorem scopeCount_eq (t : ScopeTable) : t.scopeCount = scopeCountOfAll t.children + 1 := by
  cases t
  rw [scopeCount]

/-- The names that scopes inside share with a scope, that of a class itself first. -/
def cellNames (t : ScopeTable) : List String :=
  if t.needsClassCell then Draft.classCell :: t.cellvars else t.cellvars

/-- The dotted path of a scope inside one that has the table and the path `qualname`. -/
def qualnameIn (t : ScopeTable) (qualname name : String) (kind : ScopeKind) : String :=
  if t.kind = .module ∨
    (kind = .function ∨ kind = .classBody) ∧ t.symbols.lookup name = some .globalExplicit
  then name
  else if t.kind = .function ∨ t.kind = .lambda then qualname ++ ".<locals>." ++ name
  else qualname ++ "." ++ name

end ScopeTable

/-- A code object is that of the scope with the table `t` inside the scopes of the tables `t₀` and
`around`, the innermost of which has the path `qualname`. -/
structure CodeObject.Reflects (c : CodeObject) (qualname : String) (t₀ : ScopeTable)
    (around : List ScopeTable) (t : ScopeTable) : Prop where
  argCount : c.argCount = UInt32.ofNat (t.posonly.length + t.params.length)
  posonlyCount : c.posonlyCount = UInt32.ofNat t.posonly.length
  kwonlyCount : c.kwonlyCount = UInt32.ofNat t.kwonly.length
  cellvars : c.cellvars = t.cellNames.eraseDups
  freevars : c.freevars = t.freevars.eraseDups
  nested : c.flags.has .nested = true ↔
    t.kind.isFunctionLike = true ∧ ∃ u ∈ t₀ :: around, u.kind.isFunctionLike = true
  qualname : c.qualname = t₀.qualnameIn qualname c.name t.kind

/-- The code objects inside that of a run mirror the tables inside its table. They are those of the
scopes that are entered within the run, in the order of their tables, and all tables inside are among
these unless an assertion of the scope is left out. -/
inductive Mirrors (o : Options) : List ScopeTable → ScopeRun → Prop where
  | intro {around : List ScopeTable} {r : ScopeRun} {entered : List ScopeRun} :
      r.code.nested = entered.map ScopeRun.code →
      (∀ r' ∈ entered, r.Enters o r') → (∀ r', r.Enters o r' → r'.code ∈ r.code.nested) →
      (entered.map ScopeRun.table).Sublist r.table.children →
      (o.stripsAsserts = false ∨ ¬ r.source.Asserts →
        entered.map ScopeRun.table = r.table.children) →
      (∀ r' ∈ entered, r'.code.Reflects r.code.qualname r.table around r'.table) →
      (∀ r' ∈ entered, Mirrors o (r.table :: around) r') → Mirrors o around r

/-- The code objects among constants. -/
def Pool.codes (p : Pool Constant.key) : List CodeObject := p.toList.filterMap Constant.code?

theorem Pool.codes_intern {p : Pool Constant.key} {c : Constant}
    (h : ∀ k, c.code? = some k → ∀ k' ∈ p.codes, k'.serial ≠ k.serial) :
    (p.intern c).2.codes = p.codes ++ c.code?.toList := by
  unfold codes at h ⊢
  rw [toList_intern]
  cases hc : c.code? with
  | none =>
    split
    · exact (List.append_nil _).symm
    · simp [hc]
  | some k =>
    obtain rfl : c = .code k := by
      cases c <;> cases hc
      rfl
    have hnone : p.find? (Constant.code k).key = none := by
      refine (p.find?_eq_none_iff _).mpr fun a ha hkey => ?_
      cases Constant.key_inj.mp hkey with
      | refl => exact h k rfl k (List.mem_filterMap.mpr ⟨_, ha, rfl⟩) rfl
      | code hserial => exact h k rfl _ (List.mem_filterMap.mpr ⟨_, ha, rfl⟩) hserial
    rw [hnone]
    simp [Constant.code?]

/-- Code objects with numbers of their own come in behind the others. -/
theorem Draft.Writes.codes_eq {d d' : Draft} {log : Script} (h : d.Writes log d')
    (hnew : ∀ k ∈ log.codes, ∀ k' ∈ d.constants.codes, k'.serial ≠ k.serial)
    (hpair : log.codes.Pairwise fun k k' => k.serial ≠ k'.serial) :
    d'.constants.codes = d.constants.codes ++ log.codes := by
  have hfold (cs : List Constant) (p : Pool Constant.key)
      (hnew : ∀ k ∈ cs.filterMap Constant.code?, ∀ k' ∈ p.codes, k'.serial ≠ k.serial)
      (hpair : (cs.filterMap Constant.code?).Pairwise fun k k' => k.serial ≠ k'.serial) :
      (cs.foldl (fun p c => (p.intern c).2) p).codes = p.codes ++ cs.filterMap Constant.code? := by
    induction cs generalizing p with
    | nil => exact (List.append_nil _).symm
    | cons c cs ih =>
      have hcons : (c :: cs).filterMap Constant.code? =
          c.code?.toList ++ cs.filterMap Constant.code? := by
        rw [List.filterMap_cons]
        cases c.code? <;> rfl
      rw [hcons] at hnew hpair ⊢
      obtain ⟨_, hpair, hfirst⟩ := List.pairwise_append.mp hpair
      have hintern : (p.intern c).2.codes = p.codes ++ c.code?.toList := p.codes_intern fun k hk =>
        hnew k (List.mem_append_left _ (Option.mem_toList.mpr hk))
      rw [List.foldl_cons, ih _ ?_ hpair, hintern, List.append_assoc]
      intro k hk k' hk'
      rw [hintern] at hk'
      rcases List.mem_append.mp hk' with hk' | hk'
      · exact hnew k (List.mem_append_right _ hk) k' hk'
      · exact hfirst k' hk' k hk
  rw [h.constants_eq]
  exact hfold _ _ hnew hpair

theorem Draft.codes_close (d : Draft) (addNone : Bool) :
    (d.close addNone).constants.codes = d.constants.codes := by
  have happend (d : Draft) (i : Instruction) : (d.append i).constants = d.constants := by
    unfold Draft.append
    split <;> rfl
  unfold Draft.close
  split
  · rfl
  · dsimp only
    rw [happend]
    cases addNone with
    | false => rfl
    | true =>
      simp only [if_true]
      rw [happend]
      exact (Pool.codes_intern fun _ h => by cases h).trans (List.append_nil _)

theorem Draft.evolves_close (d : Draft) (addNone : Bool) : d.Evolves (d.close addNone) := by
  have hnil : d.Writes [] d := .nil
  rcases hnil.close addNone with ⟨_, hw⟩ | ⟨_, _, hw⟩ <;> exact hw.evolves

/-- What a code object takes over from the draft that it is finished from. -/
structure CodeObject.Inherits (c : CodeObject) (d : Draft) : Prop where
  name : c.name = d.name
  qualname : c.qualname = d.qualname
  flags : c.flags = d.flags
  argCount : c.argCount = d.argCount
  posonlyCount : c.posonlyCount = d.posonlyCount
  kwonlyCount : c.kwonlyCount = d.kwonlyCount
  serial : c.serial = d.serial
  cellvars : c.cellvars = d.cellvars.toList
  freevars : c.freevars = d.freevars.toList
  nested : c.nested = d.constants.codes

theorem Draft.inherits_of_finish {d : Draft} {addNone : Bool} {filename : String} {c : CodeObject}
    (h : d.finish addNone filename = .ok c) : c.Inherits d := by
  have hkeeps {α : Type} (f : Draft → α) (hf : ∀ d, f d.header = f d) :
      f (d.close addNone) = f d := (d.evolves_close addNone).keeps f hf
  have hcodes := d.codes_close addNone
  have h := Draft.of_finish_ok h
  unfold Draft.assemble at h
  simp only [bind, Except.bind, pure, Except.pure] at h
  repeat
    split at h
    · cases h
  cases h
  exact {
    name := hkeeps Draft.name fun _ => rfl
    qualname := hkeeps Draft.qualname fun _ => rfl
    flags := hkeeps Draft.flags fun _ => rfl
    argCount := hkeeps Draft.argCount fun _ => rfl
    posonlyCount := hkeeps Draft.posonlyCount fun _ => rfl
    kwonlyCount := hkeeps Draft.kwonlyCount fun _ => rfl
    serial := hkeeps Draft.serial fun _ => rfl
    cellvars := congrArg Pool.toList (hkeeps Draft.cellvars fun _ => rfl)
    freevars := congrArg Pool.toList (hkeeps Draft.freevars fun _ => rfl)
    nested := hcodes }

theorem Draft.children_of_finish {d : Draft} {addNone : Bool} {filename : String} {c : CodeObject}
    (h : d.finish addNone filename = .ok c) : d.children = [] := by
  unfold Draft.finish at h
  split at h
  · next hempty => exact List.isEmpty_iff.mp hempty
  · cases h

theorem Draft.has_nested_flags (d : Draft) :
    d.flags.has .nested = (d.kind.isFunctionLike && d.nested) := by
  unfold Draft.flags
  cases d.kind.isFunctionLike <;> cases d.nested <;> cases d.isGenerator <;> cases d.hasVararg <;>
    cases d.hasKwarg <;> cases (decide (d.cellvars.size = 0) && decide (d.freevars.size = 0)) <;> rfl

/-- A pool numbers names in the order of their first occurrence. -/
theorem Pool.toList_ofList (xs : List String) :
    (Pool.ofList xs : NamePool).toList = xs.eraseDups := by
  have hfold (xs : List String) (p : NamePool) :
      (xs.foldl (fun p x => (p.intern x).2) p).toList =
        p.toList ++ (xs.filter fun x => !p.toList.contains x).eraseDups := by
    induction xs generalizing p with
    | nil => simp
    | cons x xs ih =>
      rw [List.foldl_cons, ih, Pool.toList_intern]
      cases hfind : p.find? x with
      | some i =>
        have hmem : x ∈ p.toList := List.mem_of_getElem? (Build.getElem?_of_find? hfind)
        simp [hmem]
      | none =>
        have hnew : x ∉ p.toList := fun h => (p.find?_eq_none_iff x).mp hfind x h rfl
        simp [hnew, List.eraseDups_cons, List.filter_filter]
        congr 1
        refine List.filter_congr fun y _ => ?_
        rw [Bool.and_comm, beq_eq_decide]
  have h := hfold xs .empty
  simpa [Pool.empty, Pool.toList, Pool.ofList] using h

theorem Draft.keeps_of_header {d d' : Draft} (h : d'.header = d.header) {α : Type} (f : Draft → α)
    (hf : ∀ d, f d.header = f d) : f d' = f d := by
  rw [← hf d', h, hf]

/-- The draft is one of the scope with the table `t` inside the scopes of the tables `around`. -/
structure Draft.Stands (d : Draft) (t : ScopeTable) (around : List ScopeTable) : Prop where
  kind : d.kind = t.kind
  symbols : d.symbols = t.symbols
  nested : d.nested = around.any (·.kind.isFunctionLike)

namespace Draft.Stands

variable {d : Draft} {t : ScopeTable} {around : List ScopeTable}

theorem of_header (h : d.Stands t around) {d' : Draft} (heq : d'.header = d.header) :
    d'.Stands t around where
  kind := (Draft.keeps_of_header heq Draft.kind fun _ => rfl).trans h.kind
  symbols := (Draft.keeps_of_header heq Draft.symbols fun _ => rfl).trans h.symbols
  nested := (Draft.keeps_of_header heq Draft.nested fun _ => rfl).trans h.nested

theorem child (h : d.Stands t around) (name : String) (table : ScopeTable) (serial line : UInt32) :
    (d.child name table serial line).Stands table (t :: around) where
  kind := rfl
  symbols := rfl
  nested := by
    show (d.nested || d.kind.isFunctionLike) = _
    rw [h.nested, h.kind, List.any_cons, Bool.or_comm]

theorem qualnameOf_eq (h : d.Stands t around) (name : String) (kind : ScopeKind) :
    d.qualnameOf name kind = t.qualnameIn d.qualname name kind := by
  unfold Draft.qualnameOf ScopeTable.qualnameIn Draft.resolution?
  rw [h.kind, h.symbols]
  cases t.kind <;> simp <;> rfl

/-- What a scope inside is finished to. -/
theorem reflects (h : d.Stands t around) {name : String} {table : ScopeTable}
    {serial line : UInt32} {inner : Draft} {addNone : Bool} {filename : String} {c : CodeObject}
    (hheader : inner.header = (d.child name table serial line).header)
    (hfinish : inner.finish addNone filename = .ok c) :
    c.Reflects d.qualname t around table := by
  have hc := Draft.inherits_of_finish hfinish
  have hkeeps {α : Type} (f : Draft → α) := Draft.keeps_of_header hheader f
  have hname : c.name = name := hc.name.trans (hkeeps Draft.name fun _ => rfl)
  refine ⟨hc.argCount.trans (hkeeps Draft.argCount fun _ => rfl),
    hc.posonlyCount.trans (hkeeps Draft.posonlyCount fun _ => rfl),
    hc.kwonlyCount.trans (hkeeps Draft.kwonlyCount fun _ => rfl), ?_, ?_, ?_, ?_⟩
  · rw [hc.cellvars, hkeeps Draft.cellvars fun _ => rfl]
    exact Pool.toList_ofList _
  · rw [hc.freevars, hkeeps Draft.freevars fun _ => rfl]
    exact Pool.toList_ofList _
  · rw [hc.flags, Draft.has_nested_flags, hkeeps Draft.kind fun _ => rfl,
      hkeeps Draft.nested fun _ => rfl, (h.child name table serial line).nested]
    simp [Draft.child, Draft.ofTable]
  · rw [hc.qualname, hname, ← h.qualnameOf_eq]
    exact hkeeps Draft.qualname fun _ => rfl

end Draft.Stands

open ScopeTable (scopeCountOfAll)

theorem ofNat_ne_of_lt {i n : Nat} (hi : i < n) (hn : n < i + 2 ^ 32) :
    UInt32.ofNat i ≠ UInt32.ofNat n := by
  intro h
  have htoNat := congrArg UInt32.toNat h
  rw [UInt32.toNat_ofNat', UInt32.toNat_ofNat'] at htoNat
  omega

theorem ScopeTable.scopeCountOfAll_append (ts ts' : List ScopeTable) :
    scopeCountOfAll (ts ++ ts') = scopeCountOfAll ts + scopeCountOfAll ts' := by
  induction ts with
  | nil => simp [scopeCountOfAll]
  | cons t ts ih =>
    simp only [List.cons_append, scopeCountOfAll, ih]
    omega

/-- Scopes are numbered from `n` on, and from `base` up to all that may come there are numbers. -/
structure Session.Numbered (s : Session) (base n : Nat) : Prop where
  serial : s.nextSerial = UInt32.ofNat n
  base_le : base ≤ n
  room : n + scopeCountOfAll s.draft.children ≤ base + 2 ^ 32
  codes : ∀ k ∈ s.draft.constants.codes, ∃ i, base ≤ i ∧ i < n ∧ k.serial = UInt32.ofNat i

/-- What has been done to nested scopes where a script was written: which tables were taken, and the
runs of the scopes that were entered. -/
structure Woven (o : Options) (asserts : Prop) (t : ScopeTable) (around : List ScopeTable)
    (s s' : Session) (log : Script) (n : Nat) (taken : List ScopeTable) (entered : List ScopeRun) :
    Prop where
  children : s.draft.children = taken ++ s'.draft.children
  sublist : (entered.map ScopeRun.table).Sublist taken
  all : o.stripsAsserts = false ∨ ¬ asserts → entered.map ScopeRun.table = taken
  codes : log.codes = entered.map ScopeRun.code
  made : s'.draft.constants.codes = s.draft.constants.codes ++ log.codes
  reflects : ∀ r ∈ entered, r.code.Reflects s.draft.qualname t around r.table
  mirrors : ∀ r ∈ entered, Mirrors o (t :: around) r
  count : (log.codes.flatMap CodeObject.preorder).length ≤ scopeCountOfAll taken
  serial : s'.nextSerial = UInt32.ofNat (n + (log.codes.flatMap CodeObject.preorder).length)
  serials : (log.codes.flatMap CodeObject.preorder).map CodeObject.serial =
    (List.range' n (log.codes.flatMap CodeObject.preorder).length).map UInt32.ofNat

section Woven

variable {o : Options} {asserts : Prop} {t : ScopeTable} {around : List ScopeTable}
  {s s₁ s' : Session} {log log' : Script} {base n : Nat} {taken taken' : List ScopeTable}
  {entered entered' : List ScopeRun}

/-- Nothing is entered. -/
theorem Woven.none (hn : s.Numbered base n) (hw : s.draft.Writes log s'.draft)
    (hcodes : log.codes = []) (hchildren : s.draft.children = taken ++ s'.draft.children)
    (hall : o.stripsAsserts = false ∨ ¬ asserts → taken = [])
    (hserial : s'.nextSerial = s.nextSerial) : Woven o asserts t around s s' log n taken [] where
  children := hchildren
  sublist := List.nil_sublist _
  all := fun h => (hall h).symm
  codes := hcodes
  made := hw.codes_eq (by simp [hcodes]) (by simp [hcodes])
  reflects := List.forall_mem_nil _
  mirrors := List.forall_mem_nil _
  count := by simp [hcodes]
  serial := by simp [hcodes, hserial, hn.serial]
  serials := by simp [hcodes]

theorem Woven.numbered (h : Woven o asserts t around s s' log n taken entered)
    (hn : s.Numbered base n) :
    s'.Numbered base (n + (log.codes.flatMap CodeObject.preorder).length) where
  serial := h.serial
  base_le := Nat.le_add_right_of_le hn.base_le
  room := by
    have hroom := hn.room
    have hcount := h.count
    rw [h.children, ScopeTable.scopeCountOfAll_append] at hroom
    omega
  codes := by
    intro k hk
    rw [h.made] at hk
    rcases List.mem_append.mp hk with hk | hk
    · obtain ⟨i, hbase, hi, hserial⟩ := hn.codes k hk
      exact ⟨i, hbase, by omega, hserial⟩
    · have hmem : k.serial ∈ (log.codes.flatMap CodeObject.preorder).map CodeObject.serial := by
        refine List.mem_map_of_mem (List.mem_flatMap.mpr ⟨k, hk, ?_⟩)
        rw [CodeObject.preorder_eq]
        exact List.mem_cons_self
      rw [h.serials] at hmem
      obtain ⟨i, hi, hserial⟩ := List.mem_map.mp hmem
      rw [List.mem_range'_1] at hi
      exact ⟨i, Nat.le_trans hn.base_le hi.1, hi.2, hserial.symm⟩

theorem Woven.trans (h : Woven o asserts t around s s₁ log n taken entered)
    (h' : Woven o asserts t around s₁ s' log'
      (n + (log.codes.flatMap CodeObject.preorder).length) taken' entered')
    (hqualname : s₁.draft.qualname = s.draft.qualname) :
    Woven o asserts t around s s' (log ++ log') n (taken ++ taken') (entered ++ entered') where
  children := by rw [h.children, h'.children, List.append_assoc]
  sublist := by
    rw [List.map_append]
    exact h.sublist.append h'.sublist
  all := fun hno => by rw [List.map_append, h.all hno, h'.all hno]
  codes := by rw [Script.codes_append, h.codes, h'.codes, List.map_append]
  made := by rw [h'.made, h.made, Script.codes_append, List.append_assoc]
  reflects := List.forall_mem_append.mpr ⟨h.reflects, hqualname ▸ h'.reflects⟩
  mirrors := List.forall_mem_append.mpr ⟨h.mirrors, h'.mirrors⟩
  count := by
    have hcount := h.count
    have hcount' := h'.count
    rw [Script.codes_append, List.flatMap_append, List.length_append,
      ScopeTable.scopeCountOfAll_append]
    omega
  serial := by
    rw [h'.serial, Script.codes_append, List.flatMap_append, List.length_append, Nat.add_assoc]
  serials := by
    rw [Script.codes_append, List.flatMap_append, List.map_append, h.serials, h'.serials,
      List.length_append, ← List.map_append, ← List.range'_append_1]

/-- Within a run that has been woven to its end, the code objects are those of the scopes entered. -/
theorem Woven.mirrors_of_completes {r : ScopeRun} (hr : r.Completes o)
    (h : Woven o r.source.Asserts r.table around r.first r.last r.log n taken entered)
    (hmeets : ∀ r' ∈ entered, r.Enters o r') (hchildren : r.first.draft.children = r.table.children)
    (hconstants : r.first.draft.constants.codes = [])
    (hqualname : r.last.draft.qualname = r.first.draft.qualname) :
    r.code.nested = r.log.codes ∧ taken = r.table.children ∧ Mirrors o around r := by
  have hcode := Draft.inherits_of_finish hr.finish
  have hnested : r.code.nested = r.log.codes := by
    rw [hcode.nested, h.made, hconstants, List.nil_append]
  have htaken : r.table.children = taken := by
    have h := h.children
    rwa [Draft.children_of_finish hr.finish, List.append_nil, hchildren] at h
  refine ⟨hnested, htaken.symm, .intro (hnested.trans h.codes) hmeets (fun r' hr' => ?_)
    (htaken ▸ h.sublist) (htaken ▸ h.all) ?_ h.mirrors⟩
  · rw [hnested]
    exact hr'.mem_codes
  · rw [hcode.qualname, hqualname]
    exact h.reflects

/-- A scope is entered, with the scopes inside it, and finished. -/
theorem Woven.scope {body : Body} {name : String} {line : UInt32} {r : ScopeRun} {s₂ : Session}
    {out : Script} (hd : s.draft.Stands t around) (hn : s.Numbered base n)
    (henters : s.Enters o body name line r.table r.code r.last s₁)
    (hfirst : r.first = s.inside name r.table line) (hr : r.Completes o)
    (hout : s₁.Writes out s₂) (hcodes : out.codes = [r.code])
    (hinner : Woven o r.source.Asserts r.table (t :: around) r.first r.last r.log (n + 1) taken
      entered) (hmeets : ∀ r' ∈ entered, r.Enters o r') :
    Woven o asserts t around s s₂ out n [r.table] [r] := by
  have hheader : r.last.draft.header = (s.draft.child name r.table s.nextSerial line).header := by
    rw [hr.runs.writes.evolves.header, hfirst]
    rfl
  have hkeeps {α : Type} (f : Draft → α) := Draft.keeps_of_header hheader f
  obtain ⟨hnested, rfl, hmirrors⟩ := hinner.mirrors_of_completes hr hmeets (by rw [hfirst]; rfl)
    (by rw [hfirst]; rfl) (hr.runs.writes.evolves.keeps Draft.qualname fun _ => rfl)
  have hnumber : r.code.serial = s.nextSerial :=
    (Draft.inherits_of_finish hr.finish).serial.trans (hkeeps Draft.serial fun _ => rfl)
  have hpreorder : out.codes.flatMap CodeObject.preorder =
      r.code :: r.log.codes.flatMap CodeObject.preorder := by
    rw [hcodes, List.flatMap_singleton, CodeObject.preorder_eq, hnested]
  have hroom := hn.room
  rw [henters.children, scopeCountOfAll, ScopeTable.scopeCount_eq] at hroom
  have hlength : (out.codes.flatMap CodeObject.preorder).length =
      (r.log.codes.flatMap CodeObject.preorder).length + 1 := by
    rw [hpreorder, List.length_cons]
  have hconstants : s₁.draft.constants = s.draft.constants := by rw [henters.draft]
  refine ⟨?_, List.Sublist.refl _, fun _ => rfl, hcodes, ?_,
    List.forall_mem_singleton.mpr (hd.reflects hheader hr.finish),
    List.forall_mem_singleton.mpr hmirrors, ?_, ?_, ?_⟩
  · rw [henters.children, hout.children]
    rfl
  · rw [← hconstants]
    refine hout.draft.codes_eq (fun k hk k' hk' heq => ?_) (by simp [hcodes])
    rw [hcodes, List.mem_singleton] at hk
    rw [hconstants] at hk'
    obtain ⟨i, hbase, hi, hserial⟩ := hn.codes k' hk'
    rw [hserial, hk, hnumber, hn.serial] at heq
    exact ofNat_ne_of_lt hi (by omega) heq
  · have hcount := hinner.count
    rw [hlength, scopeCountOfAll, ScopeTable.scopeCount_eq]
    simp only [scopeCountOfAll]
    omega
  · rw [hout.serial, henters.serial, hinner.serial, hlength, Nat.add_assoc, Nat.add_comm 1]
  · rw [hlength, hpreorder, List.map_cons, hinner.serials, hnumber, hn.serial, List.range'_succ]
    rfl

/-- Only an assertion that is left out passes over tables. -/
theorem Task.asserts_of_skipCount {task : Task} (h : task.skipCount o ≠ 0) :
    o.stripsAsserts = true ∧ ∃ s ∈ task.statements, s.Asserts := by
  unfold Task.skipCount at h
  split at h
  · next frames line test msg =>
    refine ⟨?_, .assert line test msg, List.mem_cons_self, .here⟩
    by_contra hstrips
    exact h (if_neg hstrips)
  · exact absurd rfl h

/-- What running steps does to the nested scopes of a draft. -/
theorem Proceeds.woven {d : Draft} {steps : List Step} (h : Proceeds o d steps s log [] s')
    (hquotes : ∀ k, ¬ QuotesOf steps k)
    (hasserts : ∀ x ∈ statementsOf steps, x.Asserts → asserts) (hd : s.draft.Stands t around)
    (hn : s.Numbered base n) : ∃ taken entered, Woven o asserts t around s s' log n taken entered ∧
      ∀ r ∈ entered, Meets o d steps s s' r log := by
  generalize hrest : ([] : List Step) = rest at h
  induction h generalizing asserts t around base n with
  | @stop d steps s =>
    exact ⟨[], [], .none hn .nil rfl (List.nil_append _).symm (fun _ => rfl) rfl,
      List.forall_mem_nil _⟩
  | @quiet d steps rest log s s₁ s' hw hsteps ih =>
    have hquiet : Woven o asserts t around s s₁ [] n [] [] :=
      .none hn hw.draft rfl hw.children.symm (fun _ => rfl) hw.serial
    obtain ⟨taken, entered, hwoven, hmeets⟩ := ih hquotes hasserts
      (hd.of_header hw.draft.evolves.header) (hquiet.numbered hn) hrest
    refine ⟨_, _, hquiet.trans hwoven ?_, fun r hr => (hmeets r hr).after (.quiet hw .stop)⟩
    exact hw.draft.evolves.keeps Draft.qualname fun _ => rfl
  | @put d x steps rest out log s s₁ s' hx hw hsteps ih =>
    have hnone : Script.codes out = [] := by
      rw [hx.codes_eq]
      cases hcode : x.code? with
      | none => rfl
      | some k => exact absurd (quotesOf_cons.mpr (.inl (Step.quotes_of_code? hcode))) (hquotes k)
    have hput : Woven o asserts t around s s₁ out n [] [] :=
      .none hn hw.draft hnone hw.children.symm (fun _ => rfl) hw.serial
    obtain ⟨taken, entered, hwoven, hmeets⟩ := ih
      (fun k hk => hquotes k (quotesOf_cons.mpr (.inr hk)))
      (fun x hx => hasserts x (List.mem_append_right _ hx))
      (hd.of_header hw.draft.evolves.header) (hput.numbered hn) hrest
    refine ⟨_, _, hput.trans hwoven ?_, fun r hr => ?_⟩
    · exact hw.draft.evolves.keeps Draft.qualname fun _ => rfl
    · have hmeets := (hmeets r hr).after (.put hx hw .stop)
      rwa [List.append_nil] at hmeets
  | @run d task steps rest passed log s s₁ s' hw hchildren hpassed hserial hsteps ih =>
    have hnone : Script.codes (List.replicate (task.labelCount o) .alloc) = [] := by
      have halloc := Script.codes_alloc (task.labelCount o) []
      rwa [List.append_nil] at halloc
    have hrun : Woven o asserts t around s s₁ (List.replicate (task.labelCount o) .alloc) n passed
        [] := by
      refine .none hn hw hnone hchildren (fun hno => List.eq_nil_of_length_eq_zero ?_) hserial
      rw [hpassed]
      by_contra hskip
      obtain ⟨hstrips, x, hx, hasserts'⟩ := Task.asserts_of_skipCount hskip
      rcases hno with hno | hno
      · exact Bool.noConfusion (hno.symm.trans hstrips)
      · exact hno (hasserts x (List.mem_append_left _ hx) hasserts')
    obtain ⟨taken, entered, hwoven, hmeets⟩ := ih
      (fun k hk => hquotes k (quotesOf_cons.mpr ((quotesOf_append.mp hk).imp_left
        Task.quotes_of_steps)))
      (fun x hx hasserts' => by
        rw [statementsOf_append] at hx
        rcases List.mem_append.mp hx with hx | hx
        · obtain ⟨x', hx', hasserts'⟩ := Task.asserts_of_steps _ hx hasserts'
          exact hasserts x' (List.mem_append_left _ hx') hasserts'
        · exact hasserts x (List.mem_append_right _ hx) hasserts')
      (hd.of_header hw.evolves.header) (hrun.numbered hn) hrest
    refine ⟨_, _, hrun.trans hwoven ?_, fun r hr => ?_⟩
    · exact hw.evolves.keeps Draft.qualname fun _ => rfl
    · have hmeets := (hmeets r hr).after (.run hw hchildren hpassed hserial .stop)
      rwa [List.append_nil] at hmeets
  | @closure d body name line parts qualname table code lead steps rest within out log s inner s₁ s₂
      s' hlead henters hinner hemits hmade hsteps ihinner _ ih =>
    have hbody (k : CodeObject) : ¬ QuotesOf (body.steps o (s.inside name table line).draft) k :=
      fun hk => hquotes k (quotesOf_append.mpr (.inr (quotesOf_cons.mpr (.inl
        (Body.quotes_of_steps hk)))))
    have hsimple : (lead ++ closureSteps code parts (qualname.getD code.qualname)).all
        Step.isSimple = true := by
      rw [List.all_append, hlead, Build.all_isSimple_closureSteps]
      rfl
    obtain ⟨hout, hcodes⟩ := hmade.of_simple hsimple
    have hlead' : lead.filterMap Step.code? = [] := List.eq_nil_iff_forall_not_mem.mpr fun k hk =>
      hquotes k (quotesOf_append.mpr (.inl (quotesOf_of_mem_codes hk)))
    rw [List.filterMap_append, hlead', codes_closureSteps, List.nil_append] at hcodes
    have hstart : (s.inside name table line).Numbered base (n + 1) := by
      have hroom := hn.room
      rw [henters.children, scopeCountOfAll, ScopeTable.scopeCount_eq] at hroom
      refine ⟨?_, Nat.le_succ_of_le hn.base_le, ?_, nofun⟩
      · show s.nextSerial + 1 = _
        rw [hn.serial]
        exact (UInt32.ofNat_add n 1).symm
      · show n + 1 + scopeCountOfAll table.children ≤ base + 2 ^ 32
        omega
    obtain ⟨_, within', hwithin, hmeetsWithin⟩ := ihinner hbody
      (fun x hx hasserts' => Body.asserts_of_steps _ hx hasserts') (hd.child name table _ line) hstart
      rfl
    have hr : ScopeRun.Completes o
        ⟨.body body, table, s.inside name table line, within, inner, code⟩ :=
      ⟨henters.build, hemits, hinner, henters.finish⟩
    have hscope : Woven o asserts t around s s₂ out n [table] [_] :=
      .scope hd hn henters rfl hr hout hcodes hwithin hmeetsWithin
    obtain ⟨taken, entered, hwoven, hmeets⟩ := ih
      (fun k hk => hquotes k (quotesOf_append.mpr (.inr (quotesOf_cons.mpr (.inr hk)))))
      (fun x hx => hasserts x (by
        rw [statementsOf_append, statementsOf_cons]
        exact List.mem_append_right _ (List.mem_append_right _ hx)))
      (hd.of_header (henters.writes.trans hout.draft).evolves.header) (hscope.numbered hn) hrest
    subst hrest
    refine ⟨_, _, hscope.trans hwoven ?_, List.forall_mem_append.mpr ⟨?_, fun r' hr' => ?_⟩⟩
    · exact (henters.writes.trans hout.draft).evolves.keeps Draft.qualname fun _ => rfl
    · have hmeets := Meets.intro .stop hlead henters rfl rfl hr (hmade.append hsteps)
      exact List.forall_mem_singleton.mpr hmeets
    · have hmeets := (hmeets r' hr').after (.closure hlead henters hinner hemits hmade .stop)
      rwa [List.append_nil] at hmeets

end Woven

/-- The tree of code objects that a program without code constants is compiled to mirrors the tree of
its scope tables. The code objects inside that of a scope are those of the nested scopes that its run
enters, in the order of their tables, and it enters one for each table unless an assertion of this
very scope is left out. Serial numbers count the whole tree in preorder. -/
theorem compile_mirrors {p : Program} {t : ScopeTable} {o : Options} {c : CodeObject}
    (hquotes : ∀ k, ¬ p.Quotes k) (hcount : t.scopeCount ≤ 2 ^ 32) (h : compile p t o = .ok c) :
    c.preorder.map CodeObject.serial = (List.range c.preorder.length).map UInt32.ofNat ∧
      ∃ r, p.IsRun o t r ∧ r.code = c ∧ Mirrors o [] r := by
  obtain ⟨r, hrun, rfl⟩ := exists_isRun h
  have hr := hrun.completes
  have hwithin := (Program.HasRun.root hrun).within
  have hfirst := hrun.first
  have hstands : r.first.draft.Stands r.table [] := by
    rw [hfirst, hrun.table]
    exact ⟨rfl, rfl, rfl⟩
  have hnumbered : r.first.Numbered 0 1 := by
    rw [hfirst]
    refine ⟨rfl, Nat.zero_le 1, ?_, nofun⟩
    rw [ScopeTable.scopeCount_eq, Nat.add_comm] at hcount
    exact Nat.zero_add _ ▸ hcount
  obtain ⟨taken, entered, hwoven, hmeets⟩ := hr.runs.woven
    (fun k hk => hquotes k (hwithin.quotes k (Source.quotes_of_steps hk)))
    (fun x hx hasserts => Source.asserts_of_steps _ hx hasserts) hstands hnumbered
  have hevolves := hr.runs.writes.evolves
  obtain ⟨hnested, -, hmirrors⟩ := hwoven.mirrors_of_completes hr hmeets
    (by rw [hfirst, hrun.table]; rfl) (by rw [hfirst]; rfl)
    (hevolves.keeps Draft.qualname fun _ => rfl)
  have hserial : r.code.serial = UInt32.ofNat 0 := by
    rw [(Draft.inherits_of_finish hr.finish).serial, hevolves.keeps Draft.serial fun _ => rfl, hfirst]
    rfl
  refine ⟨?_, r, hrun, rfl, hmirrors⟩
  rw [CodeObject.preorder_eq, hnested, List.map_cons, hwoven.serials, hserial, List.length_cons,
    List.range_eq_range', List.range'_succ, List.map_cons]

/-- A function with an assertion on a lambda, which may be left out, and a function inside. -/
def nestProgram : Program :=
  .module [.functionDef 1 "outer" ⟨[], [], none, [], [], none, []⟩
    [.assert 2 (.lambda 2 ⟨[], [], none, [], [], none, []⟩ (.name 2 "x" .load)) none,
      .functionDef 3 "inner" ⟨[], [], none, [], [], none, []⟩ [.pass 4] [] none] [] none]

def nestTable : ScopeTable :=
  { ScopeTable.module with
    children := [{ ScopeTable.function "outer" 1 with
      children := [.lambda 2, .function "inner" 3] }] }

theorem not_quotes_nestProgram (k : CodeObject) : ¬ nestProgram.Quotes k := by
  have hname : ¬ (Expr.name 2 "x" .load).Quotes k := by
    rintro (_ | ⟨he, _⟩)
    cases he
  have hlambda : ¬ (Expr.lambda 2 ⟨[], [], none, [], [], none, []⟩ (.name 2 "x" .load)).Quotes k := by
    rintro (_ | ⟨he, h⟩)
    obtain rfl := List.mem_singleton.mp he
    exact hname h
  have hassert : ¬ (Stmt.assert 2 (.lambda 2 ⟨[], [], none, [], [], none, []⟩ (.name 2 "x" .load))
      none).Quotes k := by
    rintro (⟨he, h⟩ | ⟨hs, _⟩)
    · obtain rfl := List.mem_singleton.mp he
      exact hlambda h
    · cases hs
  have hpass : ¬ (Stmt.pass 4).Quotes k := by
    rintro (⟨he, _⟩ | ⟨hs, _⟩)
    · cases he
    · cases hs
  have hinner : ¬ (Stmt.functionDef 3 "inner" ⟨[], [], none, [], [], none, []⟩ [.pass 4] [] none).Quotes
      k := by
    rintro (⟨he, _⟩ | ⟨hs, h⟩)
    · cases he
    · obtain rfl := List.mem_singleton.mp hs
      exact hpass h
  rintro ⟨s, hs, h⟩
  obtain rfl := List.mem_singleton.mp hs
  rcases h with ⟨he, _⟩ | ⟨hs, h⟩
  · cases he
  · rcases List.mem_cons.mp hs with rfl | hs
    · exact hassert h
    · obtain rfl := List.mem_singleton.mp hs
      exact hinner h

theorem nestProgram_mirrors : ∃ c, compile nestProgram nestTable { optimize := 1 } = .ok c ∧
    c.preorder.map CodeObject.serial = (List.range c.preorder.length).map UInt32.ofNat ∧
    ∃ r, nestProgram.IsRun { optimize := 1 } nestTable r ∧ r.code = c ∧
      Mirrors { optimize := 1 } [] r := by
  have hok : (compile nestProgram nestTable { optimize := 1 }).isOk = true := by decide +kernel
  cases h : compile nestProgram nestTable { optimize := 1 } with
  | ok c => exact ⟨c, rfl, compile_mirrors not_quotes_nestProgram (by decide) h⟩
  | error e =>
    rw [h] at hok
    cases hok

end Wordcode
