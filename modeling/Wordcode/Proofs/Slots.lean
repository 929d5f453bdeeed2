import Wordcode.Proofs.ScopeTree

/-!
# Slots of cells and free variables

A scope numbers its cells first, that of a class itself before the others, and its free variables
behind them. Where a table names no variable twice, cells and free variables have no name in common,
except that a method's class may stand within another one: then the name of the class cell is both
that of a cell of its own and that of a free variable. A name is looked up among the cells first, so
in such a scope it reaches the cell of the scope itself, however the table resolves it.
-/

set_option autoImplicit false

namespace Wordcode

namespace Symbols

variable {s : Symbols} {r r' : Resolution} {x : String}

theorem mem_sortedNames : x ∈ s.sortedNames r ↔ (x, r) ∈ s := by
  simp [sortedNames, List.mem_mergeSort]

theorem mem_of_lookup (h : s.lookup x = some r) : (x, r) ∈ s := by
  obtain ⟨before, behind, rfl, _⟩ := List.lookup_eq_some_iff.mp h
  exact List.mem_append_right _ List.mem_cons_self

/-- A name that stands once has one resolution. -/
theorem eq_of_mem (hdistinct : (s.map Prod.fst).Nodup) (h : (x, r) ∈ s) (h' : (x, r') ∈ s) :
    r = r' := by
  have heq : ((x, r) : String × Resolution) = (x, r') :=
    List.inj_on_of_nodup_map hdistinct h h' rfl
  exact (Prod.mk.inj heq).2

theorem nodup_sortedNames (hdistinct : (s.map Prod.fst).Nodup) (r : Resolution) :
    (s.sortedNames r).Nodup := by
  unfold sortedNames
  rw [(List.mergeSort_perm _ _).nodup_iff]
  exact hdistinct.sublist (List.filter_sublist.map Prod.fst)

end Symbols

/-- The scope is a class that has a cell for itself, and the name is that of the cell. -/
def ScopeTable.OwnsCell (t : ScopeTable) (x : String) : Prop :=
  t.needsClassCell = true ∧ x = Draft.classCell

theorem ScopeTable.mem_cellNames {t : ScopeTable} {x : String} :
    x ∈ t.cellNames ↔ t.OwnsCell x ∨ x ∈ t.cellvars := by
  unfold cellNames OwnsCell
  split <;> simp_all

/-- A pool numbers its names by their places. -/
theorem Pool.find?_of_mem {p : NamePool} {x : String} (h : x ∈ p.toList) :
    p.find? x = some (p.toList.idxOf x) := by
  rw [find?_eq_some_iff, List.getElem?_idxOf h]
  rfl

theorem Pool.find?_of_not_mem {p : NamePool} {x : String} (h : x ∉ p.toList) : p.find? x = none :=
  (p.find?_eq_none_iff x).mpr fun _ hmem heq => h (heq ▸ hmem)

namespace Draft

theorem derefSlot_of_mem_cellvars {d : Draft} {x : String} (h : x ∈ d.cellvars.toList) :
    d.derefSlot x = .ok (UInt32.ofNat (d.cellvars.toList.idxOf x)) := by
  rw [derefSlot, Pool.find?_of_mem h]

theorem derefSlot_of_mem_freevars {d : Draft} {x : String} (hcell : x ∉ d.cellvars.toList)
    (h : x ∈ d.freevars.toList) :
    d.derefSlot x =
      .ok (UInt32.ofNat (d.cellvars.toList.length + d.freevars.toList.idxOf x)) := by
  rw [derefSlot, Pool.find?_of_not_mem hcell, Pool.find?_of_mem h, Nat.add_comm]
  rfl

/-- The draft reaches a name through the cell with a number: to read, store or delete the name adds
one instruction with that number as its operand and changes nothing else. -/
def Derefs (d : Draft) (x : String) (slot : UInt32) : Prop :=
  ∀ ctx serial, Build.accessName x ctx ⟨d, serial⟩ =
    .ok () ⟨d.append ⟨derefOpcode d.kind ctx, slot, none, 0⟩, serial⟩

theorem derefs_of_derefSlot {d : Draft} {x : String} {slot : UInt32} (haccess : d.access x = .deref)
    (hslot : d.derefSlot x = .ok slot) : d.Derefs x slot := by
  intro ctx serial
  have hplain : Instruction.plain (derefOpcode d.kind ctx) slot =
      .ok ⟨derefOpcode d.kind ctx, slot, none, 0⟩ := by
    have hop : (derefOpcode d.kind ctx).hasOperand = true := by
      cases ctx with
      | load => simp only [derefOpcode]; split <;> rfl
      | store | del => rfl
    simp [Instruction.plain, hop]
  have hask {α : Type} (f : Draft → α) : Build.ask f ⟨d, serial⟩ = .ok (f d) ⟨d, serial⟩ := rfl
  have hderef : Build.derefSlot x ⟨d, serial⟩ = .ok slot ⟨d, serial⟩ := by
    show Build.ofExcept (d.derefSlot x) ⟨d, serial⟩ = _
    rw [hslot]
    rfl
  have hemit : Build.emitArg (derefOpcode d.kind ctx) slot ⟨d, serial⟩ =
      .ok () ⟨d.append ⟨derefOpcode d.kind ctx, slot, none, 0⟩, serial⟩ := by
    show (Build.ofExcept (Instruction.plain _ slot) >>= _) _ = _
    rw [hplain]
    rfl
  simp only [Build.accessName, bind, EStateM.bind, hask, haccess, hderef, hemit]

end Draft

section
variable {t : ScopeTable} {name qualname : String} {serial line : UInt32} {nested : Bool}
  {d : Draft} {x : String}

theorem Draft.Evolves.toList_cellvars
    (hd : (Draft.ofTable name qualname t serial line nested).Evolves d) :
    d.cellvars.toList = t.cellNames.eraseDups := by
  rw [hd.keeps Draft.cellvars fun _ => rfl]
  exact Pool.toList_ofList _

theorem Draft.Evolves.toList_freevars (hdistinct : (t.symbols.map Prod.fst).Nodup)
    (hd : (Draft.ofTable name qualname t serial line nested).Evolves d) :
    d.freevars.toList = t.freevars := by
  rw [hd.keeps Draft.freevars fun _ => rfl]
  exact Pool.toList_ofList_of_nodup (Symbols.nodup_sortedNames hdistinct .free)

theorem Draft.Evolves.access_eq_deref {r : Resolution}
    (hd : (Draft.ofTable name qualname t serial line nested).Evolves d)
    (hx : t.symbols.lookup x = some r) (hr : r = .cell ∨ r = .free) : d.access x = .deref := by
  have hlookup : d.resolution? x = some r := by
    rw [Draft.resolution?, hd.keeps Draft.symbols fun _ => rfl]
    exact hx
  rcases hr with rfl | rfl <;> simp [Draft.access, hlookup]

/-- In a scope whose table names no variable twice, a cell is reached by its number among the cells,
and a free variable by its number among the free variables behind that of the cells, so never by a
number of a cell. The exception is a class with a cell for itself that refers to the class around
it: the name stands for both, and the cell of its own is taken, which is the first one. -/
theorem Draft.Evolves.derefs (hdistinct : (t.symbols.map Prod.fst).Nodup)
    (hd : (Draft.ofTable name qualname t serial line nested).Evolves d) (x : String) :
    (t.symbols.lookup x = some .cell →
      x ∈ t.cellNames ∧ d.Derefs x (UInt32.ofNat (t.cellNames.eraseDups.idxOf x))) ∧
    (t.symbols.lookup x = some .free → ¬ t.OwnsCell x →
      x ∈ t.freevars ∧
      d.Derefs x (UInt32.ofNat (t.cellNames.eraseDups.length + t.freevars.idxOf x)) ∧
      (t.cellNames.eraseDups.length + t.freevars.length ≤ 2 ^ 32 → t.cellNames.eraseDups.length ≤
        (UInt32.ofNat (t.cellNames.eraseDups.length + t.freevars.idxOf x)).toNat)) ∧
    (t.symbols.lookup x = some .free → t.OwnsCell x → d.Derefs x 0) := by
  refine ⟨fun hx => ?_, fun hx howns => ?_, fun hx howns => ?_⟩
  · have hmem : x ∈ t.cellNames :=
      ScopeTable.mem_cellNames.mpr (.inr (Symbols.mem_sortedNames.mpr (Symbols.mem_of_lookup hx)))
    refine ⟨hmem, derefs_of_derefSlot (hd.access_eq_deref hx (.inl rfl)) ?_⟩
    rw [← hd.toList_cellvars]
    exact derefSlot_of_mem_cellvars (hd.toList_cellvars ▸ List.mem_eraseDups.mpr hmem)
  · have hfree : (x, .free) ∈ t.symbols := Symbols.mem_of_lookup hx
    have hmem : x ∈ t.freevars := Symbols.mem_sortedNames.mpr hfree
    have hcell : x ∉ d.cellvars.toList := by
      rw [hd.toList_cellvars, List.mem_eraseDups, ScopeTable.mem_cellNames]
      rintro (hown | hcell)
      · exact howns hown
      · cases Symbols.eq_of_mem hdistinct hfree (Symbols.mem_sortedNames.mp hcell)
    refine ⟨hmem, derefs_of_derefSlot (hd.access_eq_deref hx (.inr rfl)) ?_, fun hfit => ?_⟩
    · rw [← hd.toList_cellvars, ← hd.toList_freevars hdistinct]
      exact derefSlot_of_mem_freevars hcell (hd.toList_freevars hdistinct ▸ hmem)
    · have hlt := List.idxOf_lt_length_of_mem hmem
      have hfit' : t.cellNames.eraseDups.length + t.freevars.idxOf x < 2 ^ 32 := by omega
      rw [UInt32.toNat_ofNat_of_lt' hfit']
      exact Nat.le_add_right _ _
  · obtain ⟨hneeds, rfl⟩ := howns
    have hfirst : t.cellNames.eraseDups.idxOf classCell = 0 := by
      simp [ScopeTable.cellNames, hneeds, List.eraseDups_cons]
    have hmem : classCell ∈ d.cellvars.toList := by
      rw [hd.toList_cellvars, List.mem_eraseDups, ScopeTable.mem_cellNames]
      exact .inl ⟨hneeds, rfl⟩
    refine derefs_of_derefSlot (hd.access_eq_deref hx (.inr rfl)) ?_
    rw [derefSlot_of_mem_cellvars hmem, hd.toList_cellvars, hfirst]
    rfl

end

/-- The table of a class with a cell for itself, a cell `a` and the free variable `b`. -/
def classTable : ScopeTable :=
  { ScopeTable.ofClass "A" 1 with
    symbols := [("b", .free), ("a", .cell)], needsClassCell := true }

/-- In a class with two cells the free variable has number 2. -/
theorem classTable_derefs :
    (classTable.symbols.map Prod.fst).Nodup ∧ classTable.symbols.lookup "b" = some .free ∧
      ¬ classTable.OwnsCell "b" ∧
      (Draft.ofTable "A" "A" classTable 1 1 false).Derefs "b" 2 := by
  have hdistinct : (classTable.symbols.map Prod.fst).Nodup := by decide
  have hfree : classTable.symbols.lookup "b" = some .free := by decide
  have howns : ¬ classTable.OwnsCell "b" := fun h => absurd h.2 (by decide)
  have hslot : UInt32.ofNat (classTable.cellNames.eraseDups.length + classTable.freevars.idxOf "b") =
      2 := by decide +kernel
  have hderefs := (Draft.Evolves.derefs hdistinct
    (.refl (Draft.ofTable "A" "A" classTable 1 1 false)) "b").2.1 hfree howns
  exact ⟨hdistinct, hfree, howns, hslot ▸ hderefs.2.1⟩

/-- A class inside a method of a class: its body reads the cell of the class around it, and a method
of its own reads that of its own class. -/
def innerClassProgram : Program :=
  let noArgs : Arguments := ⟨[], [], none, [], [], none, []⟩
  .module [.classDef 1 "A" [] [] [.functionDef 2 "f" noArgs
    [.classDef 3 "B" [] [] [.expr 4 (.name 4 "__class__" .load),
      .functionDef 5 "g" noArgs [.ret 6 (some (.name 6 "__class__" .load))] [] none] []] [] none] []]

def innerClassTable : ScopeTable :=
  let g := { ScopeTable.function "g" 5 with symbols := [("__class__", .free)] }
  let b := { ScopeTable.ofClass "B" 3 with
    symbols := [("__class__", .free), ("g", .local)], needsClassCell := true, children := [g] }
  let f := { ScopeTable.function "f" 2 with
    symbols := [("B", .local), ("__class__", .free)], children := [b] }
  let a := { ScopeTable.ofClass "A" 1 with
    symbols := [("f", .local)], needsClassCell := true, children := [f] }
  { ScopeTable.module with symbols := [("A", .local)], children := [a] }

/-- The body of the inner class reads number 0, which is the cell of the inner class: the free
variable of that name, which is the cell of the class around it, has number 1. -/
theorem innerClassProgram_reads_own_cell : ∃ c b,
    compile innerClassProgram innerClassTable {} = .ok c ∧
    (c.nested.flatMap CodeObject.nested).flatMap CodeObject.nested = [b] ∧
    (b.cellvars, b.freevars) = (["__class__"], ["__class__"]) ∧
    ((decode b.code).toOption.bind (·[4]?)).map (fun e => (e.opcode, e.arg)) =
      some (.loadClassderef, 0) := by
  have hcode : (compile innerClassProgram innerClassTable {}).toOption.map (fun c =>
      ((c.nested.flatMap CodeObject.nested).flatMap CodeObject.nested).map fun b =>
        ((b.cellvars, b.freevars),
          ((decode b.code).toOption.bind (·[4]?)).map fun e => (e.opcode, e.arg))) =
      some [((["__class__"], ["__class__"]), some (.loadClassderef, 0))] := by
    decide +kernel
  cases hc : compile innerClassProgram innerClassTable {} with
  | error e => simp [hc, Except.toOption] at hcode
  | ok c =>
    rw [hc] at hcode
    obtain ⟨b, hb, hread⟩ := List.map_eq_singleton_iff.mp (Option.some.inj hcode)
    exact ⟨c, b, rfl, hb, Prod.mk.inj hread⟩

end Wordcode
