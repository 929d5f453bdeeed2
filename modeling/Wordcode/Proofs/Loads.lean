import Wordcode.Proofs.ScopeTree

/-!
# Constants that are loaded

A constant is loaded by its number in the table of the scope, which holds the first constant of the
scope with the same key. That is the constant itself if no code object is part of it; a code object
may give way to another one with its serial number. Those of nested scopes have numbers of their
own, so they do so only where a program has code constants.
-/

set_option autoImplicit false

namespace Wordcode

namespace Pool

variable {p : Pool Constant.key} {c k : Constant}

theorem eq_of_key_eq (hc : c ∈ p.toList) (hk : k ∈ p.toList) (h : c.key = k.key) : c = k :=
  List.inj_on_of_nodup_map p.nodup_keys hc hk h

/-- An entry that comes into a table is the first constant with its key. -/
theorem find?_of_mem_foldl {cs : List Constant}
    (hk : k ∈ (cs.foldl (fun p c => (p.intern c).2) p).toList) :
    k ∈ p.toList ∨ cs.find? (fun c => c.key = k.key) = some k := by
  induction cs generalizing p with
  | nil => exact .inl hk
  | cons c cs ih =>
    have hgrows (cs : List Constant) (q : Pool Constant.key) :
        q.toList <+: (cs.foldl (fun p c => (p.intern c).2) q).toList := by
      induction cs generalizing q with
      | nil => exact List.prefix_rfl
      | cons c cs ih => exact (toList_prefix_intern q c).trans (ih _)
    have hnew (h : k ∈ (p.intern c).2.toList) : k ∈ p.toList ∨ k = c := by
      rw [toList_intern] at h
      split at h
      · exact .inl h
      · simpa using h
    by_cases hkey : c.key = k.key
    · -- the entry for `c` is in the table from here on, and no other one has its key
      obtain ⟨k', hk', hkey'⟩ := Option.map_eq_some_iff.mp (getElem?_intern p c)
      have hmem := List.mem_of_getElem? hk'
      have heq : k' = k := eq_of_key_eq ((hgrows cs _).subset hmem) hk (hkey'.trans hkey)
      rcases hnew (heq ▸ hmem) with h | h
      · exact .inl h
      · exact .inr (by rw [List.find?_cons_of_pos (by simpa using hkey), h])
    · rw [List.find?_cons_of_neg (by simpa using hkey)]
      rcases ih hk with h | h
      · rcases hnew h with h | h
        · exact .inl h
        · exact absurd (congrArg Constant.key h).symm hkey
      · exact .inr h

end Pool

/-- What is loaded is interned before. -/
theorem Emits.intern_of_load {o : Options} {d : Draft} {steps : List Step} {n m : Nat} {log : Script}
    (h : Emits o d steps n log m) {arg : UInt32} {v : Constant} (hv : Item.load arg v ∈ log) :
    Item.intern v ∈ log := by
  induction h with
  | nil => cases hv
  | put hx _ ih =>
    rcases List.mem_append.mp hv with hv | hv
    · refine List.mem_append_left _ ?_
      cases hx <;> simp at hv
      simp [hv.2]
    · exact List.mem_append_right _ (ih hv)
  | closure _ _ _ _ _ _ _ ih => exact ih hv
  | run _ _ _ ihsub ih =>
    simp only [List.mem_append] at hv ⊢
    rcases hv with (hv | hv) | hv
    · cases (List.mem_replicate.mp hv).2
    · exact .inl (.inr (ihsub hv))
    · exact .inr (ih hv)

section Finished

variable {o : Options} {name qualname : String} {t : ScopeTable} {serial firstLine : UInt32}
  {nested : Bool} {log : Script} {d : Draft} {addNone : Bool} {filename : String} {c : CodeObject}

/-- The entry by which a constant is loaded is the first one with its key. -/
theorem load_of_finish (hw : (Draft.ofTable name qualname t serial firstLine nested).Writes log d)
    (hc : d.finish addNone filename = .ok c) {arg : UInt32} {v : Constant}
    (hv : Item.load arg v ∈ log) :
    ∃ i k, arg = UInt32.ofNat i ∧ c.constants[i]? = some k ∧ k.Alike v ∧
      log.interned.find? (fun u => u.key = v.key) = some k := by
  obtain ⟨i, harg, hi⟩ : d.Resolves (.load arg v) := hw.resolves hv
  obtain ⟨k, hk, hkey⟩ := Option.map_eq_some_iff.mp hi
  obtain ⟨_, _, _, _, _, _, _, _, _, _, _, _, hconstants, _⟩ :=
    Draft.assemble_eq_ok (Draft.of_finish_ok hc)
  refine ⟨i, k, harg, ?_, Constant.key_inj.mp hkey, ?_⟩
  · rw [hconstants]
    exact getElem?_of_isPrefix (d.evolves_close addNone).constants hk
  · rw [← hkey]
    have hmem := List.mem_of_getElem? hk
    rw [hw.constants_eq] at hmem
    exact (Pool.find?_of_mem_foldl hmem).resolve_left (List.not_mem_nil)

/-- No two constants of a code object have the same key. -/
theorem eq_of_key_of_finish (hc : d.finish addNone filename = .ok c) {k v : Constant}
    (hk : k ∈ c.constants) (hv : v ∈ c.constants) (h : k.key = v.key) : k = v := by
  obtain ⟨_, _, _, _, _, _, _, _, _, _, _, _, hconstants, _⟩ :=
    Draft.assemble_eq_ok (Draft.of_finish_ok hc)
  rw [hconstants] at hk hv
  exact Pool.eq_of_key_eq hk hv h

end Finished

theorem ScopeTable.Inside.scopeCount_le {t u : ScopeTable} (h : t.Inside u) :
    u.scopeCount ≤ t.scopeCount := by
  have hchild {t u : ScopeTable} (hu : u ∈ t.children) : u.scopeCount ≤ t.scopeCount := by
    obtain ⟨xs, ys, heq⟩ := List.append_of_mem hu
    rw [scopeCount_eq t, heq, scopeCountOfAll_append, scopeCountOfAll]
    omega
  induction h with
  | child hu => exact hchild hu
  | deeper _ hv ih => exact Nat.le_trans (hchild hv) ih

/-- By the operand `arg` of a load, `c` gives the first constant of the script with the key of `v`:
`v` itself if no code object is part of it, or if it is a code object and these are kept apart. -/
def CodeObject.Gives (c : CodeObject) (log : Script) (apart : Prop) (arg : UInt32) (v : Constant) :
    Prop :=
  ∃ i k, arg = UInt32.ofNat i ∧ c.constants[i]? = some k ∧ k.Alike v ∧
    log.interned.find? (fun u => u.key = v.key) = some k ∧ (v.CodeFree → k = v) ∧
    (apart → v.code? ≠ none → k = v)

theorem gives_of_finish {o : Options} {name qualname : String} {table : ScopeTable}
    {serial line : UInt32} {nested : Bool} {steps : List Step} {log : Script} {m : Nat} {d : Draft}
    {addNone : Bool} {code : CodeObject} {apart : Prop}
    (hemits : Emits o (.ofTable name qualname table serial line nested) steps 1 log m)
    (hw : (Draft.ofTable name qualname table serial line nested).Writes log d)
    (hfinish : d.finish addNone o.filename = .ok code)
    (hcodes : apart → ∀ k, Item.intern (.code k) ∈ log → .code k ∈ code.constants)
    {arg : UInt32} {v : Constant} (hv : Item.load arg v ∈ log) : code.Gives log apart arg v := by
  obtain ⟨i, k, harg, hk, halike, hfirst⟩ := load_of_finish hw hfinish hv
  refine ⟨i, k, harg, hk, halike, hfirst, fun hfree => hfree.eq_of_alike halike,
    fun hapart hcode => ?_⟩
  cases v with
  | code k' =>
    exact eq_of_key_of_finish hfinish (List.mem_of_getElem? hk)
      (hcodes hapart k' (hemits.intern_of_load hv)) (Constant.key_inj.mpr halike)
  | _ => exact absurd rfl hcode

namespace ScopeRun.Within

variable {o : Options} {p : Program} {t : ScopeTable} {r : ScopeRun}

/-- If no code constant stands in the program, the code objects of all nested scopes are among the
constants of the scope. -/
theorem mem_constants (h : r.Within o p t) (hquotes : ∀ k, ¬ p.Quotes k)
    (hcount : t.scopeCount ≤ 2 ^ 32) {code : CodeObject} (hcode : Item.intern (.code code) ∈ r.log) :
    .code code ∈ r.code.constants := by
  obtain ⟨hr, ⟨name, qualname, serial, line, nested, hopened⟩, htable, hwithin⟩ := h
  have hstands : ∃ around, r.first.draft.Stands r.table around := by
    rw [hopened]
    cases nested with
    | false => exact ⟨[], rfl, rfl, rfl⟩
    | true => exact ⟨[.function name 0], rfl, rfl, rfl⟩
  obtain ⟨around, hstands⟩ := hstands
  have hsmall : r.table.scopeCount ≤ 2 ^ 32 := by
    rcases htable with htable | hinside
    · rwa [htable]
    · exact Nat.le_trans hinside.scopeCount_le hcount
  have hnumbered : r.first.Numbered r.first.nextSerial.toNat r.first.nextSerial.toNat := by
    refine ⟨UInt32.ofNat_toNat.symm, Nat.le_refl _, ?_, by rw [hopened]; nofun⟩
    rw [ScopeTable.scopeCount_eq] at hsmall
    rw [hopened]
    show r.first.nextSerial.toNat + ScopeTable.scopeCountOfAll r.table.children ≤ _
    omega
  have hwoven : ∃ taken entered, Woven o True r.table around r.first r.last r.log
      r.first.nextSerial.toNat taken entered ∧ ∀ r' ∈ entered, r.Enters o r' :=
    hr.runs.woven (fun k hk => hquotes k (hwithin k (Source.quotes_of_steps hk)))
      (fun _ _ _ => trivial) hstands hnumbered
  obtain ⟨_, _, hwoven, -⟩ := hwoven
  have hmem : code ∈ r.code.nested := by
    rw [(Draft.inherits_of_finish hr.finish).nested, hwoven.made]
    refine List.mem_append_right _ (List.mem_filterMap.mpr ⟨.code code, ?_, rfl⟩)
    exact List.mem_filterMap.mpr ⟨_, hcode, rfl⟩
  obtain ⟨k, hk, hkcode⟩ := List.mem_filterMap.mp hmem
  cases k <;> cases hkcode
  exact hk

theorem gives (h : r.Within o p t) {arg : UInt32} {v : Constant} (hv : Item.load arg v ∈ r.log) :
    r.code.Gives r.log ((∀ k, ¬ p.Quotes k) ∧ t.scopeCount ≤ 2 ^ 32) arg v := by
  obtain ⟨_, _, _, _, _, hopened⟩ := h.opened
  have hemits := h.completes.emits
  have hw := h.completes.runs.writes
  rw [hopened] at hemits hw
  exact gives_of_finish hemits hw h.completes.finish
    (fun ⟨hno, hcount⟩ _ => h.mem_constants hno hcount) hv

end ScopeRun.Within

/-- The constant that is loaded. Every code object that compiling a program makes is what the run of
the program, or of a scope entered within it, was finished to. For every load in such a run, the entry
with the number that it uses is the first constant of the scope with the key of the one that is asked
for: the very same one but for code objects, which count by their serial numbers. So it is the very
same one if no code object is part of it, and if it is a code object it is the same in a program
without code constants, which makes a function of the code object that it has just compiled. -/
theorem compile_loads {p : Program} {t : ScopeTable} {o : Options} {c : CodeObject}
    (h : compile p t o = .ok c) :
    (∀ c', c.Yields p.Quotes c' → ∃ r, p.HasRun o t r ∧ r.code = c') ∧
      ∀ r, p.HasRun o t r → ∀ arg v, Item.load arg v ∈ r.log →
        r.code.Gives r.log ((∀ k, ¬ p.Quotes k) ∧ t.scopeCount ≤ 2 ^ 32) arg v :=
  ⟨fun _ => exists_hasRun h, fun _ hrun _ _ => hrun.within.gives⟩

theorem nestProgram_loads : (∀ k, ¬ nestProgram.Quotes k) ∧ nestTable.scopeCount ≤ 2 ^ 32 ∧
    ∃ c, compile nestProgram nestTable {} = .ok c ∧
      (∀ c', c.Yields nestProgram.Quotes c' → ∃ r, nestProgram.HasRun {} nestTable r ∧ r.code = c') ∧
      ∀ r, nestProgram.HasRun {} nestTable r → ∀ arg v, Item.load arg v ∈ r.log →
        r.code.Gives r.log ((∀ k, ¬ nestProgram.Quotes k) ∧ nestTable.scopeCount ≤ 2 ^ 32) arg v := by
  have hok : (compile nestProgram nestTable {}).isOk = true := by decide +kernel
  refine ⟨not_quotes_nestProgram, by decide, ?_⟩
  cases h : compile nestProgram nestTable {} with
  | ok c => exact ⟨c, rfl, compile_loads h⟩
  | error e =>
    rw [h] at hok
    cases hok

/-- A code constant with the number that the first nested scope of a program gets. -/
def firstSerial : CodeObject :=
  { name := "g", qualname := "g", filename := "t.py", firstLine := 0, flags := .empty, argCount := 0,
    posonlyCount := 0, kwonlyCount := 0, stackSize := 0, serial := 1, constants := [], names := [],
    varnames := [], cellvars := [], freevars := [], code := [], lines := [] }

/-- A module that stores a code constant and then defines a function `f`. -/
def quotingProgram : Program :=
  .module [.assign 1 [.name 1 "x" .store] (.constant 1 (.code firstSerial)),
    .functionDef 2 "f" ⟨[], [], none, [], [], none, []⟩ [.pass 3] [] none]

def quotingTable : ScopeTable := { ScopeTable.module with children := [.function "f" 2] }

/-- The function is made of the code constant, which has the number of the function's own code. -/
theorem quotingProgram_loads_other : ∃ c code, compile quotingProgram quotingTable {} = .ok c ∧
    decode c.code = .ok code ∧
    code.map (fun e => (e.opcode, e.arg)) = [(.loadConst, 0), (.storeName, 0), (.loadConst, 0),
      (.loadConst, 1), (.makeFunction, 0), (.storeName, 1), (.loadConst, 2), (.returnValue, 0)] ∧
    c.nested.map CodeObject.name = ["g"] := by
  have hcode : (compile quotingProgram quotingTable {}).toOption.bind (fun c =>
      (decode c.code).toOption.map fun code =>
        (code.map fun e => (e.opcode, e.arg), c.nested.map CodeObject.name)) =
      some ([(.loadConst, 0), (.storeName, 0), (.loadConst, 0), (.loadConst, 1), (.makeFunction, 0),
        (.storeName, 1), (.loadConst, 2), (.returnValue, 0)], ["g"]) := by
    decide +kernel
  cases hc : compile quotingProgram quotingTable {} with
  | error e => simp [hc, Except.toOption] at hcode
  | ok c =>
    cases hd : decode c.code with
    | error e => simp [hc, hd, Except.toOption] at hcode
    | ok code =>
      simp only [hc, hd, Except.toOption, Option.bind_some, Option.map_some, Option.some.injEq,
        Prod.mk.injEq] at hcode
      exact ⟨c, code, rfl, hd, hcode⟩

end Wordcode
