import Wordcode.Proofs.Loads
import Wordcode.Proofs.Passage
import Wordcode.Proofs.Slots

/-!
# Closures

A function is made of a code object and of one cell for each of its free variables. The scope that
makes it finds such a cell by name, among its own cells or behind them among its own free variables,
which are cells that it has got in the same way. So every free variable leads outward through the
scopes that pass it on, up to the one that has the cell.
-/

set_option autoImplicit false

namespace Wordcode

namespace Script

/-- The cells for the free variables of a code object, taken from the numbers `slots`. -/
def captures (k : CodeObject) (slots : List UInt32) : Script :=
  if k.freevars.isEmpty then []
  else List.zipWith (Item.named .loadClosure) slots k.freevars ++
    [.emit .buildTuple (UInt32.ofNat k.freevars.length)]

/-- What is put on the stack for a function of a code object. -/
def closure (k : CodeObject) (slots : List UInt32) (qualname : String) (arg arg' : UInt32) :
    Script :=
  captures k slots ++ [Item.intern (.code k), Item.load arg (.code k), Item.intern (.str qualname),
    Item.load arg' (.str qualname)]

/-- A function is made only of what was put on the stack just before, and a code object for which
not `Q` is put among the constants only to be made into one. -/
inductive Wired (Q : CodeObject → Prop) : Script → Prop where
  | nil : Wired Q []
  | item {x : Item} {log : Script} : (∀ arg, x ≠ .emit .makeFunction arg) →
      (∀ k, x = .intern (.code k) → Q k) → Wired Q log → Wired Q (x :: log)
  | closure {k : CodeObject} {parts : FunctionParts} {slots : List UInt32} {qualname : String}
      {arg arg' : UInt32} {log : Script} : slots.length = k.freevars.length → Wired Q log →
      Wired Q (Script.closure k slots qualname arg arg' ++
        Item.emit .makeFunction { parts with closure := !k.freevars.isEmpty }.operand :: log)

section Wired

variable {Q : CodeObject → Prop} {log log' : Script} {k : CodeObject}

theorem Wired.append (h : Wired Q log) (h' : Wired Q log') : Wired Q (log ++ log') := by
  induction h with
  | nil => exact h'
  | item hmake hcode _ ih => exact .item hmake hcode ih
  | closure hslots _ ih =>
    rw [List.append_assoc]
    exact .closure hslots ih

theorem wired_of_forall (h : ∀ x ∈ log, (∀ arg, x ≠ .emit .makeFunction arg) ∧
    ∀ k, x = .intern (.code k) → Q k) : Wired Q log := by
  induction log with
  | nil => exact .nil
  | cons x log ih =>
    have ⟨hx, hlog⟩ := List.forall_mem_cons.mp h
    exact .item hx.1 hx.2 (ih hlog)

theorem mem_captures {slots : List UInt32} {x : Item} (h : x ∈ captures k slots) :
    (∃ slot v, x = .named .loadClosure slot v) ∨ ∃ arg, x = .emit .buildTuple arg := by
  unfold captures at h
  split at h
  · cases h
  · rcases List.mem_append.mp h with h | h
    · obtain ⟨i, hi, rfl⟩ := List.getElem_of_mem h
      rw [List.getElem_zipWith]
      exact .inl ⟨_, _, rfl⟩
    · exact .inr ⟨_, List.mem_singleton.mp h⟩

theorem ne_makeFunction_of_mem_closure {slots : List UInt32} {qualname : String}
    {arg arg' operand : UInt32} {x : Item} (h : x ∈ closure k slots qualname arg arg') :
    x ≠ .emit .makeFunction operand := by
  rintro rfl
  rcases List.mem_append.mp h with h | h
  · rcases mem_captures h with ⟨_, _, h⟩ | ⟨_, h⟩ <;> cases h
  · simp at h

/-- In front of where a function is made stands what it is made of. -/
theorem Wired.of_makeFunction (h : Wired Q log) {m : Nat} {operand : UInt32}
    (hm : log[m]? = some (.emit .makeFunction operand)) :
    ∃ pre k, ∃ parts : FunctionParts, ∃ slots qualname arg arg' post,
      log = pre ++ (Script.closure k slots qualname arg arg' ++
        Item.emit .makeFunction operand :: post) ∧
      m = pre.length + (Script.closure k slots qualname arg arg').length ∧
      slots.length = k.freevars.length ∧
      operand = { parts with closure := !k.freevars.isEmpty }.operand := by
  induction h generalizing m with
  | nil => cases hm
  | @item x log hx _ _ ih =>
    cases m with
    | zero => exact absurd (Option.some.inj hm) (hx operand)
    | succ m =>
      obtain ⟨pre, k, parts, slots, qualname, arg, arg', post, rfl, rfl, hslots, hop⟩ := ih hm
      exact ⟨x :: pre, k, parts, slots, qualname, arg, arg', post, rfl, by simp; omega, hslots, hop⟩
  | @closure k parts slots qualname arg arg' log hslots _ ih =>
    rcases Nat.lt_trichotomy m (Script.closure k slots qualname arg arg').length with
      hlt | rfl | hgt
    · rw [List.getElem?_append_left hlt] at hm
      exact absurd rfl (ne_makeFunction_of_mem_closure (List.mem_of_getElem? hm))
    · rw [List.getElem?_append_right (Nat.le_refl _), Nat.sub_self] at hm
      cases hm
      exact ⟨[], k, parts, slots, qualname, arg, arg', log, rfl, by simp, hslots, rfl⟩
    · obtain ⟨n, rfl⟩ := Nat.exists_eq_add_of_lt hgt
      rw [List.getElem?_append_right (by omega),
        show ∀ a b : Nat, a + b + 1 - a = b + 1 from fun a b => by omega,
        List.getElem?_cons_succ] at hm
      obtain ⟨pre, k', parts', slots', qualname', a, a', post, rfl, rfl, hslots', hop⟩ := ih hm
      refine ⟨Script.closure k slots qualname arg arg' ++ Item.emit .makeFunction
        { parts with closure := !k.freevars.isEmpty }.operand :: pre, k', parts', slots', qualname',
        a, a', post, ?_, ?_, hslots', hop⟩
      · simp
      · simp only [List.length_append, List.length_cons]
        omega

/-- Where a code object is put among the constants, its cells have been taken before. -/
theorem Wired.of_intern (h : Wired Q log) (hk : Item.intern (.code k) ∈ log) :
    Q k ∨ ∃ slots, slots.length = k.freevars.length ∧ captures k slots ⊆ log := by
  induction h with
  | nil => cases hk
  | item _ hcode _ ih =>
    rcases List.mem_cons.mp hk with hk | hk
    · exact .inl (hcode k hk.symm)
    · exact (ih hk).imp_right fun ⟨slots, hslots, hsub⟩ =>
        ⟨slots, hslots, fun _ hx => List.mem_cons_of_mem _ (hsub hx)⟩
  | @closure k' parts slots qualname arg arg' log hslots _ ih =>
    rcases List.mem_append.mp hk with hk | hk
    · obtain rfl : k = k' := by
        rcases List.mem_append.mp hk with hk | hk
        · rcases mem_captures hk with ⟨_, _, h⟩ | ⟨_, h⟩ <;> cases h
        · simpa using hk
      exact .inr ⟨slots, hslots, fun _ hx =>
        List.mem_append_left _ (List.mem_append_left _ hx)⟩
    · have hk : Item.intern (.code k) ∈ log := by simpa using hk
      exact (ih hk).imp_right fun ⟨slots, hslots, hsub⟩ =>
        ⟨slots, hslots, fun _ hx => List.mem_append_right _ (List.mem_cons_of_mem _ (hsub hx))⟩

/-- Every free variable has a cell. -/
theorem exists_mem_captures {slots : List UInt32} (hslots : slots.length = k.freevars.length)
    {v : String} (hv : v ∈ k.freevars) :
    ∃ slot, Item.named .loadClosure slot v ∈ captures k slots := by
  obtain ⟨i, hi, rfl⟩ := List.getElem_of_mem hv
  have hne : k.freevars.isEmpty = false := by
    rw [List.isEmpty_eq_false_iff]
    exact List.ne_nil_of_mem hv
  refine ⟨slots[i], ?_⟩
  rw [captures, hne, if_neg Bool.false_ne_true]
  refine List.mem_append_left _ (List.mem_iff_getElem.mpr ⟨i, ?_, List.getElem_zipWith⟩)
  rw [List.length_zipWith, hslots, Nat.min_self]
  exact hi

end Wired
end Script

section Schemes

variable {o : Options} {d : Draft} {n m : Nat} {log : Script}

theorem Emits.of_cells {names : List String}
    (h : Emits o d (names.map (Step.named .loadClosure)) n log m) :
    ∃ slots, slots.length = names.length ∧
      log = List.zipWith (Item.named .loadClosure) slots names := by
  induction names generalizing n log with
  | nil => exact ⟨[], rfl, h.of_nil.1⟩
  | cons x names ih =>
    obtain ⟨slot, rest, rfl, hrest⟩ := Emits.of_named h
    obtain ⟨slots, hslots, rfl⟩ := ih hrest
    exact ⟨slot :: slots, by simp [hslots], rfl⟩

/-- What makes a function writes what it is made of. -/
theorem Emits.of_closureSteps {k : CodeObject} {parts : FunctionParts} {qualname : String}
    (h : Emits o d (closureSteps k parts qualname) n log m) :
    ∃ slots arg arg', slots.length = k.freevars.length ∧
      log = Script.closure k slots qualname arg arg' ++
        [.emit .makeFunction { parts with closure := !k.freevars.isEmpty }.operand] := by
  obtain ⟨log₁, log₂, _, rfl, h₁, h₂⟩ := h.of_append
  have hlast : ∃ arg arg', log₂ = [.intern (.code k), .load arg (.code k), .intern (.str qualname),
      .load arg' (.str qualname),
      .emit .makeFunction { parts with closure := !k.freevars.isEmpty }.operand] := by
    obtain ⟨arg, _, rfl, hname⟩ := h₂.of_load
    obtain ⟨arg', _, rfl, hmake⟩ := hname.of_load
    obtain ⟨_, rfl, hnil⟩ := hmake.of_emit
    obtain ⟨rfl, _⟩ := hnil.of_nil
    exact ⟨arg, arg', rfl⟩
  have hfirst : ∃ slots, slots.length = k.freevars.length ∧ log₁ = Script.captures k slots := by
    unfold Script.captures
    split at h₁
    · next hempty =>
      refine ⟨[], ?_, ?_⟩
      · simp_all
      · rw [if_pos hempty]
        exact h₁.of_nil.1
    · next hne =>
      obtain ⟨cells, tuple, _, rfl, hcells, htuple⟩ := h₁.of_append
      obtain ⟨slots, hslots, rfl⟩ := hcells.of_cells
      obtain ⟨_, rfl, hnil⟩ := htuple.of_emit
      obtain ⟨rfl, _⟩ := hnil.of_nil
      refine ⟨slots, hslots, ?_⟩
      rw [if_neg hne]
  obtain ⟨arg, arg', rfl⟩ := hlast
  obtain ⟨slots, hslots, rfl⟩ := hfirst
  exact ⟨slots, arg, arg', hslots, by simp [Script.closure]⟩

theorem Step.Puts.wired {Q : CodeObject → Prop} {x : Step} {out : Script} (h : x.Puts out)
    (hx : x.isBasic = true) (hquotes : ∀ k, x.Quotes k → Q k) : Script.Wired Q out := by
  refine Script.wired_of_forall ?_
  cases h with
  | emit op arg =>
    refine List.forall_mem_singleton.mpr ⟨fun arg' heq => ?_, nofun⟩
    cases heq
    cases hx
  | load arg c =>
    refine List.forall_mem_cons.mpr ⟨⟨nofun, fun k heq => hquotes k ?_⟩, ?_⟩
    · cases heq
      rfl
    · exact List.forall_mem_singleton.mpr ⟨nofun, nofun⟩
  | intern c =>
    refine List.forall_mem_singleton.mpr ⟨nofun, fun k heq => hquotes k ?_⟩
    cases heq
    rfl
  | named | jump | label => exact List.forall_mem_singleton.mpr ⟨nofun, nofun⟩

/-- Scripts of schemes are wired. Steps that make a function are met in the middle of a script, so
they are kept apart in front. -/
theorem Emits.wired_behind {Q : CodeObject → Prop} {steps xs ys : List Step}
    (h : Emits o d steps n log m) (hsteps : steps = xs ++ ys)
    (hsimple : xs.all Step.isSimple = true) (hbasic : Basic ys)
    (hquotes : ∀ k, QuotesOf ys k → Q k) :
    ∃ log₁ log₂ i, log = log₁ ++ log₂ ∧ Emits o d xs n log₁ i ∧ log₂.Wired Q := by
  induction h generalizing xs ys with
  | nil =>
    obtain ⟨rfl, rfl⟩ := List.append_eq_nil_iff.mp hsteps.symm
    exact ⟨[], [], _, rfl, .nil, .nil⟩
  | @put d x steps n m out log hx h ih =>
    rcases List.append_eq_cons_iff.mp hsteps.symm with ⟨rfl, rfl⟩ | ⟨xs', rfl, hrest⟩
    · rw [basic_cons] at hbasic
      obtain ⟨log₁, log₂, _, rfl, hnil, hwired⟩ := ih (List.nil_append _).symm rfl hbasic.2
        fun k hk => hquotes k (quotesOf_cons.mpr (.inr hk))
      obtain ⟨rfl, _⟩ := hnil.of_nil
      exact ⟨[], _, _, (List.nil_append _).symm, .nil, (hx.wired hbasic.1 fun k hk =>
        hquotes k (quotesOf_cons.mpr (.inl hk))).append hwired⟩
    · rw [List.all_cons, Bool.and_eq_true_iff] at hsimple
      obtain ⟨log₁, log₂, i, rfl, h₁, hwired⟩ := ih hrest hsimple.2 hbasic hquotes
      exact ⟨_, log₂, i, (List.append_assoc ..).symm, .put hx h₁, hwired⟩
  | closure _ _ _ _ _ _ _ ih =>
    rcases List.append_eq_cons_iff.mp hsteps.symm with ⟨rfl, rfl⟩ | ⟨xs', rfl, _⟩
    · rw [basic_cons] at hbasic
      obtain ⟨log₁, log₂, _, rfl, h₁, hwired⟩ := ih rfl (Build.all_isSimple_closureSteps ..)
        hbasic.2 fun k hk => hquotes k (quotesOf_cons.mpr (.inr hk))
      obtain ⟨slots, arg, arg', hslots, rfl⟩ := h₁.of_closureSteps
      refine ⟨[], _, _, (List.nil_append _).symm, .nil, ?_⟩
      rw [List.append_assoc, List.singleton_append]
      exact .closure hslots hwired
    · cases hsimple
  | @run d t steps n k m log log' _ _ _ ihsub ih =>
    rcases List.append_eq_cons_iff.mp hsteps.symm with ⟨rfl, rfl⟩ | ⟨xs', rfl, _⟩
    · rw [basic_cons] at hbasic
      obtain ⟨log₁, log₂, _, rfl, hnil, hsub⟩ := ihsub (List.nil_append _).symm rfl (t.basic ..)
        fun k hk => hquotes k (quotesOf_cons.mpr (.inl (Task.quotes_of_steps hk)))
      obtain ⟨rfl, _⟩ := hnil.of_nil
      obtain ⟨log₃, log₄, _, rfl, hnil', hrest⟩ := ih (List.nil_append _).symm rfl hbasic.2
        fun k hk => hquotes k (quotesOf_cons.mpr (.inr hk))
      obtain ⟨rfl, _⟩ := hnil'.of_nil
      have hallocs : Script.Wired Q (List.replicate (t.labelCount o) .alloc) :=
        Script.wired_of_forall fun x hx => by
          rw [(List.mem_replicate.mp hx).2]
          exact ⟨nofun, nofun⟩
      exact ⟨[], _, _, (List.nil_append _).symm, .nil, (hallocs.append hsub).append hrest⟩
    · cases hsimple

theorem Emits.wired {Q : CodeObject → Prop} {steps : List Step} (h : Emits o d steps n log m)
    (hbasic : Basic steps) (hquotes : ∀ k, QuotesOf steps k → Q k) : log.Wired Q := by
  obtain ⟨log₁, log₂, _, rfl, hnil, hwired⟩ :=
    h.wired_behind (List.nil_append _).symm rfl hbasic hquotes
  obtain ⟨rfl, _⟩ := hnil.of_nil
  exact hwired

end Schemes

/-- Control goes on behind the item and comes to it only from in front. -/
def Item.isStraight : Item → Bool
  | .emit op _ | .named op _ _ => !op.isTerminal
  | .load .. | .intern _ => true
  | .jump .. | .label _ | .alloc => false

/-- The item is the instruction that stands in the wordcode. -/
def Item.Shows (x : Item) (e : Decoded) : Prop :=
  ∃ i, x.instruction? = some i ∧ e.opcode = i.opcode ∧ e.arg = i.arg

theorem Script.isStraight_of_mem_closure {k : CodeObject} {slots : List UInt32} {qualname : String}
    {arg arg' : UInt32} {x : Item} (hx : x ∈ Script.closure k slots qualname arg arg') :
    x.isStraight = true := by
  rcases List.mem_append.mp hx with hx | hx
  · rcases mem_captures hx with ⟨_, _, rfl⟩ | ⟨_, rfl⟩ <;> rfl
  · simp only [List.mem_cons, List.not_mem_nil, or_false] at hx
    rcases hx with rfl | rfl | rfl | rfl <;> rfl

theorem Script.filter_closure (k : CodeObject) (slots : List UInt32) (qualname : String)
    (arg arg' : UInt32) :
    (Script.closure k slots qualname arg arg').filter (·.instruction?.isSome) =
      captures k slots ++ [.load arg (.code k), .load arg' (.str qualname)] := by
  have hcaptures : (captures k slots).filter (·.instruction?.isSome) = captures k slots :=
    List.filter_eq_self.mpr fun x hx => by
      rcases mem_captures hx with ⟨_, _, rfl⟩ | ⟨_, rfl⟩ <;> rfl
  rw [Script.closure, List.filter_append, hcaptures]
  rfl

/-- Only one kind of item makes a function. -/
theorem Item.eq_makeFunction {d : Draft} {x : Item} {i : Instruction}
    (hfaithful : x.isFaithful = true) (hresolves : d.Resolves x) (hi : x.instruction? = some i)
    (hop : i.opcode = .makeFunction) : ∃ operand, x = .emit .makeFunction operand := by
  cases x with
  | emit op arg =>
    cases hi
    obtain rfl : op = .makeFunction := hop
    exact ⟨arg, rfl⟩
  | named op arg v =>
    cases hi
    obtain rfl : op = .makeFunction := hop
    cases hfaithful
  | jump op b =>
    cases hi
    obtain rfl : op = .makeFunction := hop
    have hjump : Opcode.isJump .makeFunction = true := hresolves
    cases hjump
  | load =>
    cases hi
    cases hop
  | label | alloc | intern => cases hi

/-- Items that stand in a row in front of an instruction of the wordcode stand so in the
wordcode. -/
theorem Script.Renders.row {d : Draft} {log : Script} {code : List Decoded} {pos : Nat → Nat}
    (hrenders : log.Renders code pos) (hcovers : d.Covers log code pos) {pre row post : Script}
    (hlog : log = pre ++ (row ++ post)) (hrow : ∀ x ∈ row, x.isStraight = true) {j : Nat}
    (hj : j < code.length) (hnext : log.Next (pre.length + row.length) (pos j)) {p : Place}
    (hp : place (log.take (pre.length + row.length)) = some p)
    (hreach : Graph.Reaches d.blocks Draft.entry p.block) :
    ∃ before es, code.take j = before ++ es ∧
      List.Forall₂ Item.Shows (row.filter (·.instruction?.isSome)) es := by
  induction row using List.reverseRecOn generalizing post j p with
  | nil => exact ⟨code.take j, [], (List.append_nil _).symm, .nil⟩
  | append_singleton row x ih =>
    have hx : log[pre.length + row.length]? = some x := by
      rw [hlog, List.getElem?_append_right (Nat.le_add_right _ _), Nat.add_sub_cancel_left,
        List.append_assoc, List.getElem?_append_right (Nat.le_refl _), Nat.sub_self]
      rfl
    have hlog' : log = pre ++ (row ++ x :: post) := by simpa using hlog
    have hrow' : ∀ y ∈ row, y.isStraight = true := fun y hy => hrow y (List.mem_append_left _ hy)
    have hstraight : x.isStraight = true := hrow x (by simp)
    rw [List.length_append, List.length_singleton, ← Nat.add_assoc] at hnext hp
    rw [place_take_succ hx] at hp
    cases hi : x.instruction? with
    | none =>
      obtain ⟨before, es, htake, hshows⟩ : ∃ before es, code.take j = before ++ es ∧
          List.Forall₂ Item.Shows (row.filter (·.instruction?.isSome)) es := by
        refine ih hlog' hrow' hj (.skip hx hi hnext) ?_ hreach
        cases x with
        | intern => exact hp
        | label | alloc | jump => cases hstraight
        | emit | named | load => cases hi
      exact ⟨before, es, htake, by simpa [hi] using hshows⟩
    | some i =>
      have hplain : i.opcode.isTerminal = false ∧ i.target = none := by
        cases x with
        | emit | named =>
          cases hi
          exact ⟨by simpa [Item.isStraight] using hstraight, rfl⟩
        | load =>
          cases hi
          exact ⟨rfl, rfl⟩
        | label | alloc | jump => cases hstraight
        | intern => cases hi
      rw [Item.advance_of_instruction hi] at hp
      obtain ⟨q, hq, hqp⟩ := Option.bind_eq_some_iff.mp hp
      rw [hplain.1, if_neg Bool.false_ne_true] at hqp
      cases hqp
      -- the item stands in the wordcode too, and what follows it there is what follows in the row
      obtain ⟨j', hj', hpos⟩ := hcovers.index _ x i q hx hi hq hreach
      obtain ⟨e, he⟩ : ∃ e, code[j']? = some e := ⟨_, List.getElem?_eq_getElem hj'⟩
      obtain ⟨y, i', hy, hyi, hop, harg⟩ := hrenders.item j' e he
      rw [hpos, hx] at hy
      cases hy
      rw [hi] at hyi
      cases hyi
      obtain ⟨hlt, hfalls⟩ := hrenders.falls j' e he (hop ▸ hplain.1)
      rw [hpos] at hfalls
      obtain rfl := hrenders.injective j (j' + 1) hj hlt (hnext.unique hfalls)
      have hhere : log.Next (pre.length + row.length) (pos j') := by
        rw [hpos]
        exact .here hx hi
      obtain ⟨before, es, htake, hshows⟩ := ih hlog' hrow' hj' hhere hq hreach
      refine ⟨before, es ++ [e], ?_, ?_⟩
      · rw [List.take_add_one, he, htake, List.append_assoc]
        rfl
      · rw [List.filter_append]
        refine List.rel_append hshows ?_
        simpa [hi] using ⟨i, hi, hop, harg hplain.2⟩

namespace CodeObject

/-- The operand is the number of a cell or of a free variable, as a word. -/
def CellAt (c : CodeObject) (arg : UInt32) (v : String) : Prop :=
  ∃ i, arg = UInt32.ofNat i ∧ c.derefName? i = some v ∧
    (c.nameCount .cells ≤ 2 ^ 32 → arg.toNat = i)

/-- The operand is the number of a constant, as a word. -/
def ConstantAt (c : CodeObject) (arg : UInt32) (v : Constant) : Prop :=
  ∃ i, arg = UInt32.ofNat i ∧ c.constants[i]? = some v ∧
    (c.constants.length ≤ 2 ^ 32 → arg.toNat = i)

/-- The instructions make a function of the code object `k`: they take the cells for its free
variables in their order, put them in a tuple and load the code object and a name. Without free
variables there is no tuple, and the function gets none. -/
structure Makes (c k : CodeObject) (cells tuple : List Decoded) (load load' make : Decoded) :
    Prop where
  cells : List.Forall₂ (fun e v => e.opcode = .loadClosure ∧ c.CellAt e.arg v) cells k.freevars
  tuple : tuple.map (fun e => (e.opcode, e.arg)) =
    if k.freevars.isEmpty then [] else [(.buildTuple, UInt32.ofNat k.freevars.length)]
  code : load.opcode = .loadConst ∧ c.ConstantAt load.arg (.code k)
  name : load'.opcode = .loadConst
  flag : make.arg &&& 8 = if k.freevars.isEmpty then 0 else 8

/-- In front of every instruction that makes a function stands what the function is made of. -/
def WiresClosures (c : CodeObject) : Prop :=
  ∃ code, Wordcode.decode c.code = .ok code ∧ ∀ j make, code[j]? = some make →
    make.opcode = .makeFunction → ∃ k before cells tuple load load',
      code.take j = before ++ (cells ++ (tuple ++ [load, load'])) ∧
      c.Makes k cells tuple load load' make

theorem CellAt.mem {c : CodeObject} {arg : UInt32} {v : String} (h : c.CellAt arg v) :
    v ∈ c.cellvars ∨ v ∈ c.freevars := by
  obtain ⟨i, _, hi, _⟩ := h
  unfold derefName? at hi
  split at hi
  · exact .inl (List.mem_of_getElem? hi)
  · exact .inr (List.mem_of_getElem? hi)

end CodeObject

theorem exists_append_of_forall₂ {α β : Type} {R : α → β → Prop} {xs ys : List α} {bs : List β}
    (h : List.Forall₂ R (xs ++ ys) bs) : ∃ bs₁ bs₂, bs = bs₁ ++ bs₂ ∧ List.Forall₂ R xs bs₁ ∧
      List.Forall₂ R ys bs₂ := by
  have hflip : List.Forall₂ (flip R) bs (xs ++ ys) := h.flip
  exact ⟨bs.take xs.length, bs.drop xs.length, (List.take_append_drop ..).symm,
    (List.forall₂_take_append _ _ _ hflip).flip, (List.forall₂_drop_append _ _ _ hflip).flip⟩

/-- The instructions that take cells take them in the order of the names. -/
theorem cells_of_shows {c : CodeObject} {names : List String} {slots : List UInt32}
    {cells : List Decoded} (hslots : slots.length = names.length)
    (hshows : List.Forall₂ Item.Shows (List.zipWith (Item.named .loadClosure) slots names) cells)
    (hcells : ∀ slot v, Item.named .loadClosure slot v ∈
      List.zipWith (Item.named .loadClosure) slots names → c.CellAt slot v) :
    List.Forall₂ (fun e v => e.opcode = .loadClosure ∧ c.CellAt e.arg v) cells names := by
  induction names generalizing slots cells with
  | nil =>
    rw [List.zipWith_nil_right] at hshows
    cases hshows
    exact .nil
  | cons v names ih =>
    cases slots with
    | nil => cases hslots
    | cons slot slots =>
      rw [List.zipWith_cons_cons] at hshows hcells
      cases hshows with
      | cons hx hshows =>
        obtain ⟨_, ⟨⟩, hop, harg⟩ := hx
        refine .cons ⟨hop, harg ▸ hcells slot v List.mem_cons_self⟩ ?_
        exact ih (Nat.succ.inj hslots) hshows fun slot v h =>
          hcells slot v (List.mem_cons_of_mem _ h)

theorem captured_of_shows {c k : CodeObject} {slots : List UInt32} {es : List Decoded}
    (hslots : slots.length = k.freevars.length)
    (hshows : List.Forall₂ Item.Shows (Script.captures k slots) es)
    (hcells : ∀ slot v, Item.named .loadClosure slot v ∈ Script.captures k slots →
      c.CellAt slot v) :
    ∃ cells tuple, es = cells ++ tuple ∧
      List.Forall₂ (fun e v => e.opcode = .loadClosure ∧ c.CellAt e.arg v) cells k.freevars ∧
      tuple.map (fun e => (e.opcode, e.arg)) =
        if k.freevars.isEmpty then [] else [(.buildTuple, UInt32.ofNat k.freevars.length)] := by
  unfold Script.captures at hshows hcells
  split at hshows
  · next hempty =>
    cases hshows
    refine ⟨[], [], rfl, ?_, ?_⟩
    · rw [List.isEmpty_iff.mp hempty]
      exact .nil
    · rw [if_pos hempty]
      rfl
  · next hne =>
    rw [if_neg hne] at hcells
    obtain ⟨cells, tuple, rfl, hcaptured, htuple⟩ := exists_append_of_forall₂ hshows
    obtain _ | ⟨⟨_, ⟨⟩, hop, harg⟩, ⟨⟩⟩ := htuple
    refine ⟨cells, _, rfl, cells_of_shows hslots hcaptured fun slot v h =>
      hcells slot v (List.mem_append_left _ h), ?_⟩
    rw [if_neg hne, List.map_singleton, hop, harg]

theorem FunctionParts.operand_and_eight (p : FunctionParts) :
    p.operand &&& 8 = if p.closure then 8 else 0 := by
  obtain ⟨defaults, kwDefaults, annotations, closure⟩ := p
  cases defaults <;> cases kwDefaults <;> cases annotations <;> cases closure <;> rfl

theorem cellAt_of_finish {d : Draft} {addNone : Bool} {filename : String} {c : CodeObject}
    (hc : d.finish addNone filename = .ok c) {slot : UInt32} {v : String}
    (h : (d.close addNone).Resolves (.named .loadClosure slot v)) : c.CellAt slot v := by
  obtain ⟨i, rfl, hi⟩ := h
  have hname := nameAt?_of_finish hc (rfl : Opcode.nameTable? .loadClosure = some .cells) i
  rw [hi] at hname
  refine ⟨i, rfl, hname, fun hsmall => ?_⟩
  exact UInt32.toNat_ofNat_of_lt' (Nat.lt_of_lt_of_le (CodeObject.lt_nameCount hname) hsmall)

/-- A code object that is kept apart from the others is the constant with the number used for it. -/
theorem CodeObject.Gives.constantAt {c k : CodeObject} {log : Script} {arg : UInt32}
    (h : c.Gives log True arg (.code k)) : c.ConstantAt arg (.code k) := by
  obtain ⟨i, k', rfl, hk, _, _, _, hsame⟩ := h
  rw [hsame trivial nofun] at hk
  have hlt := (List.getElem?_eq_some_iff.mp hk).1
  exact ⟨i, rfl, hk, fun hsmall => UInt32.toNat_ofNat_of_lt' (Nat.lt_of_lt_of_le hlt hsmall)⟩

section Finished

variable {o : Options} {name qualname : String} {t : ScopeTable} {serial firstLine : UInt32}
  {nested : Bool} {steps : List Step} {log : Script} {m : Nat} {d : Draft} {addNone : Bool}
  {c : CodeObject}

/-- The free variables of a code object inside are cells or free variables of the scope. -/
theorem mem_of_freevars_of_finish
    (hemits : Emits o (.ofTable name qualname t serial firstLine nested) steps 1 log m)
    (hbasic : Basic steps) (hquotes : ∀ k, ¬ QuotesOf steps k)
    (hw : (Draft.ofTable name qualname t serial firstLine nested).Writes log d)
    (hfinish : d.finish addNone o.filename = .ok c) {k : CodeObject} (hk : k ∈ c.nested)
    {v : String} (hv : v ∈ k.freevars) : v ∈ c.cellvars ∨ v ∈ c.freevars := by
  obtain ⟨i, hi, hcode⟩ := List.mem_filterMap.mp hk
  obtain rfl : i = .code k := by
    cases i <;> cases hcode
    rfl
  have hintern := mem_constants_of_finish hw hfinish hi
  obtain ⟨slots, hslots, hsub⟩ := ((hemits.wired hbasic hquotes).of_intern hintern).resolve_left id
  obtain ⟨slot, hslot⟩ := Script.exists_mem_captures hslots hv
  have hresolves := (d.evolves_close addNone).resolves (hw.resolves (hsub hslot))
  exact (cellAt_of_finish hfinish hresolves).mem

theorem wiresClosures_of_finish
    (hemits : Emits o (.ofTable name qualname t serial firstLine nested) steps 1 log m)
    (hclosed : Closed steps) (hbasic : Basic steps) (hquotes : ∀ k, ¬ QuotesOf steps k)
    (hw : (Draft.ofTable name qualname t serial firstLine nested).Writes log d)
    (hfinish : d.finish addNone o.filename = .ok c)
    (hcodes : ∀ k, Item.intern (.code k) ∈ log → .code k ∈ c.constants) : c.WiresClosures := by
  obtain ⟨tail, code, pos, hwhole, _, _, htail, hdecode, hrenders, hcovers⟩ :=
    hw.exists_renders (hemits.sound hclosed hw rfl) (Draft.of_finish_ok hfinish)
  have hreturn : ∀ x ∈ tail, x.isFaithful = true ∧ (∀ arg, x ≠ .emit .makeFunction arg) ∧
      (∀ k, x ≠ .intern (.code k)) ∧ ∀ arg k, x ≠ .load arg (.code k) := by
    rcases htail with rfl | ⟨arg, rfl⟩
    · simp
    · cases addNone <;> simp [Script.closing, Item.isFaithful] <;> decide
  have hwired : Script.Wired (fun _ => False) (log ++ tail) :=
    (hemits.wired hbasic hquotes).append (Script.wired_of_forall fun x hx =>
      ⟨(hreturn x hx).2.1, (hreturn x hx).2.2.1⟩)
  have hfaithful : ∀ x ∈ log ++ tail, x.isFaithful = true :=
    List.forall_mem_append.mpr ⟨hemits.faithful hbasic.faithful, fun x hx => (hreturn x hx).1⟩
  refine ⟨code, hdecode, fun j make hmake hop => ?_⟩
  have hj : j < code.length := (List.getElem?_eq_some_iff.mp hmake).1
  obtain ⟨x, i, hx, hi, hxop, harg⟩ := hrenders.item j make hmake
  have hmem := List.mem_of_getElem? hx
  obtain ⟨operand, rfl⟩ := Item.eq_makeFunction (hfaithful _ hmem) (hwhole.resolves hmem) hi
    (hxop.symm.trans hop)
  cases hi
  obtain ⟨pre, k, parts, slots, qualname', arg, arg', post, hlog, hpos, hslots, rfl⟩ :=
    hwired.of_makeFunction hx
  obtain ⟨p, hplace, hreach⟩ := hcovers.place j hj
  rw [hpos] at hx hplace
  have hnext : (log ++ tail).Next
      (pre.length + (Script.closure k slots qualname' arg arg').length) (pos j) := by
    rw [hpos]
    exact .here hx rfl
  obtain ⟨before, es, htake, hshows⟩ := hrenders.row hcovers hlog
    (fun _ => Script.isStraight_of_mem_closure) hj hnext hplace hreach
  rw [Script.filter_closure] at hshows
  obtain ⟨captured, loads, rfl, hcaptured, hloads⟩ := exists_append_of_forall₂ hshows
  obtain _ | ⟨⟨_, ⟨⟩, hload, hloadArg⟩, _ | ⟨⟨_, ⟨⟩, hload', _⟩, ⟨⟩⟩⟩ := hloads
  have hsub : Script.closure k slots qualname' arg arg' ⊆ log ++ tail := by
    intro x hx
    rw [hlog]
    exact List.mem_append_right _ (List.mem_append_left _ hx)
  obtain ⟨cells, tuple, rfl, hcells, htuple⟩ := captured_of_shows (c := c) hslots hcaptured
    fun slot v h => cellAt_of_finish hfinish (hwhole.resolves (hsub (List.mem_append_left _ h)))
  have hloaded : Item.load arg (.code k) ∈ log := by
    rcases List.mem_append.mp (hsub (by simp [Script.closure]) : Item.load arg (.code k) ∈ _) with
      h | h
    · exact h
    · exact absurd rfl ((hreturn _ h).2.2.2 arg k)
  have hgives : c.Gives log True arg (.code k) :=
    gives_of_finish hemits hw hfinish (fun _ => hcodes) hloaded
  refine ⟨k, before, cells, tuple, _, _, by rw [htake, List.append_assoc], hcells, htuple,
    ⟨hload, hloadArg ▸ hgives.constantAt⟩, hload', ?_⟩
  rw [harg rfl, FunctionParts.operand_and_eight]
  cases k.freevars.isEmpty <;> rfl

end Finished

namespace CodeObject

/-- In `c` the code object `c'` stands inside those in `around`, the innermost first. -/
inductive Contains (c : CodeObject) : List CodeObject → CodeObject → Prop where
  | root : Contains c [] c
  | nested {around : List CodeObject} {c' c'' : CodeObject} :
      Contains c around c' → c'' ∈ c'.nested → Contains c (c' :: around) c''

theorem Yields.concat {K : CodeObject → Prop} {c c' c'' : CodeObject} (h : c.Yields K c')
    (hmem : c'' ∈ c'.nested) (hK : ¬ K c'') : c.Yields K c'' := by
  induction h with
  | root => exact .nested hmem hK .root
  | nested hmem' hK' _ ih => exact .nested hmem' hK' (ih hmem)

theorem Contains.yields {K : CodeObject → Prop} {c c' : CodeObject} {around : List CodeObject}
    (h : c.Contains around c') (hK : ∀ k, ¬ K k) : c.Yields K c' := by
  induction h with
  | root => exact .root
  | nested _ hmem ih => exact ih.concat hmem (hK _)

/-- The name is a cell of one of the code objects and a free variable of all before it. -/
def Passed (v : String) (around : List CodeObject) : Prop :=
  ∃ between owner outer, around = between ++ owner :: outer ∧ v ∈ owner.cellvars ∧
    ∀ k ∈ between, v ∈ k.freevars

/-- If every scope has a cell or a free variable for each free variable of a scope inside it, and
the outermost one has no free variable, then free variables lead outward to a cell. -/
theorem Contains.passed {c c' : CodeObject} {around : List CodeObject} (h : c.Contains around c')
    (hroot : c.freevars = [])
    (hstep : ∀ {around' k}, c.Contains around' k → ∀ k' ∈ k.nested, ∀ v ∈ k'.freevars,
      v ∈ k.cellvars ∨ v ∈ k.freevars) {v : String} (hv : v ∈ c'.freevars) : Passed v around := by
  induction h with
  | root =>
    rw [hroot] at hv
    cases hv
  | @nested around k k' hk hmem ih =>
    rcases hstep hk k' hmem v hv with hcell | hfree
    · exact ⟨[], k, around, rfl, hcell, nofun⟩
    · obtain ⟨between, owner, outer, rfl, howner, hbetween⟩ := ih hfree
      exact ⟨k :: between, owner, outer, rfl, howner, List.forall_mem_cons.mpr ⟨hfree, hbetween⟩⟩

end CodeObject

/-- Closures get the right cells. In a program without code constants that compiles, with a table
that makes no name of the module free, every free variable of a code object is a cell of one of
the code objects around it and a free variable of all in between. And in front of every instruction
that makes a function stand those that put together its cells: they are numbers of the free
variables of its code object, in the same order, in the scope that makes the function. The operand
of the instruction tells whether there are any. (Serial numbers, by which code objects are told
apart, are words, so there must not be more scopes than words.) -/
theorem compile_wiresClosures {p : Program} {t : ScopeTable} {o : Options} {c c' : CodeObject}
    {around : List CodeObject} (h : compile p t o = .ok c) (hquotes : ∀ k, ¬ p.Quotes k)
    (hfree : ∀ x, (x, Resolution.free) ∉ t.symbols) (hc' : c.Contains around c') :
    (∀ v ∈ c'.freevars, CodeObject.Passed v around) ∧
      (t.scopeCount ≤ 2 ^ 32 → c'.WiresClosures) := by
  have hscope {k : CodeObject} (hk : c.Yields p.Quotes k) :
      (∀ k' ∈ k.nested, ∀ v ∈ k'.freevars, v ∈ k.cellvars ∨ v ∈ k.freevars) ∧
        (t.scopeCount ≤ 2 ^ 32 → k.WiresClosures) := by
    obtain ⟨r, hrun, rfl⟩ := exists_hasRun h hk
    have hwithin := hrun.within
    have hno (k : CodeObject) (hk : QuotesOf (r.steps o) k) : False :=
      hquotes k (hwithin.quotes k (Source.quotes_of_steps hk))
    obtain ⟨_, _, _, _, _, hopened⟩ := hwithin.opened
    have hemits := hwithin.completes.emits
    have hw := hwithin.completes.runs.writes
    have hfinish := hwithin.completes.finish
    rw [hopened] at hemits hw
    exact ⟨fun k' hk' v => mem_of_freevars_of_finish hemits (r.source.basic o _) hno hw hfinish hk',
      fun hcount => wiresClosures_of_finish hemits (r.source.closed o _) (r.source.basic o _) hno hw
        hfinish fun _ => hwithin.mem_constants hquotes hcount⟩
  have hroot : c.freevars = [] := by
    obtain ⟨_, d, _, _, _, hdrafts, hfinish⟩ := of_compile_ok h
    have hnone : t.freevars = [] := List.eq_nil_iff_forall_not_mem.mpr fun x hx =>
      hfree x (Symbols.mem_sortedNames.mp hx)
    rw [(Draft.inherits_of_finish hfinish).freevars,
      hdrafts.writes.evolves.keeps Draft.freevars fun _ => rfl]
    show (Pool.ofList t.freevars : NamePool).toList = []
    rw [hnone]
    rfl
  exact ⟨fun v => hc'.passed hroot fun hk => (hscope (hk.yields hquotes)).1,
    (hscope (hc'.yields hquotes)).2⟩

/-- The expression `lambda: lambda: lambda: x`. -/
def threeLambdas : Expr :=
  let lambda (body : Expr) : Expr := .lambda 1 ⟨[], [], none, [], [], none, []⟩ body
  lambda (lambda (lambda (.name 1 "x" .load)))

/-- The outermost lambda has the cell, and the one inside it passes it on. -/
def threeLambdasTable : ScopeTable :=
  { ScopeTable.module with
    children := [{ ScopeTable.lambda 1 with
      symbols := [("x", .cell)]
      children := [{ ScopeTable.lambda 1 with
        symbols := [("x", .free)]
        children := [{ ScopeTable.lambda 1 with symbols := [("x", .free)] }] }] }] }

theorem not_quotes_threeLambdas (k : CodeObject) :
    ¬ (Program.expression threeLambdas).Quotes k := by
  have hlambda {body : Expr} (hbody : ¬ body.Quotes k) :
      ¬ (Expr.lambda 1 ⟨[], [], none, [], [], none, []⟩ body).Quotes k := by
    rintro (_ | ⟨he, h⟩)
    obtain rfl := List.mem_singleton.mp he
    exact hbody h
  have hname : ¬ (Expr.name 1 "x" .load).Quotes k := by
    rintro (_ | ⟨he, _⟩)
    cases he
  exact hlambda (hlambda (hlambda hname))

theorem threeLambdas_wiresClosures : ∃ c f g h,
    compile (.expression threeLambdas) threeLambdasTable {} = .ok c ∧
    (∀ k, ¬ (Program.expression threeLambdas).Quotes k) ∧
    (∀ x, (x, Resolution.free) ∉ threeLambdasTable.symbols) ∧
    threeLambdasTable.scopeCount ≤ 2 ^ 32 ∧
    c.Contains [g, f, c] h ∧ h.freevars = ["x"] ∧ CodeObject.Passed "x" [g, f, c] ∧
    g.WiresClosures := by
  have hfree : ∀ x, (x, Resolution.free) ∉ threeLambdasTable.symbols := nofun
  have hcount : threeLambdasTable.scopeCount ≤ 2 ^ 32 := by decide
  have hcode : (compile (.expression threeLambdas) threeLambdasTable {}).toOption.map (fun c =>
      c.nested.map fun f => f.nested.map fun g => g.nested.map CodeObject.freevars) =
      some [[[["x"]]]] := by
    decide +kernel
  cases hc : compile (.expression threeLambdas) threeLambdasTable {} with
  | error e => simp [hc, Except.toOption] at hcode
  | ok c =>
    rw [hc] at hcode
    obtain ⟨f, hf, hcode⟩ := List.map_eq_singleton_iff.mp (Option.some.inj hcode)
    obtain ⟨g, hg, hcode⟩ := List.map_eq_singleton_iff.mp hcode
    obtain ⟨h, hh, hvars⟩ := List.map_eq_singleton_iff.mp hcode
    have hgHolds : c.Contains [f, c] g := .nested (.nested .root (hf ▸ List.mem_singleton_self f))
      (hg ▸ List.mem_singleton_self g)
    have hhHolds : c.Contains [g, f, c] h := .nested hgHolds (hh ▸ List.mem_singleton_self h)
    have hpassed := (compile_wiresClosures hc not_quotes_threeLambdas hfree hhHolds).1 "x"
      (hvars ▸ List.mem_singleton_self "x")
    exact ⟨c, f, g, h, rfl, not_quotes_threeLambdas, hfree, hcount, hhHolds, hvars, hpassed,
      (compile_wiresClosures hc not_quotes_threeLambdas hfree hgHolds).2 hcount⟩

end Wordcode
