import Mathlib.Algebra.GroupWithZero.Nat
import Wordcode.Proofs.Local
import Wordcode.Proofs.Quoted

/-!
# Tables of nested scopes

A build takes the table of every nested scope off the list of its draft, in the order in which it
meets them. How many it takes depends on what it compiles, not on the draft: a statement takes one
table for each scope that it creates directly. Final bodies are the exception. They are compiled
once for each way out of their statement, so their scopes are met again and again.
-/

set_option autoImplicit false

namespace Wordcode

namespace Expr

/-- The direct parts of an expression that are evaluated in the scope it stands in. -/
def operands : Expr → List Expr
  | .lambda _ args _ => args.defaults ++ args.kwDefaults.filterMap id
  | .listComp _ _ [] => []
  | .listComp _ _ (g :: _) => [g.iter]
  | e => e.parts

def ownScopes : Expr → Nat
  | .lambda .. | .listComp .. => 1
  | _ => 0

/-- How many scopes expressions create together. -/
def scopesOf (es : List Expr) : Nat := (es.map scopeCount).sum

@[simp] theorem scopesOf_nil : scopesOf [] = 0 := rfl

@[simp] theorem scopesOf_cons (e : Expr) (es : List Expr) :
    scopesOf (e :: es) = e.scopeCount + scopesOf es := by
  simp [scopesOf]

@[simp] theorem scopesOf_append (es es' : List Expr) :
    scopesOf (es ++ es') = scopesOf es + scopesOf es' := by
  simp [scopesOf]

section

variable {es : List Expr} (h : ∀ e ∈ es, ∀ n, e.addScopes n = n + e.scopeCount)
include h

theorem addScopesOfAll_eq (n : Nat) : addScopesOfAll n es = n + scopesOf es := by
  induction es generalizing n with
  | nil => rfl
  | cons e es ih =>
    rw [addScopesOfAll, h e List.mem_cons_self, ih fun e he => h e (List.mem_cons_of_mem _ he),
      scopesOf_cons, Nat.add_assoc]

theorem addScopesOfOption_eq {x : Option Expr} (hx : x.toList ⊆ es) (n : Nat) :
    addScopesOfOption n x = n + scopesOf x.toList := by
  cases x with
  | none => rfl
  | some e => simp [addScopesOfOption, h e (hx (by simp))]

theorem addScopesOfOptions_eq {xs : List (Option Expr)} (hxs : xs.filterMap id ⊆ es) (n : Nat) :
    addScopesOfOptions n xs = n + scopesOf (xs.filterMap id) := by
  induction xs generalizing n with
  | nil => rfl
  | cons x xs ih =>
    cases x with
    | none => exact ih hxs n
    | some e =>
      have hcons : (some e :: xs).filterMap id = e :: xs.filterMap id := rfl
      rw [hcons] at hxs ⊢
      rw [addScopesOfOptions, addScopesOfOption, h e (hxs List.mem_cons_self),
        ih fun e he => hxs (List.mem_cons_of_mem _ he), scopesOf_cons, Nat.add_assoc]

theorem addScopesOfKeywords_eq {ks : List Keyword} (hks : ks.map Keyword.value ⊆ es) (n : Nat) :
    Keyword.addScopesOfAll n ks = n + scopesOf (ks.map Keyword.value) := by
  induction ks generalizing n with
  | nil => rfl
  | cons k ks ih =>
    obtain ⟨name, value⟩ := k
    rw [List.map_cons, List.cons_subset] at hks
    rw [Keyword.addScopesOfAll, h _ hks.1, ih hks.2, List.map_cons, scopesOf_cons, Nat.add_assoc]

end

theorem addScopes_eq_of_parts {e : Expr} (h : ∀ e' ∈ e.parts, ∀ n, e'.addScopes n = n + e'.scopeCount)
    (n : Nat) : e.addScopes n = n + (e.ownScopes + scopesOf e.operands) := by
  cases e with
  | boolOp | set | list | tuple =>
    simp only [parts] at h
    simp [addScopes, ownScopes, operands, parts, addScopesOfAll_eq h]
  | binOp | unaryOp | ifExp | «attribute» | subscript | constant | name =>
    simp [parts] at h
    simp [addScopes, ownScopes, operands, parts, h, Nat.add_assoc]
  | lambda line args body =>
    obtain ⟨_, _, _, _, kwDefaults, _, defaults⟩ := args
    simp only [parts, List.mem_cons, List.mem_append] at h
    rw [addScopes, addScopesOfAll_eq fun e he => h e (.inr (.inl he)),
      addScopesOfOptions_eq (fun e he => h e (.inr (.inr he))) (List.Subset.refl _)]
    simp [ownScopes, operands, Nat.add_assoc]
  | dict line keys values =>
    simp only [parts, List.mem_append] at h
    rw [addScopes, addScopesOfAll_eq fun e he => h e (.inl he),
      addScopesOfAll_eq fun e he => h e (.inr he)]
    simp [ownScopes, operands, parts, Nat.add_assoc]
  | listComp line elt gs =>
    cases gs with
    | nil => rfl
    | cons g gs =>
      obtain ⟨target, iter, filters⟩ := g
      rw [addScopes, h iter (by simp [parts])]
      simp [ownScopes, operands, Nat.add_assoc]
  | yield line value =>
    rw [addScopes, addScopesOfOption_eq h (List.Subset.refl _)]
    simp [ownScopes, operands, parts]
  | compare line left ops comparators =>
    simp only [parts, List.mem_cons] at h
    rw [addScopes, h left (.inl rfl), addScopesOfAll_eq fun e he => h e (.inr he)]
    simp [ownScopes, operands, parts, Nat.add_assoc]
  | call line func args keywords =>
    simp only [parts, List.mem_cons, List.mem_append] at h
    rw [addScopes, h func (.inl rfl), addScopesOfAll_eq fun e he => h e (.inr (.inl he)),
      addScopesOfKeywords_eq (fun e he => h e (.inr (.inr he))) (List.Subset.refl _)]
    simp [ownScopes, operands, parts, Nat.add_assoc]
  | slice line lower upper step =>
    rw [addScopes, addScopesOfOption_eq h (by simp [parts]), addScopesOfOption_eq h (by simp [parts]),
      addScopesOfOption_eq h (by simp [parts])]
    simp [ownScopes, operands, parts, Nat.add_assoc]

theorem addScopes_eq (e : Expr) (n : Nat) : e.addScopes n = n + e.scopeCount := by
  induction hsize : sizeOf e using Nat.strongRecOn generalizing e n with
  | ind size ih =>
    subst hsize
    have h := addScopes_eq_of_parts fun e' he' n => ih _ (sizeOf_lt_of_mem_parts he') e' n rfl
    rw [h n, scopeCount, h 0, Nat.zero_add]

theorem scopeCount_eq (e : Expr) : e.scopeCount = e.ownScopes + scopesOf e.operands := by
  rw [scopeCount, addScopes_eq_of_parts fun e' _ n => addScopes_eq e' n, Nat.zero_add]

end Expr

namespace Build

variable {α β : Type} {n m : Nat}

/-- A build that succeeds takes the next `n` tables. -/
def Takes (n : Nat) (b : Build α) : Prop :=
  ∀ s a s', b s = .ok a s' →
    ∃ taken, taken.length = n ∧ s.draft.children = taken ++ s'.draft.children

theorem Takes.bind {b : Build α} {f : α → Build β} (h : Takes n b) (h' : ∀ a, Takes m (f a)) :
    Takes (n + m) (b >>= f) := by
  intro s r s'' hrun
  obtain ⟨a, s', hb, hf⟩ := of_bind_ok hrun
  obtain ⟨taken, hn, hs⟩ := h s a s' hb
  obtain ⟨taken', hm, hs'⟩ := h' a s' r s'' hf
  exact ⟨taken ++ taken', by rw [List.length_append, hn, hm], by rw [hs, hs', List.append_assoc]⟩

theorem Takes.of_eq {b : Build α} (h : Takes n b) (hm : n = m) : Takes m b := hm ▸ h

theorem takes_throw (e : CompileError) : Takes n (throw e : Build α) := by
  rintro s a s' ⟨⟩

theorem takes_fail (f : Fault) : Takes n (fail f : Build α) := takes_throw _

/-- What follows a check that has failed is not run. -/
theorem Takes.guard {c : Prop} [Decidable c] {e : CompileError} {f : α → Build β} {b : Build β}
    (h : ¬ c → Takes n b) : Takes n (if c then (throw e : Build α) >>= f else b) := by
  split
  · intro s a s' hrun
    cases hrun
  · next hc => exact h hc

/-- What stays in its scope takes no table. -/
theorem Takes.of {b : Build α} (h : Local b) : Takes 0 b := by
  induction h with
  | pure a =>
    rintro s a' s' ⟨⟩
    exact ⟨[], rfl, rfl⟩
  | fail f => exact takes_fail f
  | @onDraft _ f _ htables =>
    rintro s a s' ⟨⟩
    exact ⟨[], rfl, (congrArg (·.2.children) (htables s.draft s.draft.children)).symm⟩
  | bind _ _ ih ih' => exact ih.bind ih'

theorem Takes.step {b : Build α} {f : α → Build β} (h : Local b) (h' : ∀ a, Takes n (f a)) :
    Takes n (b >>= f) :=
  ((Takes.of h).bind h').of_eq (Nat.zero_add n)

theorem takes_nextChild : Takes 1 nextChild := by
  intro s t s' hrun
  rw [nextChild_run] at hrun
  split at hrun
  · cases hrun
  · next t rest hs =>
    cases hrun
    exact ⟨[t], rfl, hs⟩

theorem takes_skipChildren (k : Nat) : Takes k (skipChildren k) := by
  induction k with
  | zero => exact .of (.pure ())
  | succ k ih => exact (takes_nextChild.bind fun _ => ih).of_eq (Nat.add_comm 1 k)

/-- A nested scope takes its own table. Those of the scopes inside it come from that table. -/
theorem takes_inScope (filename name : String) (kind : ScopeKind) (line : UInt32)
    (body : Build Bool) : Takes 1 (inScope filename name kind line body) := by
  intro s code s' hrun
  obtain ⟨table, s₁, _, _, hchild, _, _, _, hs'⟩ := of_inScope_ok hrun
  rw [hs']
  exact takes_nextChild s table s₁ hchild

theorem Takes.atLine {b : Build Unit} (h : Takes n b) (line : UInt32) : Takes n (atLine line b) := by
  unfold Build.atLine
  refine .step (.ask fun _ _ => rfl) fun saved => ?_
  have hrest : Takes n (do b; setLine saved) := h.bind fun _ => .of (.setLine saved)
  split
  · exact .step (.setLine line) fun _ => hrest
  · exact hrest

theorem Takes.deliver {b : Build Unit} (h : Takes n b) (line : UInt32) (dest : Dest) :
    Takes n (deliver line dest b) :=
  (h.atLine line).bind fun _ => .of (.test dest)

end Build

open Build

/-- There is a parameter for every default of a keyword-only parameter, and a comparator for every
comparison. -/
def Expr.IsEven : Expr → Prop
  | .lambda _ args _ => args.kwDefaults.length ≤ args.kwonly.length
  | .compare _ _ ops comparators => ops.length = comparators.length
  | _ => True

/-- All parts of an expression in the scope it stands in are even. -/
inductive Expr.Regular : Expr → Prop where
  | intro {e : Expr} : e.IsEven → (∀ e' ∈ e.operands, Regular e') → Regular e

/-- The code of an expression takes one table for each scope that the expression creates. -/
def Expr.TakesOwn (filename : String) (e : Expr) : Prop :=
  ∀ dest, Takes e.scopeCount (e.lower filename dest)

section Lists

variable {o : Options} {es : List Expr}

theorem takes_all (es : List Expr) (h : ∀ e ∈ es, e.TakesOwn o.filename) :
    Takes (Expr.scopesOf es) (Expr.lowerAll o.filename es) := by
  induction es with
  | nil =>
    rw [Expr.lowerAll]
    exact .of (.pure ())
  | cons e es ih =>
    rw [Expr.lowerAll, Expr.scopesOf_cons]
    exact (h e List.mem_cons_self .push).bind fun _ => ih fun e he => h e (List.mem_cons_of_mem _ he)

theorem takes_orNone {x : Option Expr} (h : ∀ e ∈ x.toList, e.TakesOwn o.filename) :
    Takes (Expr.scopesOf x.toList) (Expr.lowerOrNone o.filename x) := by
  cases x with
  | none =>
    rw [Expr.lowerOrNone]
    exact .of (.loadConst _)
  | some e =>
    rw [Expr.lowerOrNone]
    exact (h e (by simp) .push).of_eq (by simp)

theorem takes_operands (jump : Opcode) (done : BlockId) (h : ∀ e ∈ es, e.TakesOwn o.filename) :
    Takes (Expr.scopesOf es) (Expr.lowerOperands o.filename jump done es) := by
  induction es with
  | nil =>
    rw [Expr.lowerOperands]
    exact .of (.pure ())
  | cons e es ih =>
    have hhead := h e List.mem_cons_self .push
    have ih := ih fun e he => h e (List.mem_cons_of_mem _ he)
    cases es with
    | nil =>
      rw [Expr.lowerOperands]
      exact hhead.of_eq (by simp)
    | cons e' es =>
      rw [Expr.lowerOperands, Expr.scopesOf_cons]
      · exact hhead.bind fun _ => .step (.emitJump _ _) fun _ => .step .nextBlock fun _ => ih
      · simp

theorem takes_tests (inner : BlockId) (decisive : Bool) (target : BlockId) (sense : Bool)
    (h : ∀ e ∈ es, e.TakesOwn o.filename) :
    Takes (Expr.scopesOf es) (Expr.lowerTests o.filename inner decisive target sense es) := by
  induction es with
  | nil =>
    rw [Expr.lowerTests]
    exact .of (.pure ())
  | cons e es ih =>
    have ih := ih fun e he => h e (List.mem_cons_of_mem _ he)
    cases es with
    | nil =>
      rw [Expr.lowerTests]
      exact (h e List.mem_cons_self _).of_eq (by simp)
    | cons e' es =>
      rw [Expr.lowerTests, Expr.scopesOf_cons]
      · exact (h e List.mem_cons_self _).bind fun _ => ih
      · simp

theorem takes_links (jump : Opcode) (cleanup : BlockId) (last : CmpOp) (ops : List CmpOp)
    (hops : es.length = ops.length + 1) (h : ∀ e ∈ es, e.TakesOwn o.filename) :
    Takes (Expr.scopesOf es) (Expr.lowerLinks o.filename jump cleanup last ops es) := by
  induction es generalizing ops with
  | nil => cases hops
  | cons e es ih =>
    have hhead := h e List.mem_cons_self .push
    cases es with
    | nil =>
      rw [Expr.lowerLinks, Expr.scopesOf_cons]
      exact hhead.bind fun _ => .of (.emitCompare last)
    | cons e' es =>
      cases ops with
      | nil => simp at hops
      | cons op ops =>
        have ih := ih ops (Nat.succ.inj hops) fun e he => h e (List.mem_cons_of_mem _ he)
        rw [Expr.lowerLinks, Expr.scopesOf_cons]
        · exact hhead.bind fun _ => .step (.emit _) fun _ => .step (.emit _) fun _ =>
            .step (.emitCompare op) fun _ => .step (.emitJump _ _) fun _ =>
              .step .nextBlock fun _ => ih
        · simp

theorem scopesOf_map_take_drop (k : Nat) (f : Expr × Expr → Expr) (entries : List (Expr × Expr)) :
    Expr.scopesOf (entries.map f) =
      Expr.scopesOf ((entries.take k).map f) + Expr.scopesOf ((entries.drop k).map f) := by
  rw [← Expr.scopesOf_append, ← List.map_append, List.take_append_drop]

theorem takes_buildEntries {entries : List (Expr × Expr)}
    (h : ∀ p ∈ entries, p.1.TakesOwn o.filename ∧ p.2.TakesOwn o.filename) :
    Takes (Expr.scopesOf (entries.map Prod.fst) + Expr.scopesOf (entries.map Prod.snd))
      (buildEntries (entries.map (dictEntry o))) := by
  induction entries with
  | nil => exact .of (.pure ())
  | cons p entries ih =>
    obtain ⟨hk, hv⟩ := h p List.mem_cons_self
    have ih := ih fun q hq => h q (List.mem_cons_of_mem _ hq)
    refine .of_eq ((hk .push).bind fun _ => (hv .push).bind fun _ => ih) ?_
    simp only [List.map_cons, Expr.scopesOf_cons]
    omega

theorem takes_buildValues {entries : List (Expr × Expr)}
    (h : ∀ p ∈ entries, p.1.TakesOwn o.filename ∧ p.2.TakesOwn o.filename) :
    Takes (Expr.scopesOf (entries.map Prod.snd)) (buildValues (entries.map (dictEntry o))) := by
  induction entries with
  | nil => exact .of (.pure ())
  | cons p entries ih =>
    rw [List.map_cons, List.map_cons, Expr.scopesOf_cons]
    exact ((h p List.mem_cons_self).2 .push).bind fun _ =>
      ih fun q hq => h q (List.mem_cons_of_mem _ hq)

/-- Keys that are all constant create no scope. -/
theorem scopesOf_eq_zero_of_constants {entries : List (Expr × Expr)} {keys : List Constant}
    (h : entries.mapM (fun p => p.1.constant?) = some keys) :
    Expr.scopesOf (entries.map Prod.fst) = 0 := by
  induction entries generalizing keys with
  | nil => rfl
  | cons p entries ih =>
    obtain ⟨e, v⟩ := p
    rw [List.mapM_cons] at h
    cases e <;> try cases h
    cases hrest : entries.mapM fun p => p.1.constant? with
    | none => simp [hrest] at h
    | some rest => simp [ih hrest, Expr.scopeCount, Expr.addScopes]

theorem takes_buildMap {entries : List (Expr × Expr)}
    (h : ∀ p ∈ entries, p.1.TakesOwn o.filename ∧ p.2.TakesOwn o.filename) :
    Takes (Expr.scopesOf (entries.map Prod.fst) + Expr.scopesOf (entries.map Prod.snd))
      (buildMap (entries.map (dictEntry o))) := by
  have hkeys : (entries.map (dictEntry o)).mapM DictEntry.constantKey =
      entries.mapM fun p => p.1.constant? := by
    rw [List.mapM_map]
    rfl
  have hplain (arg : UInt32) : Takes
      (Expr.scopesOf (entries.map Prod.fst) + Expr.scopesOf (entries.map Prod.snd)) (do
        buildEntries (entries.map (dictEntry o))
        emitArg .buildMap arg) :=
    (takes_buildEntries h).bind fun _ => .of (.emitArg _ _)
  unfold buildMap
  rw [hkeys]
  cases hconstants : entries.mapM fun p => p.1.constant? with
  | none => exact hplain _
  | some keys =>
    dsimp only
    split
    · rw [scopesOf_eq_zero_of_constants hconstants, Nat.zero_add]
      exact (takes_buildValues h).bind fun _ => .step (.loadConst _) fun _ => .of (.emitArg _ _)
    · exact hplain _

theorem takes_extendMap {entries : List (Expr × Expr)}
    (h : ∀ p ∈ entries, p.1.TakesOwn o.filename ∧ p.2.TakesOwn o.filename) :
    Takes (Expr.scopesOf (entries.map Prod.fst) + Expr.scopesOf (entries.map Prod.snd))
      (extendMap (entries.map (dictEntry o))) := by
  induction hn : entries.length using Nat.strongRecOn generalizing entries with
  | ind n ih =>
    rw [extendMap]
    cases entries with
    | nil => exact .of (.pure ())
    | cons p entries =>
      rw [if_neg (by simp), ← List.map_take, ← List.map_drop]
      have hdrop := ih _ ?_ (fun q hq => h q ((List.drop_sublist maxMapEntries _).subset hq)) rfl
      · refine .of_eq ((takes_buildMap fun q hq => h q ((List.take_sublist _ _).subset hq)).bind
          fun _ => .step (.emitArg _ _) fun _ => hdrop) ?_
        have hkeys := scopesOf_map_take_drop maxMapEntries Prod.fst (p :: entries)
        have hvalues := scopesOf_map_take_drop maxMapEntries Prod.snd (p :: entries)
        omega
      · rw [← hn, List.length_drop, maxMapEntries, List.length_cons]
        omega

theorem takes_values {ks : List Keyword} (h : ∀ k ∈ ks, k.value.TakesOwn o.filename) :
    Takes (Expr.scopesOf (ks.map Keyword.value)) (Keyword.lowerValues o.filename ks) := by
  induction ks with
  | nil =>
    rw [Keyword.lowerValues]
    exact .of (.pure ())
  | cons k ks ih =>
    obtain ⟨name, e⟩ := k
    rw [Keyword.lowerValues, List.map_cons, Expr.scopesOf_cons]
    exact (h _ List.mem_cons_self .push).bind fun _ => ih fun k hk => h k (List.mem_cons_of_mem _ hk)

theorem takes_callWith (extra : Nat) (args : List Expr) (ks : List Keyword)
    (ha : ∀ e ∈ args, e.TakesOwn o.filename) (hk : ∀ k ∈ ks, k.value.TakesOwn o.filename) :
    Takes (Expr.scopesOf args + Expr.scopesOf (ks.map Keyword.value))
      (callWith extra args.length (Expr.lowerAll o.filename args) (ks.map Keyword.name)
        (Keyword.lowerValues o.filename ks)) := by
  refine (takes_all args ha).bind fun _ => ?_
  rw [List.isEmpty_map, List.length_map]
  dsimp only
  split
  · next hnil =>
    rw [List.isEmpty_iff.mp hnil]
    exact .of (.emitArg _ _)
  · exact (takes_values hk).bind fun _ => .step (.loadConst _) fun _ => .of (.emitArg _ _)

theorem takes_kwDefaults {ps : List Param} {xs : List (Option Expr)} (hlen : xs.length ≤ ps.length)
    (h : ∀ e ∈ xs.filterMap id, e.TakesOwn o.filename) :
    Takes (Expr.scopesOf (xs.filterMap id)) (Expr.lowerKwDefaults o.filename ps xs) := by
  induction ps generalizing xs with
  | nil =>
    cases xs with
    | nil =>
      rw [Expr.lowerKwDefaults]
      · exact .of (.pure ())
      · simp
      · simp
    | cons => cases hlen
  | cons p ps ih =>
    rcases xs with _ | ⟨_ | e, xs⟩
    · rw [Expr.lowerKwDefaults]
      · exact .of (.pure ())
      · simp
      · simp
    · rw [Expr.lowerKwDefaults]
      exact ih (Nat.le_of_succ_le_succ hlen) h
    · have hcons : (some e :: xs).filterMap id = e :: xs.filterMap id := rfl
      rw [hcons] at h ⊢
      rw [Expr.lowerKwDefaults, Expr.scopesOf_cons]
      exact (h e List.mem_cons_self .push).bind fun _ =>
        ih (Nat.le_of_succ_le_succ hlen) fun e he => h e (List.mem_cons_of_mem _ he)

theorem takes_defaults {a : Arguments} (hlen : a.kwDefaults.length ≤ a.kwonly.length)
    (h : ∀ e ∈ a.defaults ++ a.kwDefaults.filterMap id, e.TakesOwn o.filename) :
    Takes (Expr.scopesOf (a.defaults ++ a.kwDefaults.filterMap id))
      (Arguments.lowerDefaults o.filename a) := by
  obtain ⟨posonly, params, vararg, kwonly, kwDefaults, kwarg, defaults⟩ := a
  rw [Arguments.lowerDefaults, Expr.scopesOf_append]
  simp only [List.mem_append] at h hlen ⊢
  have hrest (keys : List String) (parts : FunctionParts) :=
    (takes_kwDefaults hlen fun e he => h e (.inr he)).bind fun _ =>
      Takes.of (.defaultKeys keys parts)
  cases hnil : defaults.isEmpty with
  | false =>
    exact (takes_all defaults fun e he => h e (.inl he)).bind fun _ =>
      .step (.emitArg _ _) fun _ => hrest _ _
  | true =>
    rw [List.isEmpty_iff.mp hnil]
    exact (hrest _ _).of_eq (by simp)

theorem takes_sequence (build : Opcode) (ctx : Ctx) (count : Nat)
    (h : ∀ e ∈ es, e.TakesOwn o.filename) :
    Takes (Expr.scopesOf es) (sequence build ctx count (Expr.lowerAll o.filename es)) := by
  cases ctx with
  | load => exact (takes_all es h).bind fun _ => .of (.emitArg _ _)
  | store => exact .step (.emitArg _ _) fun _ => takes_all es h
  | del => exact takes_all es h

end Lists

section Exprs

variable {o : Options}

theorem Expr.Regular.isEven {e : Expr} : e.Regular → e.IsEven
  | intro heven _ => heven

theorem Expr.Regular.operand {e e' : Expr} : e.Regular → e' ∈ e.operands → e'.Regular
  | intro _ h => h e'

theorem Expr.sizeOf_lt_of_mem_operands {e e' : Expr} (h : e' ∈ e.operands) :
    sizeOf e' < sizeOf e := by
  apply sizeOf_lt_of_mem_parts
  cases e with
  | lambda => exact List.mem_cons_of_mem _ h
  | listComp line elt gs =>
    cases gs with
    | nil => cases h
    | cons g gs =>
      rw [List.mem_singleton.mp h]
      simp [parts]
  | _ => exact h

theorem Expr.takesOwn {e : Expr} (h : e.Regular) : e.TakesOwn o.filename := by
  induction hn : sizeOf e using Nat.strongRecOn generalizing e with
  | ind n ih =>
    subst hn
    have ih' (e' : Expr) (he' : e' ∈ e.operands) : e'.TakesOwn o.filename :=
      ih _ (sizeOf_lt_of_mem_operands he') (h.operand he') rfl
    intro dest
    rw [scopeCount_eq]
    cases e with
    | boolOp line op values =>
      have hvalues : ∀ e ∈ values, e.TakesOwn o.filename := ih'
      simp only [ownScopes, operands, parts, Nat.zero_add]
      cases dest with
      | push =>
        rw [Expr.lower]
        refine .atLine (.guard fun _ => ?_) line
        exact .step .newBlock fun done => (takes_operands _ done hvalues).bind fun _ =>
          .of (.fallInto done)
      | jump target sense =>
        have hrest (inner : BlockId) : Takes (scopesOf values) (do
            Expr.lowerTests o.filename inner (decide (op = .or)) target sense values
            if inner ≠ target then fallInto inner) := by
          refine (takes_tests inner _ target sense hvalues).bind (m := 0) fun _ => ?_
          split
          · exact .of (.fallInto inner)
          · exact .of (.pure ())
        rw [Expr.lower]
        refine .guard fun _ => ?_
        dsimp only
        split
        · exact .step (.pure target) hrest
        · exact .step .newBlock hrest
    | binOp line left op right =>
      have hleft := ih' left (by simp [operands, parts]) .push
      have hright := ih' right (by simp [operands, parts]) .push
      rw [Expr.lower]
      refine .deliver ?_ line dest
      exact (hleft.bind fun _ => hright.bind fun _ => .of (.emit _)).of_eq
        (by simp [ownScopes, operands, parts])
    | unaryOp line op operand =>
      have hoperand := ih' operand (by simp [operands, parts])
      have hcount : ownScopes (.unaryOp line op operand) +
          scopesOf (operands (.unaryOp line op operand)) = operand.scopeCount := by
        simp [ownScopes, operands, parts]
      have hvalue : Takes operand.scopeCount (do operand.lower o.filename .push; emit op.opcode) :=
        (hoperand .push).bind fun _ => .of (.emit _)
      rw [hcount]
      by_cases hnot : op = .not ∧ ∃ target sense, dest = .jump target sense
      · obtain ⟨rfl, target, sense, rfl⟩ := hnot
        rw [Expr.lower]
        exact hoperand _
      · rw [Expr.lower]
        · exact hvalue.deliver line dest
        · rintro target sense rfl rfl
          exact hnot ⟨rfl, target, sense, rfl⟩
    | lambda line args body =>
      have hdefaults := takes_defaults h.isEven ih'
      rw [Expr.lower]
      refine .deliver ?_ line dest
      exact (hdefaults.bind fun parts => (takes_inScope _ _ _ _ _).bind fun code =>
        .of (.makeClosure _ _ _)).of_eq (by simp [ownScopes, operands, Nat.add_comm])
    | ifExp line test body orelse =>
      have htest := ih' test (by simp [operands, parts])
      have hbody := ih' body (by simp [operands, parts])
      have horelse := ih' orelse (by simp [operands, parts])
      simp only [ownScopes, operands, parts, scopesOf_cons, scopesOf_nil, Nat.zero_add]
      cases dest with
      | push =>
        rw [Expr.lower]
        refine .atLine ?_ line
        exact .step .newBlock fun done => .step .newBlock fun next =>
          (htest _).bind fun _ => (hbody _).bind fun _ => .step (.emitJump _ done) fun _ =>
            .step (.fallInto next) fun _ => (horelse _).bind fun _ => .of (.fallInto done)
      | jump target sense =>
        rw [Expr.lower]
        exact .step .newBlock fun done => .step .newBlock fun next =>
          (htest _).bind fun _ => (hbody _).bind fun _ => .step (.emitJump _ done) fun _ =>
            .step (.fallInto next) fun _ => (horelse _).bind fun _ => .of (.fallInto done)
    | dict line keys values =>
      rw [Expr.lower]
      refine .deliver (.guard fun hlen => ?_) line dest
      have hlen := not_not.mp hlen
      have hentries (p : Expr × Expr) (hp : p ∈ keys.zip values) :
          p.1.TakesOwn o.filename ∧ p.2.TakesOwn o.filename := by
        obtain ⟨hk, hv⟩ := List.of_mem_zip hp
        exact ⟨ih' _ (List.mem_append_left _ hk), ih' _ (List.mem_append_right _ hv)⟩
      dsimp only
      rw [zipWith_dictEntry, dictDisplay, ← List.map_take, ← List.map_drop]
      refine .of_eq ((takes_buildMap fun q hq => hentries q ((List.take_sublist _ _).subset hq)).bind
        fun _ => takes_extendMap fun q hq => hentries q ((List.drop_sublist _ _).subset hq)) ?_
      have hkeys := scopesOf_map_take_drop maxMapEntries Prod.fst (keys.zip values)
      have hvalues := scopesOf_map_take_drop maxMapEntries Prod.snd (keys.zip values)
      rw [List.map_fst_zip (Nat.le_of_eq hlen)] at hkeys
      rw [List.map_snd_zip (Nat.le_of_eq hlen.symm)] at hvalues
      simp only [ownScopes, operands, parts, scopesOf_append]
      omega
    | set line elts =>
      rw [Expr.lower]
      refine .deliver ?_ line dest
      exact ((takes_all elts ih').bind fun _ => .of (.emitArg _ _)).of_eq
        (by simp [ownScopes, operands, parts])
    | listComp line elt gs =>
      cases gs with
      | nil =>
        rw [Expr.lower]
        exact (takes_fail _).deliver line dest
      | cons g gs =>
        obtain ⟨target, iter, filters⟩ := g
        have hiter := ih' iter (by simp [operands]) .push
        rw [Expr.lower]
        refine .deliver ?_ line dest
        exact ((takes_inScope _ _ _ _ _).bind fun code => .step (.makeClosure _ _ _) fun _ =>
          hiter.bind fun _ => .step (.emit _) fun _ => .of (.emitArg _ _)).of_eq
            (by simp [ownScopes, operands])
    | yield line value =>
      have hvalue := takes_orNone (x := value) ih'
      have hemit : Takes (ownScopes (.yield line value) + scopesOf (operands (.yield line value))) (do
          Expr.lowerOrNone o.filename value
          emit .yieldValue) :=
        (hvalue.bind fun _ => .of (.emit _)).of_eq (by simp [ownScopes, operands, parts])
      rw [Expr.lower]
      exact .deliver (.step (.ask fun _ _ => rfl) fun _ => .guard fun _ => hemit) line dest
    | compare line left ops comparators =>
      have hleft := ih' left (by simp [operands, parts]) .push
      have hcs (e : Expr) (he : e ∈ comparators) := ih' e (by simp [operands, parts, he])
      have hlen : ops.length = comparators.length := h.isEven
      simp only [ownScopes, operands, parts, scopesOf_cons, Nat.zero_add]
      rcases ops with _ | ⟨op, _ | ⟨op', ops⟩⟩
      · rw [Expr.lower]
        · exact .deliver (.guard fun _ => takes_fail _) line dest
        · simp
        · simp
      · obtain ⟨c, rfl⟩ := List.length_eq_one_iff.mp hlen.symm
        rw [Expr.lower]
        refine .deliver ?_ line dest
        exact (hleft.bind fun _ => (hcs c (by simp) .push).bind fun _ =>
          .of (.emitCompare op)).of_eq (by simp)
      · cases dest with
        | push =>
          have hops (cleanup : BlockId) (last : CmpOp) := takes_links .jumpIfFalseOrPop cleanup last
            (op :: op' :: ops).dropLast (by simp_all) hcs
          rw [Expr.lower]
          · refine .deliver (.guard fun _ => ?_) line .push
            dsimp only
            cases (op :: op' :: ops).getLast? with
            | none => exact takes_fail _
            | some last =>
              exact hleft.bind fun _ => .step .newBlock fun cleanup =>
                (hops cleanup last).bind fun _ =>
                  .of (.chainEnd (.bind (.emit _) fun _ => .emit _) cleanup)
          · simp
          · simp
        | jump target sense =>
          have hops (cleanup : BlockId) (last : CmpOp) := takes_links .popJumpIfFalse cleanup last
            (op :: (op' :: ops).dropLast) (by simp_all) hcs
          rw [Expr.lower]
          exact .guard fun _ => .step .newBlock fun cleanup => hleft.bind fun _ =>
            (hops cleanup _).bind fun _ => .step (.test _) fun _ =>
              .of (.chainEnd (.chainFailed target sense) cleanup)
    | call line func args keywords =>
      have hargs (e : Expr) (he : e ∈ args) := ih' e (by simp [operands, parts, he])
      have hks (k : Keyword) (hk : k ∈ keywords) : k.value.TakesOwn o.filename := by
        refine ih' _ ?_
        simp only [operands, parts, List.mem_cons, List.mem_append, List.mem_map]
        exact .inr (.inr ⟨k, hk, rfl⟩)
      simp only [ownScopes, operands, parts, scopesOf_cons, scopesOf_append, Nat.zero_add]
      by_cases hmethod : ∃ l object attr, func = .attribute l object attr .load ∧ keywords = []
      · obtain ⟨l, object, attr, rfl, rfl⟩ := hmethod
        have hfunc : Expr.attribute l object attr .load ∈
            operands (.call line (.attribute l object attr .load) args []) := by
          simp [operands, parts]
        have hmem : object ∈ operands (.attribute l object attr .load) := by simp [operands, parts]
        have hobject : object.TakesOwn o.filename :=
          ih _ (Nat.lt_trans (sizeOf_lt_of_mem_operands hmem) (sizeOf_lt_of_mem_operands hfunc))
            ((h.operand hfunc).operand hmem) rfl
        rw [Expr.lower]
        refine .deliver ?_ line dest
        refine .of_eq ((hobject .push).bind fun _ => .step (.emitName _ attr) fun _ =>
          (takes_all args hargs).bind fun _ => .of (.emitArg _ _)) ?_
        rw [scopeCount_eq (.attribute ..)]
        simp [ownScopes, operands, parts]
      · rw [Expr.lower]
        · refine .deliver ?_ line dest
          exact (ih' func (by simp [operands, parts]) .push).bind fun _ =>
            takes_callWith 0 args keywords hargs hks
        · rintro l object attr rfl rfl
          exact hmethod ⟨l, object, attr, rfl, rfl⟩
    | constant line value =>
      rw [Expr.lower]
      exact .deliver (.of (.loadConst _)) line dest
    | «attribute» line object attr ctx =>
      have hobject := ih' object (by simp [operands, parts]) .push
      rw [Expr.lower]
      refine .deliver ?_ line dest
      exact (hobject.bind fun _ => .of (.emitName _ attr)).of_eq
        (by simp [ownScopes, operands, parts])
    | subscript line object index ctx =>
      have hobject := ih' object (by simp [operands, parts]) .push
      have hindex := ih' index (by simp [operands, parts]) .push
      rw [Expr.lower]
      refine .deliver ?_ line dest
      exact (hobject.bind fun _ => hindex.bind fun _ => .of (.emit _)).of_eq
        (by simp [ownScopes, operands, parts])
    | slice line lower upper step =>
      have hlower := takes_orNone (x := lower) fun e he => ih' e (by simp_all [operands, parts])
      have hupper := takes_orNone (x := upper) fun e he => ih' e (by simp_all [operands, parts])
      cases step with
      | none =>
        rw [Expr.lower]
        refine .deliver ?_ line dest
        exact (hlower.bind fun _ => hupper.bind fun _ => .of (.emitArg _ _)).of_eq
          (by simp [ownScopes, operands, parts])
      | some step =>
        have hstep := ih' step (by simp [operands, parts]) .push
        rw [Expr.lower]
        refine .deliver ?_ line dest
        exact (hlower.bind fun _ => hupper.bind fun _ => hstep.bind fun _ =>
          .of (.emitArg _ _)).of_eq (by simp [ownScopes, operands, parts])
    | name line id ctx =>
      rw [Expr.lower]
      exact .deliver (.of (.accessName id ctx)) line dest
    | list line elts ctx =>
      rw [Expr.lower]
      refine .deliver ?_ line dest
      exact (takes_sequence _ ctx _ ih').of_eq (by simp [ownScopes, operands, parts])
    | tuple line elts ctx =>
      rw [Expr.lower]
      refine .deliver ?_ line dest
      exact (takes_sequence _ ctx _ ih').of_eq (by simp [ownScopes, operands, parts])

end Exprs

end Wordcode
