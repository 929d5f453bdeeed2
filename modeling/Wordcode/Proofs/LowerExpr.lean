import Wordcode.Proofs.Lowering

/-!
# Builds of expressions

The build of every expression follows its scheme. The parts that go through lists are settled for
lists of expressions of which this is known; the theorem on expressions is by recursion on their
size.
-/

set_option autoImplicit false

namespace Wordcode

open Build
open Step (value branch simple)

/-- The builds of an expression follow its schemes. -/
def Expr.Lowers (o : Options) (e : Expr) : Prop :=
  ∀ d dest, Follows o d (e.lower o.filename dest) [.run (.expr e dest)] ()

theorem isJump_popJumpOpcode (sense : Bool) : (popJumpOpcode sense).isJump = true := by
  cases sense <;> rfl

theorem BoolOp.isJump_jumpOpcode (op : BoolOp) : op.jumpOpcode.isJump = true := by
  cases op <;> rfl

theorem CmpOp.hasOperand_opcode (op : CmpOp) : op.opcode.1.hasOperand = true := by
  cases op <;> rfl

section Parts

variable {o : Options} {d : Draft}

theorem follows_atLine {line : UInt32} {b : Build Unit} {steps : List Step}
    (h : Follows o d b steps ()) : Follows o d (atLine line b) steps () := by
  have hback (saved : UInt32) : Follows o d (b >>= fun _ => setLine saved) steps () :=
    (h.append (follows_setLine saved)).of_eq rfl (List.append_nil _).symm
  refine .askLine fun saved => ?_
  dsimp only
  split
  · exact .silent (follows_setLine line) (hback saved)
  · exact hback saved

theorem follows_test (dest : Dest) : Follows o d (test dest) dest.testSteps () := by
  cases dest with
  | push => exact .pure ()
  | jump target sense =>
    exact .cons (follows_emitJump _ _ (isJump_popJumpOpcode sense))
      (follows_nextBlock fun _ => .pure ())

theorem follows_deliver {line : UInt32} {dest : Dest} {b : Build Unit} {steps : List Step}
    (h : Follows o d b steps ()) :
    Follows o d (deliver line dest b) (steps ++ dest.testSteps) () :=
  (follows_atLine h).append (follows_test dest)

theorem follows_all {es : List Expr} (h : ∀ e ∈ es, e.Lowers o) :
    Follows o d (Expr.lowerAll o.filename es) [.run (.all es)] () := by
  induction es with
  | nil =>
    rw [Expr.lowerAll]
    exact .task rfl fun n => .of_follows (.pure ())
  | cons e es ih =>
    rw [Expr.lowerAll]
    refine .task rfl fun n => .of_follows (.cons (h e List.mem_cons_self d .push) ?_)
    exact ih fun e' he' => h e' (List.mem_cons_of_mem _ he')

theorem follows_orNone {e : Option Expr} (h : ∀ e' ∈ e, e'.Lowers o) :
    Follows o d (Expr.lowerOrNone o.filename e) (optionSteps e) () := by
  cases e with
  | none =>
    rw [Expr.lowerOrNone]
    exact follows_loadConst .none
  | some e =>
    rw [Expr.lowerOrNone]
    exact h e rfl d .push

theorem follows_operands {jump : Opcode} {done : BlockId} {es : List Expr}
    (hjump : jump.isJump = true) (h : ∀ e ∈ es, e.Lowers o) (hes : es.isEmpty = false) :
    Follows o d (Expr.lowerOperands o.filename jump done es) [.run (.operands jump done es)] () := by
  induction es with
  | nil => cases hes
  | cons e es ih =>
    have he := h e List.mem_cons_self d .push
    have ih := ih fun e' he' => h e' (List.mem_cons_of_mem _ he')
    refine .task rfl fun n => .of_follows ?_
    cases es with
    | nil =>
      rw [Expr.lowerOperands]
      exact he
    | cons e' es =>
      rw [Expr.lowerOperands]
      · exact .cons he (.cons (follows_emitJump _ _ hjump) (follows_nextBlock fun _ => ih rfl))
      · simp

theorem follows_tests {decided target : BlockId} {decisive sense : Bool} {es : List Expr}
    (h : ∀ e ∈ es, e.Lowers o) (hes : es.isEmpty = false) :
    Follows o d (Expr.lowerTests o.filename decided decisive target sense es)
      [.run (.tests decided decisive target sense es)] () := by
  induction es with
  | nil => cases hes
  | cons e es ih =>
    have he := h e List.mem_cons_self d
    have ih := ih fun e' he' => h e' (List.mem_cons_of_mem _ he')
    refine .task rfl fun n => .of_follows ?_
    cases es with
    | nil =>
      rw [Expr.lowerTests]
      exact he _
    | cons e' es =>
      rw [Expr.lowerTests]
      · exact .cons (he _) (ih rfl)
      · simp

theorem follows_links {jump : Opcode} {cleanup : BlockId} {last : CmpOp} {ops : List CmpOp}
    {es : List Expr} (hjump : jump.isJump = true) (h : ∀ e ∈ es, e.Lowers o) :
    Follows o d (Expr.lowerLinks o.filename jump cleanup last ops es)
      [.run (.links jump cleanup last ops es)] () := by
  induction es generalizing ops with
  | nil =>
    rw [Expr.lowerLinks]
    exact .task rfl fun n => .of_follows (.pure ())
  | cons e es ih =>
    have he := h e List.mem_cons_self d .push
    have ih (ops : List CmpOp) := @ih ops fun e' he' => h e' (List.mem_cons_of_mem _ he')
    refine .task rfl fun n => .of_follows ?_
    cases es with
    | nil =>
      rw [Expr.lowerLinks]
      exact .cons he (follows_emitArg _ _ last.hasOperand_opcode)
    | cons e' es =>
      cases ops with
      | nil =>
        rw [Expr.lowerLinks]
        · exact ih []
        · simp
      | cons op ops =>
        rw [Expr.lowerLinks]
        · exact .cons he (.cons (follows_emit _) (.cons (follows_emit _)
            (.cons (follows_emitArg _ _ op.hasOperand_opcode)
              (.cons (follows_emitJump _ _ hjump) (follows_nextBlock fun _ => ih ops)))))
        · simp

theorem follows_filters {cleanup : BlockId} {es : List Expr} (h : ∀ e ∈ es, e.Lowers o) :
    Follows o d (Expr.lowerFilters o.filename cleanup es) [.run (.filters cleanup es)] () := by
  induction es with
  | nil =>
    rw [Expr.lowerFilters]
    exact .task rfl fun n => .of_follows (.pure ())
  | cons e es ih =>
    rw [Expr.lowerFilters]
    refine .task rfl fun n => .of_follows (.cons (h e List.mem_cons_self d _) ?_)
    exact follows_nextBlock fun _ => ih fun e' he' => h e' (List.mem_cons_of_mem _ he')

theorem follows_chainEnd {cleanup : BlockId} (dest : Dest) {b : Build Unit}
    (h : Follows o d b dest.cleanupSteps ()) :
    Follows o d (chainEnd cleanup b) [.run (.chainEnd cleanup dest)] () := by
  refine .task rfl fun n => .newBlock (.of_follows ?_)
  exact .cons (follows_emitJump _ _ rfl) (.cons (follows_fallInto _) (h.append (follows_fallInto n)))

theorem follows_loop (input : Option Expr) {target element : Expr} {filters : List Expr}
    {rest : List Generator} {depth : Nat} {b inner : Build Unit}
    (hb : Follows o d b (inputSteps input) ()) (ht : target.Lowers o)
    (hf : ∀ e ∈ filters, e.Lowers o)
    (hi : Follows o d inner [.run (.inner element depth rest)] ()) :
    Follows o d (comprehensionLoop b (target.lower o.filename .push)
      (fun cleanup => Expr.lowerFilters o.filename cleanup filters) rest.isEmpty inner)
      [.run (.loop input target filters rest element depth)] () := by
  refine .task rfl fun n => .newBlock (.newBlock (.newBlock (.newBlock (.of_follows ?_))))
  have hend : Follows o d (do
      fallInto (n + 2)
      emitJump .jumpAbsolute n
      fallInto (n + 3)) [.label (n + 2), .jump .jumpAbsolute n, .label (n + 3)] () :=
    .cons (follows_fallInto _) (.cons (follows_emitJump _ _ rfl) (follows_fallInto _))
  simp only [Task.steps, List.append_assoc]
  refine hb.append (.cons (follows_fallInto n) (.cons (follows_emitJump _ _ rfl)
    (follows_nextBlock fun _ => .cons (ht d .push) (.cons (follows_filters hf) (.cons hi ?_)))))
  split
  · exact .cons (follows_fallInto _) hend
  · exact hend

/-- The builds of all parts of a comprehension loop follow their schemes. -/
structure Generator.Lowers (o : Options) (g : Generator) : Prop where
  target : g.target.Lowers o
  iter : g.iter.Lowers o
  filters : ∀ e ∈ g.filters, e.Lowers o

theorem follows_inner {element : Expr} (he : element.Lowers o) {gs : List Generator}
    (h : ∀ g ∈ gs, g.Lowers o) (depth : Nat) :
    Follows o d (Generator.lowerInner o.filename (element.lower o.filename .push) depth gs)
      [.run (.inner element depth gs)] () := by
  induction gs generalizing depth with
  | nil =>
    rw [Generator.lowerInner]
    exact .task rfl fun n => .of_follows (.cons (he d .push) (follows_emitArg _ _ rfl))
  | cons g gs ih =>
    obtain ⟨target, iter, filters⟩ := g
    obtain ⟨ht, hi, hf⟩ := h _ List.mem_cons_self
    rw [Generator.lowerInner]
    refine .task rfl fun n => .of_follows (follows_loop (some iter) ?_ ht hf ?_)
    · exact .cons (hi d .push) (follows_emit _)
    · exact ih (fun g hg => h g (List.mem_cons_of_mem _ hg)) (depth + 1)

theorem follows_lambdaBody {e : Expr} (h : e.Lowers o) :
    Follows o d ((Body.lambda e).build o) ((Body.lambda e).steps o d) ((Body.lambda e).addNone d) := by
  refine follows_internConstant _ fun _ => .cons (h d _) (.ask (fun _ => rfl) ?_)
  dsimp only [Body.addNone]
  cases d.isGenerator with
  | false => exact .cons (follows_emit _) (.pure _)
  | true => exact .pure _

theorem follows_comprehensionBody {target element : Expr} {filters : List Expr}
    {rest : List Generator} (ht : target.Lowers o) (hf : ∀ e ∈ filters, e.Lowers o)
    (hrest : ∀ g ∈ rest, g.Lowers o) (he : element.Lowers o) :
    Follows o d ((Body.comprehension target filters rest element).build o)
      ((Body.comprehension target filters rest element).steps o d) true := by
  have hinput := (finds_internVarname .loadFast (d := d) ".0" fun _ => rfl).follows (o := o) rfl
  exact .cons (follows_emitArg _ _ rfl) (.cons (follows_loop none hinput ht hf
    (follows_inner he hrest 1)) (.cons (follows_emit _) (.pure _)))

/-- The builds of an entry of a dict display. -/
def dictEntry (o : Options) (p : Expr × Expr) : DictEntry :=
  ⟨p.1.constant?, p.1.lower o.filename .push, p.2.lower o.filename .push⟩

theorem lowerEach_eq (filename : String) (out : Array (Build Unit)) (es : List Expr) :
    (Expr.lowerEach filename out es).toList =
      out.toList ++ es.map fun e => e.lower filename .push := by
  induction es generalizing out with
  | nil => simp [Expr.lowerEach]
  | cons e es ih => simp [Expr.lowerEach, ih]

theorem zipWith_dictEntry (keys values : List Expr) :
    List.zipWith (fun k (b : Build Unit × Build Unit) => DictEntry.mk k b.1 b.2)
      (keys.map Expr.constant?)
      ((Expr.lowerEach o.filename #[] keys).zip (Expr.lowerEach o.filename #[] values)).toList =
      (keys.zip values).map (dictEntry o) := by
  rw [Array.toList_zip, lowerEach_eq, lowerEach_eq]
  simp only [List.nil_append]
  induction keys generalizing values with
  | nil => rfl
  | cons k keys ih =>
    cases values with
    | nil => rfl
    | cons v values =>
      simp only [List.map_cons, List.zip_cons_cons, List.zipWith_cons_cons, ih]
      rfl

theorem follows_buildEntries {entries : List (Expr × Expr)}
    (h : ∀ p ∈ entries, p.1.Lowers o ∧ p.2.Lowers o) :
    Follows o d (buildEntries (entries.map (dictEntry o)))
      [.run (.all (entries.flatMap fun p => [p.1, p.2]))] () := by
  induction entries with
  | nil => exact .task rfl fun n => .of_follows (.pure ())
  | cons p entries ih =>
    obtain ⟨hk, hv⟩ := h p List.mem_cons_self
    have ih := ih fun q hq => h q (List.mem_cons_of_mem _ hq)
    -- the value and the rest are one list behind the key
    refine .task rfl fun n => .of_follows (.cons (hk d .push) (.task rfl fun n => .of_follows ?_))
    exact .cons (hv d .push) ih

theorem follows_buildValues {entries : List (Expr × Expr)}
    (h : ∀ p ∈ entries, p.1.Lowers o ∧ p.2.Lowers o) :
    Follows o d (buildValues (entries.map (dictEntry o)))
      [.run (.all (entries.map Prod.snd))] () := by
  induction entries with
  | nil => exact .task rfl fun n => .of_follows (.pure ())
  | cons p entries ih =>
    refine .task rfl fun n => .of_follows (.cons ((h p List.mem_cons_self).2 d .push) ?_)
    exact ih fun q hq => h q (List.mem_cons_of_mem _ hq)

theorem follows_buildMap {entries : List (Expr × Expr)}
    (h : ∀ p ∈ entries, p.1.Lowers o ∧ p.2.Lowers o) :
    Follows o d (buildMap (entries.map (dictEntry o))) [.run (.map entries)] () := by
  refine .task rfl fun n => .of_follows ?_
  have hkeys : (entries.map (dictEntry o)).mapM DictEntry.constantKey =
      entries.mapM fun p => p.1.constant? := by
    rw [List.mapM_map]
    rfl
  have hplain : Follows o d (do
      buildEntries (entries.map (dictEntry o))
      emitArg .buildMap (UInt32.ofNat entries.length))
      [.run (.all (entries.flatMap fun p => [p.1, p.2])),
        .emit .buildMap (UInt32.ofNat entries.length)] () :=
    .cons (follows_buildEntries h) (follows_emitArg _ _ rfl)
  unfold buildMap
  simp only [Task.steps, mapSteps, hkeys, List.length_map]
  cases entries.mapM fun p => p.1.constant? with
  | none => exact hplain
  | some keys =>
    dsimp only
    split
    · exact .cons (follows_buildValues h) (.cons (follows_loadConst _) (follows_emitArg _ _ rfl))
    · exact hplain

theorem follows_extendMap {entries : List (Expr × Expr)}
    (h : ∀ p ∈ entries, p.1.Lowers o ∧ p.2.Lowers o) :
    Follows o d (extendMap (entries.map (dictEntry o))) [.run (.extendMap entries)] () := by
  induction hn : entries.length using Nat.strongRecOn generalizing entries with
  | ind n ih =>
    refine .task rfl fun n => .of_follows ?_
    rw [extendMap]
    cases entries with
    | nil => exact .pure ()
    | cons p entries =>
      have hsub {q : Expr × Expr} {l : List (Expr × Expr)} (hl : l.Sublist (p :: entries))
          (hq : q ∈ l) : q.1.Lowers o ∧ q.2.Lowers o := h q (hl.subset hq)
      rw [if_neg (by simp), ← List.map_take, ← List.map_drop]
      refine .cons (follows_buildMap fun q hq => hsub (List.take_sublist _ _) hq)
        (.cons (follows_emitArg _ _ rfl) (ih _ ?_ (fun q hq => hsub (List.drop_sublist _ _) hq) rfl))
      rw [← hn, List.length_drop, maxMapEntries, List.length_cons]
      omega

theorem follows_values {ks : List Keyword} (h : ∀ k ∈ ks, k.value.Lowers o) :
    Follows o d (Keyword.lowerValues o.filename ks) [.run (.all (ks.map Keyword.value))] () := by
  induction ks with
  | nil =>
    rw [Keyword.lowerValues]
    exact .task rfl fun n => .of_follows (.pure ())
  | cons k ks ih =>
    obtain ⟨name, e⟩ := k
    rw [Keyword.lowerValues]
    refine .task rfl fun n => .of_follows (.cons (h _ List.mem_cons_self d .push) ?_)
    exact ih fun k hk => h k (List.mem_cons_of_mem _ hk)

theorem follows_callWith {extra : Nat} {args : List Expr} {ks : List Keyword}
    (ha : ∀ e ∈ args, e.Lowers o) (hk : ∀ k ∈ ks, k.value.Lowers o) :
    Follows o d (callWith extra args.length (Expr.lowerAll o.filename args)
      (ks.map Keyword.name) (Keyword.lowerValues o.filename ks)) (callSteps extra args ks) () := by
  refine .cons (follows_all ha) ?_
  rw [List.isEmpty_map, List.length_map]
  dsimp only
  split
  · exact follows_emitArg _ _ rfl
  · exact .cons (follows_values hk) (.cons (follows_loadConst _) (follows_emitArg _ _ rfl))

theorem follows_kwDefaults (ps : List Param) {es : List (Option Expr)}
    (h : ∀ e, some e ∈ es → e.Lowers o) :
    Follows o d (Expr.lowerKwDefaults o.filename ps es)
      [.run (.all ((ps.zip es).filterMap Prod.snd))] () := by
  induction ps generalizing es with
  | nil =>
    rw [Expr.lowerKwDefaults]
    · exact .task rfl fun n => .of_follows (.pure ())
    · simp
    · simp
  | cons p ps ih =>
    match es with
    | [] =>
      rw [Expr.lowerKwDefaults]
      · exact .task rfl fun n => .of_follows (.pure ())
      · simp
      · simp
    | none :: es =>
      rw [Expr.lowerKwDefaults]
      exact ih fun e he => h e (List.mem_cons_of_mem _ he)
    | some e :: es =>
      rw [Expr.lowerKwDefaults]
      refine .task rfl fun n => .of_follows (.cons (h e List.mem_cons_self d .push) ?_)
      exact ih fun e he => h e (List.mem_cons_of_mem _ he)

/-- The builds of all defaults of parameters follow their schemes. -/
structure Arguments.Lowers (o : Options) (a : Arguments) : Prop where
  defaults : ∀ e ∈ a.defaults, e.Lowers o
  kwDefaults : ∀ e, some e ∈ a.kwDefaults → e.Lowers o

theorem follows_defaults {a : Arguments} (h : a.Lowers o) :
    Follows o d (Arguments.lowerDefaults o.filename a) a.defaultSteps a.parts := by
  obtain ⟨posonly, params, vararg, kwonly, kwDefaults, kwarg, defaults⟩ := a
  rw [Arguments.lowerDefaults]
  dsimp only
  generalize ha : Arguments.mk posonly params vararg kwonly kwDefaults kwarg defaults = a at h ⊢
  obtain ⟨hkw, hks, hds⟩ : kwonly = a.kwonly ∧ kwDefaults = a.kwDefaults ∧
      defaults = a.defaults := by
    rw [← ha]
    exact ⟨rfl, rfl, rfl⟩
  rw [hkw, hks, hds, show FunctionParts.mk (!a.defaults.isEmpty) (!a.kwDefaultNames.isEmpty) false
    false = a.parts from rfl]
  have hkeys : Follows o d (if (!a.kwDefaultNames.isEmpty) = true then do
        loadConst (nameTuple a.kwDefaultNames)
        let _ ← emitArg .buildConstKeyMap (UInt32.ofNat a.kwDefaultNames.length)
        pure a.parts
      else pure a.parts)
      (if a.kwDefaultNames.isEmpty then []
        else [.load (nameTuple a.kwDefaultNames),
          .emit .buildConstKeyMap (UInt32.ofNat a.kwDefaultNames.length)]) a.parts := by
    cases a.kwDefaultNames.isEmpty with
    | false => exact .cons (follows_loadConst _) (.cons (follows_emitArg _ _ rfl) (.pure _))
    | true => exact .pure _
  have hrest := (follows_kwDefaults a.kwonly h.kwDefaults (d := d)).seq hkeys
  unfold Arguments.defaultSteps
  cases hdefaults : a.defaults.isEmpty with
  | false =>
    simp only [Bool.not_false, if_true, Bool.false_eq_true, if_false]
    exact .cons (follows_all h.defaults) (.cons (follows_emitArg _ _ rfl) hrest)
  | true => exact hrest

theorem Opens.atLine {n k : Nat} {line : UInt32} {b : Build Unit} {steps : List Step}
    (h : Opens o d n k b steps ()) : Opens o d n k (Build.atLine line b) steps () := by
  -- the line is set before the build and set back behind it, which no script records
  have hrun (s : Session) : ∃ s₀ : Session, s.Writes [] s₀ ∧
      Build.atLine line b s = (b >>= fun _ => setLine s.draft.line) s₀ := by
    unfold Build.atLine
    by_cases hline : line = 0
    · exact ⟨s, .refl s, by simp only [hline]; rfl⟩
    · refine ⟨⟨s.draft.setLine line, s.nextSerial⟩, s.writes_setLine line, ?_⟩
      simp only [ne_eq, hline, not_false_eq_true, if_true]
      rfl
  have hsize {s s' : Session} (hw : s.Writes [] s') : s'.draft.blocks.size = s.draft.blocks.size :=
    hw.draft.size_blocks
  constructor
  · intro s a s' hs hn hb
    obtain ⟨s₀, hquiet, heq⟩ := hrun s
    obtain ⟨a', s₁, hb, hback⟩ := of_bind_ok (heq ▸ hb)
    obtain ⟨_, log, s₂, he, hw, hruns⟩ :=
      h.ok (hs.trans hquiet.draft.evolves) ((hsize hquiet).trans hn) hb
    cases hback
    have hset := s₁.writes_setLine s.draft.line
    exact ⟨rfl, log, s₂, (hsize hset) ▸ he, hquiet.trans hw, hruns.then_quiet hset⟩
  · intro s e s' f hs hn hb hf hcode
    obtain ⟨s₀, hquiet, heq⟩ := hrun s
    rcases of_bind_error (heq ▸ hb) with hb | ⟨_, _, _, hback⟩
    · exact h.err (hs.trans hquiet.draft.evolves) ((hsize hquiet).trans hn) hb hf hcode
    · cases hback
  · intro s e s' hs hn hb
    obtain ⟨s₀, hquiet, heq⟩ := hrun s
    rcases of_bind_error (heq ▸ hb) with hb | ⟨_, _, _, hback⟩
    · exact h.kind (hs.trans hquiet.draft.evolves) ((hsize hquiet).trans hn) hb
    · cases hback

/-- An expression whose value is computed and then tested if need be. -/
theorem opens_value {e : Expr} {dest : Dest} {line : UInt32} {b : Build Unit} {n : Nat}
    (hcount : e.labelCount dest = 0)
    (hsteps : e.steps d n dest = e.valueSteps d ++ dest.testSteps)
    (h : Follows o d b (e.valueSteps d) ()) :
    Opens o d n (e.labelCount dest) (deliver line dest b) (e.steps d n dest) () := by
  rw [hsteps, hcount]
  exact .of_follows (follows_deliver h)

end Parts

/-- The expressions directly inside an expression that are compiled with it. -/
def Expr.parts : Expr → List Expr
  | .boolOp _ _ values => values
  | .binOp _ left _ right => [left, right]
  | .unaryOp _ _ operand => [operand]
  | .lambda _ args body => body :: (args.defaults ++ args.kwDefaults.filterMap id)
  | .ifExp _ test body orelse => [test, body, orelse]
  | .dict _ keys values => keys ++ values
  | .set _ elts => elts
  | .listComp _ elt gs => elt :: gs.flatMap fun g => g.target :: g.iter :: g.filters
  | .yield _ e => e.toList
  | .compare _ left _ comparators => left :: comparators
  | .call _ func args keywords => func :: (args ++ keywords.map Keyword.value)
  | .constant .. | .name .. => []
  | .attribute _ object _ _ => [object]
  | .subscript _ object index _ => [object, index]
  | .slice _ lower upper step => lower.toList ++ upper.toList ++ step.toList
  | .list _ elts _ => elts
  | .tuple _ elts _ => elts

theorem sizeOf_toList {e : Expr} {x : Option Expr} (h : e ∈ x.toList) : sizeOf e < sizeOf x := by
  obtain rfl := Option.mem_toList.mp h
  simp

theorem Expr.sizeOf_lt_of_mem_parts {e e' : Expr} (h : e' ∈ e.parts) : sizeOf e' < sizeOf e := by
  have hlist {es : List Expr} (hes : e' ∈ es) : sizeOf e' < sizeOf es := List.sizeOf_lt_of_mem hes
  cases e with
  | boolOp | set | list | tuple =>
    have := hlist h
    simp +arith only [Expr.boolOp.sizeOf_spec, Expr.set.sizeOf_spec, Expr.list.sizeOf_spec,
      Expr.tuple.sizeOf_spec, Expr.parts] at this ⊢
    omega
  | binOp | ifExp | unaryOp | «attribute» | subscript =>
    simp only [Expr.parts, List.mem_cons, List.not_mem_nil, or_false] at h
    rcases h with rfl | rfl | rfl <;> simp <;> omega
  | constant | name => cases h
  | yield line x =>
    have := sizeOf_toList h
    simp only [Expr.yield.sizeOf_spec]
    omega
  | slice line lower upper step =>
    simp only [Expr.parts, List.mem_append] at h
    simp only [Expr.slice.sizeOf_spec]
    rcases h with (h | h) | h <;> have := sizeOf_toList h <;> omega
  | dict line keys values =>
    simp only [Expr.dict.sizeOf_spec]
    rcases List.mem_append.mp h with h | h <;> have := hlist h <;> omega
  | compare line left ops comparators =>
    simp only [Expr.compare.sizeOf_spec]
    rcases List.mem_cons.mp h with rfl | h
    · omega
    · have := hlist h
      omega
  | call line func args keywords =>
    simp only [Expr.call.sizeOf_spec]
    rcases List.mem_cons.mp h with rfl | h
    · omega
    · rcases List.mem_append.mp h with h | h
      · have := hlist h
        omega
      · obtain ⟨⟨x, e⟩, hk, rfl⟩ := List.mem_map.mp h
        have := List.sizeOf_lt_of_mem hk
        simp only [Keyword.mk.sizeOf_spec] at this ⊢
        omega
  | lambda line args body =>
    obtain ⟨posonly, params, vararg, kwonly, kwDefaults, kwarg, defaults⟩ := args
    simp only [Expr.lambda.sizeOf_spec, Arguments.mk.sizeOf_spec]
    rcases List.mem_cons.mp h with rfl | h
    · omega
    · rcases List.mem_append.mp h with h | h
      · have : sizeOf e' < sizeOf defaults := hlist h
        omega
      · obtain ⟨x, hx, rfl⟩ := List.mem_filterMap.mp h
        have := List.sizeOf_lt_of_mem hx
        simp only [Option.some.sizeOf_spec] at this
        omega
  | listComp line elt gs =>
    simp only [Expr.listComp.sizeOf_spec]
    rcases List.mem_cons.mp h with rfl | h
    · omega
    · obtain ⟨⟨target, iter, filters⟩, hg, h⟩ := List.mem_flatMap.mp h
      have := List.sizeOf_lt_of_mem hg
      simp only [Generator.mk.sizeOf_spec] at this
      simp only [List.mem_cons] at h
      rcases h with rfl | rfl | h
      · omega
      · omega
      · have := hlist h
        omega

theorem follows_sequence {o : Options} {d : Draft} {build : Opcode} {ctx : Ctx} {es : List Expr}
    (hbuild : build.hasOperand = true) (h : ∀ e ∈ es, e.Lowers o) :
    Follows o d (sequence build ctx es.length (Expr.lowerAll o.filename es))
      (sequenceSteps build ctx es) () := by
  cases ctx with
  | load => exact .cons (follows_all h) (follows_emitArg _ _ hbuild)
  | store => exact .cons (follows_emitArg _ _ rfl) (follows_all h)
  | del => exact follows_all h

/-- The build of an expression follows its scheme. -/
theorem Expr.lowers (o : Options) (e : Expr) : e.Lowers o := by
  induction hn : sizeOf e using Nat.strongRecOn generalizing e with
  | ind n ih =>
    subst hn
    have ih (e' : Expr) (h : sizeOf e' < sizeOf e) : e'.Lowers o := ih _ h e' rfl
    have hpart (e' : Expr) (h : e' ∈ e.parts) : e'.Lowers o := ih e' (sizeOf_lt_of_mem_parts h)
    intro d dest
    refine .task_of (fun hrun hw => ⟨_, _, hrun, hw⟩) rfl fun n => ?_
    simp only [Task.labelCount, Task.steps]
    cases e with
    | boolOp line op values =>
      cases dest with
      | push =>
        rw [Expr.lower]
        refine .atLine (.guard rfl rfl fun hne => .newBlock (.of_follows ?_))
        exact .cons (follows_operands op.isJump_jumpOpcode hpart (Bool.eq_false_iff.mpr hne))
          (follows_fallInto n)
      | jump target sense =>
        rw [Expr.lower]
        refine .guard rfl rfl fun hne => ?_
        have hne := Bool.eq_false_iff.mpr hne
        simp only [Expr.labelCount, Expr.steps]
        split
        · refine .of_follows (.silent (.pure target) ?_)
          rw [if_neg (not_not.mpr rfl)]
          exact .cons (follows_tests hpart hne) (.pure ())
        · refine .newBlock (.of_follows (.cons (follows_tests hpart hne) ?_))
          by_cases hne : n = target
          · rw [if_neg (not_not.mpr hne), if_pos hne]
            exact .pure ()
          · rw [if_pos hne, if_neg hne]
            exact follows_fallInto n
    | binOp line left op right =>
      rw [Expr.lower]
      refine opens_value rfl rfl ?_
      exact .cons (hpart left (by simp [Expr.parts]) d _)
        (.cons (hpart right (by simp [Expr.parts]) d _) (follows_emit _))
    | unaryOp line op operand =>
      have hoperand := hpart operand (by simp [Expr.parts]) d
      have hvalue : Follows o d (do operand.lower o.filename .push; emit op.opcode)
          [value operand, simple op.opcode] () := .cons (hoperand _) (follows_emit _)
      cases dest with
      | push =>
        rw [Expr.lower]
        · exact opens_value (by cases op <;> rfl) (by cases op <;> rfl) hvalue
        · simp
      | jump target sense =>
        cases op with
        | not =>
          rw [Expr.lower]
          exact .of_follows (hoperand _)
        | invert | plus | minus =>
          rw [Expr.lower]
          · exact opens_value rfl rfl hvalue
          · simp
    | lambda line args body =>
      have hargs : args.Lowers o := by
        refine ⟨fun e he => hpart e ?_, fun e he => hpart e ?_⟩
        · simp [Expr.parts, he]
        · simp [Expr.parts, he]
      rw [Expr.lower]
      refine opens_value rfl rfl ((follows_defaults hargs).append ?_)
      have hbody := hpart body (by simp [Expr.parts])
      refine (follows_closure (.lambda body) (fun _ => follows_lambdaBody hbody)
        (.pure ())).of_eq ?_ rfl
      simp only [bind_pure_unit]
      rfl
    | ifExp line test body orelse =>
      have ht := hpart test (by simp [Expr.parts]) d
      have hb := hpart body (by simp [Expr.parts]) d
      have he := hpart orelse (by simp [Expr.parts]) d
      cases dest with
      | push =>
        rw [Expr.lower]
        refine .atLine (.newBlock (.newBlock (.of_follows ?_)))
        exact .cons (ht _) (.cons (hb _) (.cons (follows_emitJump _ _ rfl) (.cons (follows_fallInto _)
          (.cons (he _) (follows_fallInto _)))))
      | jump target sense =>
        rw [Expr.lower]
        refine .newBlock (.newBlock (.of_follows ?_))
        exact .cons (ht _) (.cons (hb _) (.cons (follows_emitJump _ _ rfl) (.cons (follows_fallInto _)
          (.cons (he _) (follows_fallInto _)))))
    | dict line keys values =>
      rw [Expr.lower]
      refine opens_value rfl rfl (.guard rfl rfl fun _ => ?_)
      dsimp only
      rw [zipWith_dictEntry, dictDisplay, ← List.map_take, ← List.map_drop]
      have hentries (p : Expr × Expr) (hp : p ∈ keys.zip values) : p.1.Lowers o ∧ p.2.Lowers o := by
        obtain ⟨hk, hv⟩ := List.of_mem_zip hp
        exact ⟨hpart _ (by simp [Expr.parts, hk]), hpart _ (by simp [Expr.parts, hv])⟩
      exact .cons (follows_buildMap fun p hp => hentries p (List.mem_of_mem_take hp))
        (follows_extendMap fun p hp => hentries p (List.mem_of_mem_drop hp))
    | set line elts =>
      rw [Expr.lower]
      exact opens_value rfl rfl (.cons (follows_all hpart) (follows_emitArg _ _ rfl))
    | listComp line elt generators =>
      cases generators with
      | nil =>
        rw [Expr.lower]
        exact opens_value rfl rfl (.throw rfl rfl _ _)
      | cons g rest =>
        obtain ⟨target, iter, filters⟩ := g
        have hrest (g : Generator) (hg : g ∈ rest) : g.Lowers o := by
          refine ⟨hpart _ ?_, hpart _ ?_, fun e he => hpart e ?_⟩
          all_goals
            refine List.mem_cons_of_mem _ (List.mem_flatMap.mpr ⟨g, List.mem_cons_of_mem _ hg, ?_⟩)
            simp_all
        rw [Expr.lower]
        refine opens_value rfl rfl ?_
        refine follows_closure (.comprehension target filters rest elt) (fun d' => ?_) ?_
        · exact follows_comprehensionBody (hpart _ (by simp [Expr.parts]))
            (fun e he => hpart e (by simp [Expr.parts, he])) hrest (hpart elt (by simp [Expr.parts]))
        · exact .cons (hpart iter (by simp [Expr.parts]) d _)
            (.cons (follows_emit _) (follows_emitArg _ _ rfl))
    | yield line x =>
      rw [Expr.lower]
      refine opens_value rfl rfl (.ask (fun _ => rfl) (.guard rfl rfl fun _ => ?_))
      exact (follows_orNone fun e he => hpart e (by simpa [Expr.parts] using he)).append
        (follows_emit _)
    | compare line left ops comparators =>
      have hl := hpart left (by simp [Expr.parts]) d .push
      have hcs (e : Expr) (he : e ∈ comparators) := hpart e (by simp [Expr.parts, he])
      rcases ops with _ | ⟨op, _ | ⟨op', ops⟩⟩
      · rw [Expr.lower]
        · refine opens_value (by cases dest <;> rfl) (by cases dest <;> rfl)
            (.guard rfl rfl fun _ => .throw rfl rfl _ _)
        · simp
        · simp
      · rcases comparators with _ | ⟨c, _ | ⟨c', cs⟩⟩
        · rw [Expr.lower]
          · exact opens_value (by cases dest <;> rfl) (by cases dest <;> rfl)
              (.guard rfl rfl fun hlen => absurd (by simp) hlen)
          · simp
          · simp
        · rw [Expr.lower]
          exact opens_value (by cases dest <;> rfl) (by cases dest <;> rfl)
            (.cons hl (.cons (hcs c (by simp) d _) (follows_emitArg _ _ op.hasOperand_opcode)))
        · rw [Expr.lower]
          · exact opens_value (by cases dest <;> rfl) (by cases dest <;> rfl)
              (.guard rfl rfl fun hlen => absurd (by simp) hlen)
          · simp
          · simp
      · cases dest with
        | push =>
          rw [Expr.lower]
          · refine opens_value rfl rfl (.guard rfl rfl fun _ => ?_)
            dsimp only [Expr.valueSteps]
            cases hlast : (op :: op' :: ops).getLast? with
            | none => exact .throw rfl rfl _ _
            | some last =>
              refine .cons hl (.task rfl fun n => .newBlock (.of_follows ?_))
              exact .cons (follows_links rfl hcs) (follows_chainEnd .push
                (.cons (follows_emit _) (follows_emit _)))
          · simp
          · simp
        | jump target sense =>
          rw [Expr.lower]
          refine .guard rfl rfl fun _ => .newBlock (.of_follows ?_)
          refine .cons hl (.cons (follows_links rfl hcs) ((follows_test _).append
            (follows_chainEnd _ (.cons (follows_emit _) ?_))))
          cases sense with
          | false => exact follows_emitJump _ _ rfl
          | true => exact .pure ()
    | call line func args keywords =>
      have hargs (e : Expr) (he : e ∈ args) := hpart e (by simp [Expr.parts, he])
      have hks (k : Keyword) (hk : k ∈ keywords) : k.value.Lowers o :=
        hpart _ (by simp only [Expr.parts, List.mem_cons, List.mem_append, List.mem_map]
                    exact .inr (.inr ⟨k, hk, rfl⟩))
      have hcall : Follows o d (do
          func.lower o.filename .push
          callWith 0 args.length (Expr.lowerAll o.filename args) (keywords.map Keyword.name)
            (Keyword.lowerValues o.filename keywords)) (value func :: callSteps 0 args keywords) () :=
        .cons (hpart func (by simp [Expr.parts]) d _) (follows_callWith hargs hks)
      by_cases hmethod : ∃ l object attr, func = .attribute l object attr .load ∧ keywords = []
      · obtain ⟨l, object, attr, rfl, rfl⟩ := hmethod
        have hobject : object.Lowers o := ih object (Nat.lt_trans
          (sizeOf_lt_of_mem_parts (e := .attribute l object attr .load) (by simp [Expr.parts]))
          (sizeOf_lt_of_mem_parts (by simp [Expr.parts])))
        rw [Expr.lower]
        exact opens_value rfl rfl (.cons (hobject d _)
          (.cons (follows_emitName attr (fun _ => rfl) rfl) (.cons (follows_all hargs)
            (follows_emitArg _ _ rfl))))
      · have hother (l : UInt32) (object : Expr) (attr : String)
            (hf : func = .attribute l object attr .load) (hk : keywords = []) : False :=
          hmethod ⟨l, object, attr, hf, hk⟩
        rw [Expr.lower]
        · refine opens_value (by cases dest <;> rfl) (by cases dest <;> rfl) ?_
          rw [Expr.valueSteps]
          · exact hcall
          · exact hother
        · exact hother
    | constant line c =>
      rw [Expr.lower]
      exact opens_value rfl rfl (follows_loadConst c)
    | «attribute» line object attr ctx =>
      rw [Expr.lower]
      refine opens_value rfl rfl (.cons (hpart object (by simp [Expr.parts]) d _) ?_)
      exact follows_emitName attr (fun _ => by cases ctx <;> rfl) (by cases ctx <;> rfl)
    | subscript line object index ctx =>
      rw [Expr.lower]
      exact opens_value rfl rfl (.cons (hpart object (by simp [Expr.parts]) d _)
        (.cons (hpart index (by simp [Expr.parts]) d _) (follows_emit _)))
    | slice line lower upper step =>
      have hl := follows_orNone (d := d) fun e (he : e ∈ lower) => hpart e (by simp_all [Expr.parts])
      have hu := follows_orNone (d := d) fun e (he : e ∈ upper) => hpart e (by simp_all [Expr.parts])
      cases step with
      | none =>
        rw [Expr.lower]
        refine opens_value rfl rfl ?_
        simp only [Expr.valueSteps, List.append_assoc]
        exact hl.append (hu.append (follows_emitArg _ _ rfl))
      | some step =>
        rw [Expr.lower]
        refine opens_value rfl rfl ?_
        simp only [Expr.valueSteps, List.append_assoc]
        exact hl.append (hu.append (.cons (hpart step (by simp [Expr.parts]) d _)
          (follows_emitArg _ _ rfl)))
    | name line id ctx =>
      rw [Expr.lower]
      exact opens_value rfl rfl (follows_accessName id ctx)
    | list line elts ctx =>
      rw [Expr.lower]
      exact opens_value rfl rfl (follows_sequence rfl hpart)
    | tuple line elts ctx =>
      rw [Expr.lower]
      exact opens_value rfl rfl (follows_sequence rfl hpart)

end Wordcode
