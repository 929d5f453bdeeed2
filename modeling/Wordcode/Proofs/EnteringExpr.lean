import Wordcode.Proofs.Entering

/-!
# Scopes that expressions enter

The code of an expression enters the scopes that the expression visits in the order of evaluation,
whatever becomes of its value.
-/

set_option autoImplicit false

namespace Wordcode

open Build

/-- The code of an expression enters the scopes that the expression visits. -/
def Expr.EntersOwn (o : Options) (e : Expr) : Prop :=
  ∀ p dest, Enters o p (e.visits .evaluated) (e.lower o.filename dest)

section Lists

variable {o : Options} {p : Prop} {es : List Expr}

theorem enters_all (h : ∀ e ∈ es, e.EntersOwn o) :
    Enters o p (Expr.visitsOf .evaluated es) (Expr.lowerAll o.filename es) := by
  induction es with
  | nil =>
    rw [Expr.lowerAll]
    exact .of (.pure ())
  | cons e es ih =>
    rw [Expr.lowerAll, Expr.visitsOf_cons]
    exact (h e List.mem_cons_self p .push).bind fun _ => ih fun e he => h e (List.mem_cons_of_mem _ he)

theorem enters_orNone {x : Option Expr} (h : ∀ e ∈ x.toList, e.EntersOwn o) :
    Enters o p (Expr.visitsOf .evaluated x.toList) (Expr.lowerOrNone o.filename x) := by
  cases x with
  | none =>
    rw [Expr.lowerOrNone]
    exact .of (.loadConst _)
  | some e =>
    rw [Expr.lowerOrNone]
    exact (h e (by simp) p .push).of_eq (by simp)

theorem enters_operands (jump : Opcode) (done : BlockId) (h : ∀ e ∈ es, e.EntersOwn o) :
    Enters o p (Expr.visitsOf .evaluated es) (Expr.lowerOperands o.filename jump done es) := by
  induction es with
  | nil =>
    rw [Expr.lowerOperands]
    exact .of (.pure ())
  | cons e es ih =>
    have hhead := h e List.mem_cons_self p .push
    have ih := ih fun e he => h e (List.mem_cons_of_mem _ he)
    cases es with
    | nil =>
      rw [Expr.lowerOperands]
      exact hhead.of_eq (by simp)
    | cons e' es =>
      rw [Expr.lowerOperands, Expr.visitsOf_cons]
      · exact hhead.bind fun _ => .step (.emitJump _ _) fun _ => .step .nextBlock fun _ => ih
      · simp

theorem enters_tests (inner : BlockId) (decisive : Bool) (target : BlockId) (sense : Bool)
    (h : ∀ e ∈ es, e.EntersOwn o) :
    Enters o p (Expr.visitsOf .evaluated es)
      (Expr.lowerTests o.filename inner decisive target sense es) := by
  induction es with
  | nil =>
    rw [Expr.lowerTests]
    exact .of (.pure ())
  | cons e es ih =>
    have ih := ih fun e he => h e (List.mem_cons_of_mem _ he)
    cases es with
    | nil =>
      rw [Expr.lowerTests]
      exact (h e List.mem_cons_self p _).of_eq (by simp)
    | cons e' es =>
      rw [Expr.lowerTests, Expr.visitsOf_cons]
      · exact (h e List.mem_cons_self p _).bind fun _ => ih
      · simp

/-- Of comparators that are too many only the last is evaluated. -/
theorem enters_links (jump : Opcode) (cleanup : BlockId) (last : CmpOp) (ops : List CmpOp)
    (h : ∀ e ∈ es, e.EntersOwn o) :
    Enters o p (Expr.visitsOf .evaluated (es.dropLast.take ops.length ++ es.getLast?.toList))
      (Expr.lowerLinks o.filename jump cleanup last ops es) := by
  induction es generalizing ops with
  | nil =>
    rw [Expr.lowerLinks]
    exact .of_eq (.of (.pure ())) (by simp)
  | cons e es ih =>
    have hhead := h e List.mem_cons_self p .push
    have ih (ops : List CmpOp) := ih ops fun e he => h e (List.mem_cons_of_mem _ he)
    cases es with
    | nil =>
      rw [Expr.lowerLinks]
      exact (hhead.after fun _ => .emitCompare last).of_eq (by simp)
    | cons e' es =>
      cases ops with
      | nil =>
        rw [Expr.lowerLinks]
        · exact (ih []).of_eq (by simp)
        · simp
      | cons op ops =>
        rw [Expr.lowerLinks]
        · refine .of_eq (hhead.bind fun _ => .step (.emit _) fun _ => .step (.emit _)
            fun _ => .step (.emitCompare op) fun _ => .step (.emitJump _ _) fun _ =>
              .step .nextBlock fun _ => ih ops) ?_
          rw [List.dropLast_cons_cons, List.length_cons, List.take_succ_cons, List.cons_append,
            Expr.visitsOf_cons, List.getLast?_cons_cons]
        · simp

theorem enters_filters (cleanup : BlockId) (h : ∀ e ∈ es, e.EntersOwn o) :
    Enters o p (Expr.visitsOf .evaluated es) (Expr.lowerFilters o.filename cleanup es) := by
  induction es with
  | nil =>
    rw [Expr.lowerFilters]
    exact .of (.pure ())
  | cons e es ih =>
    rw [Expr.lowerFilters, Expr.visitsOf_cons]
    exact (h e List.mem_cons_self p _).bind fun _ => .step .nextBlock fun _ =>
      ih fun e he => h e (List.mem_cons_of_mem _ he)

/-- The expressions of a dict display. -/
def entryParts (entries : List (Expr × Expr)) : List Expr := entries.flatMap fun p => [p.1, p.2]

theorem entryParts_take_drop (n : Nat) (entries : List (Expr × Expr)) :
    entryParts entries = entryParts (entries.take n) ++ entryParts (entries.drop n) := by
  rw [entryParts, entryParts, entryParts, ← List.flatMap_append, List.take_append_drop]

variable {entries : List (Expr × Expr)}

theorem enters_buildEntries (h : ∀ e ∈ entryParts entries, e.EntersOwn o) :
    Enters o p (Expr.visitsOf .evaluated (entryParts entries))
      (buildEntries (entries.map (dictEntry o))) := by
  induction entries with
  | nil => exact .of (.pure ())
  | cons entry entries ih =>
    have hcons : entryParts (entry :: entries) = entry.1 :: entry.2 :: entryParts entries := rfl
    rw [hcons] at h ⊢
    rw [Expr.visitsOf_cons, Expr.visitsOf_cons]
    exact (h _ (by simp) p .push).bind fun _ => (h _ (by simp) p .push).bind fun _ =>
      ih fun e he => h e (by simp [he])

/-- Keys that are all constant visit no scope. -/
theorem enters_buildValues {keys : List Constant}
    (hkeys : entries.mapM (fun p => p.1.constant?) = some keys)
    (h : ∀ e ∈ entryParts entries, e.EntersOwn o) :
    Enters o p (Expr.visitsOf .evaluated (entryParts entries))
      (buildValues (entries.map (dictEntry o))) := by
  induction entries generalizing keys with
  | nil => exact .of (.pure ())
  | cons entry entries ih =>
    obtain ⟨e, v⟩ := entry
    rw [List.mapM_cons] at hkeys
    cases e <;> try cases hkeys
    next line c =>
    cases hrest : entries.mapM fun p => p.1.constant? with
    | none => simp [hrest] at hkeys
    | some rest =>
      have hcons : entryParts ((.constant line c, v) :: entries) =
          .constant line c :: v :: entryParts entries := rfl
      have hconstant : (Expr.constant line c).visits .evaluated = [] := by
        rw [Expr.visits_eq]
        rfl
      rw [hcons] at h ⊢
      rw [Expr.visitsOf_cons, Expr.visitsOf_cons, hconstant]
      exact (h v (by simp) p .push).bind fun _ => ih hrest fun e he => h e (by simp [he])

theorem enters_buildMap (h : ∀ e ∈ entryParts entries, e.EntersOwn o) :
    Enters o p (Expr.visitsOf .evaluated (entryParts entries))
      (buildMap (entries.map (dictEntry o))) := by
  have hkeys : (entries.map (dictEntry o)).mapM DictEntry.constantKey =
      entries.mapM fun p => p.1.constant? := by
    rw [List.mapM_map]
    rfl
  have hplain (arg : UInt32) : Enters o p (Expr.visitsOf .evaluated (entryParts entries)) (do
      buildEntries (entries.map (dictEntry o))
      emitArg .buildMap arg) :=
    (enters_buildEntries h).after fun _ => .emitArg _ _
  unfold buildMap
  rw [hkeys]
  cases hconstants : entries.mapM fun p => p.1.constant? with
  | none => exact hplain _
  | some keys =>
    dsimp only
    split
    · exact (enters_buildValues hconstants h).after fun _ =>
        .bind (.loadConst _) fun _ => .emitArg _ _
    · exact hplain _

theorem enters_extendMap (h : ∀ e ∈ entryParts entries, e.EntersOwn o) :
    Enters o p (Expr.visitsOf .evaluated (entryParts entries))
      (extendMap (entries.map (dictEntry o))) := by
  induction hn : entries.length using Nat.strongRecOn generalizing entries with
  | ind n ih =>
    rw [extendMap]
    cases entries with
    | nil => exact .of (.pure ())
    | cons entry entries =>
      rw [if_neg (by simp), ← List.map_take, ← List.map_drop]
      rw [entryParts_take_drop maxMapEntries] at h ⊢
      rw [List.forall_mem_append] at h
      have hdrop := ih _ ?_ h.2 rfl
      · rw [Expr.visitsOf_append]
        exact (enters_buildMap h.1).bind fun _ => .step (.emitArg _ _) fun _ => hdrop
      · rw [← hn, List.length_drop, maxMapEntries, List.length_cons]
        omega

theorem enters_values {ks : List Keyword} (h : ∀ k ∈ ks, k.value.EntersOwn o) :
    Enters o p (Expr.visitsOf .evaluated (ks.map Keyword.value))
      (Keyword.lowerValues o.filename ks) := by
  induction ks with
  | nil =>
    rw [Keyword.lowerValues]
    exact .of (.pure ())
  | cons k ks ih =>
    obtain ⟨name, e⟩ := k
    rw [Keyword.lowerValues, List.map_cons, Expr.visitsOf_cons]
    exact (h _ List.mem_cons_self p .push).bind fun _ => ih fun k hk => h k (List.mem_cons_of_mem _ hk)

theorem enters_callWith (extra : Nat) {args : List Expr} {ks : List Keyword}
    (ha : ∀ e ∈ args, e.EntersOwn o) (hk : ∀ k ∈ ks, k.value.EntersOwn o) :
    Enters o p (Expr.visitsOf .evaluated (args ++ ks.map Keyword.value))
      (callWith extra args.length (Expr.lowerAll o.filename args) (ks.map Keyword.name)
        (Keyword.lowerValues o.filename ks)) := by
  rw [Expr.visitsOf_append]
  refine (enters_all ha).bind fun _ => ?_
  rw [List.isEmpty_map, List.length_map]
  dsimp only
  split
  · next hnil =>
    rw [List.isEmpty_iff.mp hnil]
    exact .of (.emitArg _ _)
  · exact (enters_values hk).after fun _ => .bind (.loadConst _) fun _ => .emitArg _ _

theorem enters_kwDefaults {ps : List Param} {xs : List (Option Expr)}
    (h : ∀ e ∈ (ps.zip xs).filterMap Prod.snd, e.EntersOwn o) :
    Enters o p (Expr.visitsOf .evaluated ((ps.zip xs).filterMap Prod.snd))
      (Expr.lowerKwDefaults o.filename ps xs) := by
  induction ps generalizing xs with
  | nil =>
    rw [Expr.lowerKwDefaults]
    · exact .of (.pure ())
    · simp
    · simp
  | cons param ps ih =>
    rcases xs with _ | ⟨_ | e, xs⟩
    · rw [Expr.lowerKwDefaults]
      · exact .of (.pure ())
      · simp
      · simp
    · rw [Expr.lowerKwDefaults]
      exact ih h
    · have hcons : ((param :: ps).zip (some e :: xs)).filterMap Prod.snd =
          e :: (ps.zip xs).filterMap Prod.snd := rfl
      rw [hcons] at h ⊢
      rw [Expr.lowerKwDefaults, Expr.visitsOf_cons]
      exact (h e List.mem_cons_self p .push).bind fun _ =>
        ih fun e he => h e (List.mem_cons_of_mem _ he)

theorem enters_defaults {a : Arguments} (h : ∀ e ∈ a.defaults ++ a.kwDefaultValues, e.EntersOwn o) :
    Enters o p (Expr.visitsOf .evaluated (a.defaults ++ a.kwDefaultValues))
      (Arguments.lowerDefaults o.filename a) := by
  obtain ⟨posonly, params, vararg, kwonly, kwDefaults, kwarg, defaults⟩ := a
  rw [Arguments.lowerDefaults, Expr.visitsOf_append]
  rw [List.forall_mem_append] at h
  have hrest (keys : List String) (parts : FunctionParts) :=
    (enters_kwDefaults (p := p) h.2).after fun _ => .defaultKeys keys parts
  cases hnil : defaults.isEmpty with
  | false =>
    exact (enters_all h.1).bind fun _ => .step (.emitArg _ _) fun _ => hrest _ _
  | true =>
    rw [List.isEmpty_iff.mp hnil]
    exact hrest _ _

theorem enters_sequence (build : Opcode) (ctx : Ctx) (count : Nat) (h : ∀ e ∈ es, e.EntersOwn o) :
    Enters o p (Expr.visitsOf .evaluated es)
      (sequence build ctx count (Expr.lowerAll o.filename es)) := by
  cases ctx with
  | load => exact (enters_all h).after fun _ => .emitArg _ _
  | store => exact .step (.emitArg _ _) fun _ => enters_all h
  | del => exact enters_all h

end Lists

theorem Expr.enters (o : Options) (e : Expr) : e.EntersOwn o := by
  induction hn : sizeOf e using Nat.strongRecOn generalizing e with
  | ind n ih =>
    subst hn
    have ih' (e' : Expr) (he' : e' ∈ e.operands) : e'.EntersOwn o :=
      ih _ (sizeOf_lt_of_mem_operands he') e' rfl
    have hpart (e' : Expr) (he' : e' ∈ e.partsIn .evaluated) : e'.EntersOwn o :=
      ih' e' (mem_operands_of_mem_partsIn he')
    intro p dest
    rw [visits_eq]
    cases e with
    | boolOp line op values =>
      simp only [opens, closes, List.nil_append, List.append_nil]
      cases dest with
      | push =>
        rw [Expr.lower]
        refine .atLine (.guard fun _ => ?_) line
        exact .step .newBlock fun done => (enters_operands _ done hpart).after fun _ =>
          .fallInto done
      | jump target sense =>
        have hrest (inner : BlockId) : Enters o p (visitsOf .evaluated values) (do
            Expr.lowerTests o.filename inner (decide (op = .or)) target sense values
            if inner ≠ target then fallInto inner) := by
          refine (enters_tests inner _ target sense hpart).after fun _ => ?_
          split
          · exact .fallInto inner
          · exact .pure ()
        rw [Expr.lower]
        refine .guard fun _ => ?_
        dsimp only
        split
        · exact .step (.pure target) hrest
        · exact .step .newBlock hrest
    | binOp line left op right =>
      have hleft := hpart left (by simp [partsIn, parts]) p .push
      have hright := hpart right (by simp [partsIn, parts]) p .push
      rw [Expr.lower]
      refine .deliver ?_ line dest
      exact (hleft.bind fun _ => hright.after fun _ => .emit _).of_eq
        (by simp [opens, closes, partsIn, parts])
    | unaryOp line op operand =>
      have hoperand := hpart operand (by simp [partsIn, parts]) p
      have hcount : opens (.unaryOp line op operand) ++
          visitsOf .evaluated (partsIn .evaluated (.unaryOp line op operand)) ++
            closes (.unaryOp line op operand) = operand.visits .evaluated := by
        simp [opens, closes, partsIn, parts]
      have hvalue : Enters o p (operand.visits .evaluated) (do
          operand.lower o.filename .push
          emit op.opcode) :=
        (hoperand .push).after fun _ => .emit _
      rw [hcount]
      by_cases hnot : op = .not ∧ ∃ target sense, dest = .jump target sense
      · obtain ⟨rfl, target, sense, rfl⟩ := hnot
        rw [Expr.lower]
        exact hoperand _
      · rw [Expr.lower]
        · exact hvalue.deliver line dest
        · rintro target sense rfl rfl
          exact hnot ⟨rfl, target, sense, rfl⟩
    | lambda line args body =>
      rw [Expr.lower]
      refine .deliver ?_ line dest
      exact (enters_defaults hpart).bind fun parts =>
        (enters_inScope (.lambda body) "<lambda>" line).after fun code => .makeClosure _ _ _
    | ifExp line test body orelse =>
      have htest := hpart test (by simp [partsIn, Reading.swap]) p
      have hbody := hpart body (by simp [partsIn, Reading.swap]) p
      have horelse := hpart orelse (by simp [partsIn]) p
      simp only [opens, closes, partsIn, Reading.swap, List.cons_append, List.nil_append,
        List.append_nil, visitsOf_cons, visitsOf_nil]
      cases dest with
      | push =>
        rw [Expr.lower]
        refine .atLine ?_ line
        exact .step .newBlock fun done => .step .newBlock fun next =>
          (htest _).bind fun _ => (hbody _).bind fun _ => .step (.emitJump _ done) fun _ =>
            .step (.fallInto next) fun _ => (horelse _).after fun _ => .fallInto done
      | jump target sense =>
        rw [Expr.lower]
        exact .step .newBlock fun done => .step .newBlock fun next =>
          (htest _).bind fun _ => (hbody _).bind fun _ => .step (.emitJump _ done) fun _ =>
            .step (.fallInto next) fun _ => (horelse _).after fun _ => .fallInto done
    | dict line keys values =>
      have hentries : ∀ e ∈ entryParts ((keys.zip values).take maxMapEntries) ++
          entryParts ((keys.zip values).drop maxMapEntries), e.EntersOwn o := by
        rw [← entryParts_take_drop]
        exact hpart
      have hsplit : partsIn .evaluated (.dict line keys values) = entryParts (keys.zip values) := rfl
      rw [List.forall_mem_append] at hentries
      simp only [opens, closes, List.nil_append, List.append_nil]
      rw [hsplit, entryParts_take_drop maxMapEntries, visitsOf_append, Expr.lower]
      refine .deliver (.guard fun _ => ?_) line dest
      dsimp only
      rw [zipWith_dictEntry, dictDisplay, ← List.map_take, ← List.map_drop]
      exact (enters_buildMap hentries.1).bind fun _ => enters_extendMap hentries.2
    | set line elts =>
      rw [Expr.lower]
      refine .deliver ?_ line dest
      exact ((enters_all hpart).after fun _ => .emitArg _ _).of_eq (by simp [opens, closes])
    | listComp line elt gs =>
      cases gs with
      | nil =>
        rw [Expr.lower]
        exact (enters_fail _).deliver line dest
      | cons g gs =>
        obtain ⟨target, iter, filters⟩ := g
        have hiter := hpart iter (by simp [partsIn]) p .push
        rw [Expr.lower]
        refine .deliver ?_ line dest
        exact .of_eq ((enters_inScope (.comprehension target filters gs elt) "<listcomp>" line).bind
          fun code => .step (.makeClosure _ _ _) fun _ => hiter.after fun _ =>
            .bind (.emit _) fun _ => .emitArg _ _) (by simp [opens, closes, partsIn])
    | yield line value =>
      have hvalue : Enters o p (visitsOf .evaluated value.toList) (do
          Expr.lowerOrNone o.filename value
          emit .yieldValue) :=
        (enters_orNone hpart).after fun _ => .emit _
      rw [Expr.lower]
      refine .deliver (.of_eq (.step (.ask fun _ _ => rfl) fun _ => .guard fun _ => hvalue) ?_)
        line dest
      simp [opens, closes, partsIn, parts]
    | compare line left ops comparators =>
      have hleft := hpart left (by simp [partsIn]) p .push
      have hcs (e : Expr) (he : e ∈ comparators) := ih' e (by simp [operands, parts, he])
      simp only [opens, closes, partsIn, List.nil_append, List.append_nil, visitsOf_cons]
      rcases ops with _ | ⟨op, _ | ⟨op', ops⟩⟩
      · rw [Expr.lower]
        · exact .deliver (.guard fun _ => enters_fail _) line dest
        · simp
        · simp
      · by_cases hone : ∃ c, comparators = [c]
        · obtain ⟨c, rfl⟩ := hone
          rw [Expr.lower]
          refine .deliver ?_ line dest
          exact (hleft.bind fun _ => (hcs c (by simp) p .push).after fun _ =>
            .emitCompare op).of_eq (by simp)
        · rw [Expr.lower]
          · refine .deliver (.guard fun hlen => ?_) line dest
            exact absurd (List.length_eq_one_iff.mp (not_not.mp hlen).symm) hone
          · rintro _ c - hc
            exact hone ⟨c, hc⟩
          · simp
      · cases dest with
        | push =>
          have hops (cleanup : BlockId) (last : CmpOp) := enters_links (p := p) .jumpIfFalseOrPop
            cleanup last (op :: op' :: ops).dropLast hcs
          rw [List.length_dropLast] at hops
          rw [Expr.lower]
          · refine .deliver (.guard fun _ => ?_) line .push
            dsimp only
            cases (op :: op' :: ops).getLast? with
            | none => exact enters_fail _
            | some last =>
              exact hleft.bind fun _ => .step .newBlock fun cleanup =>
                (hops cleanup last).after fun _ =>
                  .chainEnd (.bind (.emit _) fun _ => .emit _) cleanup
          · simp
          · simp
        | jump target sense =>
          have hops (cleanup : BlockId) (last : CmpOp) := enters_links (p := p) .popJumpIfFalse
            cleanup last (op :: (op' :: ops).dropLast) hcs
          have hlength : (op :: (op' :: ops).dropLast).length = (op :: op' :: ops).length - 1 := by
            simp
          rw [hlength] at hops
          rw [Expr.lower]
          exact .guard fun _ => .step .newBlock fun cleanup => hleft.bind fun _ =>
            (hops cleanup _).after fun _ => .bind (.test _) fun _ =>
              .chainEnd (.chainFailed target sense) cleanup
    | call line func args keywords =>
      have hargs (e : Expr) (he : e ∈ args) := hpart e (by simp [partsIn, parts, he])
      have hks (k : Keyword) (hk : k ∈ keywords) : k.value.EntersOwn o := by
        refine hpart _ ?_
        simp only [partsIn, parts, List.mem_cons, List.mem_append, List.mem_map]
        exact .inr (.inr ⟨k, hk, rfl⟩)
      simp only [opens, closes, partsIn, parts, List.nil_append, List.append_nil, visitsOf_cons]
      by_cases hmethod : ∃ l object attr, func = .attribute l object attr .load ∧ keywords = []
      · obtain ⟨l, object, attr, rfl, rfl⟩ := hmethod
        have hfunc : Expr.attribute l object attr .load ∈
            operands (.call line (.attribute l object attr .load) args []) := by
          simp [operands, parts]
        have hmem : object ∈ operands (.attribute l object attr .load) := by simp [operands, parts]
        have hobject : object.EntersOwn o :=
          ih _ (Nat.lt_trans (sizeOf_lt_of_mem_operands hmem) (sizeOf_lt_of_mem_operands hfunc))
            object rfl
        rw [Expr.lower]
        refine .deliver ?_ line dest
        refine .of_eq ((hobject p .push).bind fun _ => .step (.emitName _ attr) fun _ =>
          (enters_all hargs).after fun _ => .emitArg _ _) ?_
        rw [visits_eq .evaluated (.attribute ..)]
        simp [opens, closes, partsIn, parts]
      · rw [Expr.lower]
        · refine .deliver ?_ line dest
          exact (hpart func (by simp [partsIn, parts]) p .push).bind fun _ =>
            enters_callWith 0 hargs hks
        · rintro l object attr rfl rfl
          exact hmethod ⟨l, object, attr, rfl, rfl⟩
    | constant line value =>
      rw [Expr.lower]
      exact .deliver (.of (.loadConst _)) line dest
    | «attribute» line object attr ctx =>
      have hobject := hpart object (by simp [partsIn, parts]) p .push
      rw [Expr.lower]
      refine .deliver ?_ line dest
      exact (hobject.after fun _ => .emitName _ attr).of_eq
        (by simp [opens, closes, partsIn, parts])
    | subscript line object index ctx =>
      have hobject := hpart object (by simp [partsIn, parts]) p .push
      have hindex := hpart index (by simp [partsIn, parts]) p .push
      rw [Expr.lower]
      refine .deliver ?_ line dest
      exact (hobject.bind fun _ => hindex.after fun _ => .emit _).of_eq
        (by simp [opens, closes, partsIn, parts])
    | slice line lower upper step =>
      have hlower := enters_orNone (p := p) (x := lower) fun e he =>
        hpart e (by simp_all [partsIn, parts])
      have hupper := enters_orNone (p := p) (x := upper) fun e he =>
        hpart e (by simp_all [partsIn, parts])
      cases step with
      | none =>
        rw [Expr.lower]
        refine .deliver ?_ line dest
        exact (hlower.bind fun _ => hupper.after fun _ => .emitArg _ _).of_eq
          (by simp [opens, closes, partsIn, parts])
      | some step =>
        have hstep := hpart step (by simp [partsIn, parts]) p .push
        rw [Expr.lower]
        refine .deliver ?_ line dest
        exact (hlower.bind fun _ => hupper.bind fun _ => hstep.after fun _ => .emitArg _ _).of_eq
          (by simp [opens, closes, partsIn, parts])
    | name line id ctx =>
      rw [Expr.lower]
      exact .deliver (.of (.accessName id ctx)) line dest
    | list line elts ctx =>
      rw [Expr.lower]
      refine .deliver ?_ line dest
      exact (enters_sequence _ ctx _ hpart).of_eq (by simp [opens, closes, partsIn, parts])
    | tuple line elts ctx =>
      rw [Expr.lower]
      refine .deliver ?_ line dest
      exact (enters_sequence _ ctx _ hpart).of_eq (by simp [opens, closes, partsIn, parts])

end Wordcode
