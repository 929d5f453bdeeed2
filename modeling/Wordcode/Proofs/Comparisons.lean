import Wordcode.Proofs.Visits

/-!
# Comparisons that do not match

A comparison needs an operator, and as many comparators as it has operators. As a value one that
does not is refused wherever it stands. As a condition this is not checked: a chain of two or more
operators that has a comparator is taken as far as both go, and the last operator is put before the
last comparator.
-/

set_option autoImplicit false

namespace Wordcode

open Build

/-- The build fails, whatever it starts from. -/
def Build.Refuses {α : Type} (b : Build α) : Prop := ∀ s, ∃ e s', b s = .error e s'

namespace Build.Refuses

variable {α β : Type} {b : Build α} {f : α → Build β}

theorem fail (fault : Fault) : Refuses (Build.fail fault : Build α) := fun s => ⟨_, s, rfl⟩

theorem head (h : b.Refuses) : (b >>= f).Refuses := by
  intro s
  obtain ⟨e, s', hb⟩ := h s
  refine ⟨e, s', ?_⟩
  change EStateM.bind b f s = _
  rw [EStateM.bind, hb]

theorem next (h : ∀ a, (f a).Refuses) : (b >>= f).Refuses := by
  intro s
  cases hb : b s with
  | ok a s' =>
    obtain ⟨e, s'', hf⟩ := h a s'
    refine ⟨e, s'', ?_⟩
    change EStateM.bind b f s = _
    rw [EStateM.bind, hb]
    exact hf
  | error e s' =>
    refine ⟨e, s', ?_⟩
    change EStateM.bind b f s = _
    rw [EStateM.bind, hb]

theorem guard {c : Prop} [Decidable c] {fault : Fault} {g : α → Build β} {b : Build β}
    (h : ¬ c → b.Refuses) : Refuses (if c then Build.fail fault >>= g else b) := by
  split
  · exact (fail fault).head
  · next hc => exact h hc

theorem throwIf {c : Prop} [Decidable c] {e : CompileError} {g : α → Build β} {b : Build β}
    (h : b.Refuses) : Refuses (if c then (throw e : Build α) >>= g else b) := by
  split
  · exact head fun s => ⟨e, s, rfl⟩
  · exact h

theorem atLine {b : Build Unit} (h : b.Refuses) (line : UInt32) :
    (Build.atLine line b).Refuses := by
  refine next fun saved => ?_
  dsimp only
  split
  · exact next fun _ => h.head
  · exact h.head

theorem deliver {b : Build Unit} (h : b.Refuses) (line : UInt32) (dest : Dest) :
    (Build.deliver line dest b).Refuses := (h.atLine line).head

end Build.Refuses

theorem mapM_eq_some_iff {α β : Type} {f : α → Option β} {xs : List α} {ys : List β} :
    xs.mapM f = some ys ↔ xs.map f = ys.map some := by
  induction xs generalizing ys with
  | nil => cases ys <;> simp
  | cons x xs ih =>
    rw [List.mapM_cons, List.map_cons]
    cases ys with
    | nil => cases f x <;> cases hxs : xs.mapM f <;> simp
    | cons y ys =>
      rw [List.map_cons, List.cons.injEq, ← ih]
      cases f x <;> cases hxs : xs.mapM f <;> simp

/-- How the value of an expression is used. -/
inductive Use where
  | value
  | condition

def Dest.use : Dest → Use
  | .push => .value
  | .jump .. => .condition

/-- The parts of an expression that are evaluated in the scope it stands in, with their use. The
parts of a condition may be conditions themselves. -/
def Expr.uses : Use → Expr → List (Use × Expr)
  | u, .boolOp _ _ values => values.map (u, ·)
  | .condition, .unaryOp _ .not operand => [(.condition, operand)]
  | u, .ifExp _ test body orelse => [(.condition, test), (u, body), (u, orelse)]
  | _, e => (e.partsIn .evaluated).map (.value, ·)

/-- An expression that is used in one way is, or is evaluated in the same scope as a part of, one
that is used in another. -/
inductive Expr.Within (e' : Expr) (u' : Use) : Expr → Use → Prop where
  | self : Within e' u' e' u'
  | part {e e₁ : Expr} {u u₁ : Use} (hmem : (u₁, e₁) ∈ e.uses u) (h : Within e' u' e₁ u₁) :
      Within e' u' e u

/-- The expression is refused where it is used so. -/
def Expr.Refused (filename : String) (u : Use) (e : Expr) : Prop :=
  ∀ dest : Dest, dest.use = u → (e.lower filename dest).Refuses

namespace Expr.Refused

variable {filename : String} {e : Expr}

theorem push (h : e.Refused filename .value) : (e.lower filename .push).Refuses := h .push rfl

theorem jump (h : e.Refused filename .condition) (target : BlockId) (sense : Bool) :
    (e.lower filename (.jump target sense)).Refuses := h (.jump target sense) rfl

theorem all (h : e.Refused filename .value) {es : List Expr} (he : e ∈ es) :
    (lowerAll filename es).Refuses := by
  induction es with
  | nil => cases he
  | cons e' es ih =>
    rw [lowerAll]
    rcases List.mem_cons.mp he with rfl | he
    · exact h.push.head
    · exact .next fun _ => ih he

theorem orNone (h : e.Refused filename .value) : (lowerOrNone filename (some e)).Refuses := by
  rw [lowerOrNone]
  exact h.push

theorem operands (h : e.Refused filename .value) {es : List Expr} (he : e ∈ es) (jump : Opcode)
    (done : BlockId) : (lowerOperands filename jump done es).Refuses := by
  induction es with
  | nil => cases he
  | cons e' es ih =>
    cases es with
    | nil =>
      obtain rfl := List.mem_singleton.mp he
      rw [lowerOperands]
      exact h.push
    | cons e'' es =>
      rw [lowerOperands]
      · rcases List.mem_cons.mp he with rfl | he
        · exact h.push.head
        · exact .next fun _ => .next fun _ => .next fun _ => ih he
      · simp

theorem tests (h : e.Refused filename .condition) {es : List Expr} (he : e ∈ es)
    (inner target : BlockId) (decisive sense : Bool) :
    (lowerTests filename inner decisive target sense es).Refuses := by
  induction es with
  | nil => cases he
  | cons e' es ih =>
    cases es with
    | nil =>
      obtain rfl := List.mem_singleton.mp he
      rw [lowerTests]
      exact h.jump target sense
    | cons e'' es =>
      rw [lowerTests]
      · rcases List.mem_cons.mp he with rfl | he
        · exact (h.jump inner decisive).head
        · exact .next fun _ => ih he
      · simp

/-- The comparators that are evaluated: as many as there are operators, and the last one. -/
theorem links (h : e.Refused filename .value) {es : List Expr} {ops : List CmpOp}
    (he : e ∈ es.dropLast.take ops.length ++ es.getLast?.toList) (jump : Opcode)
    (cleanup : BlockId) (last : CmpOp) :
    (lowerLinks filename jump cleanup last ops es).Refuses := by
  induction es generalizing ops with
  | nil => simp at he
  | cons e' es ih =>
    cases es with
    | nil =>
      obtain rfl : e = e' := by simpa using he
      rw [lowerLinks]
      exact h.push.head
    | cons e'' es =>
      cases ops with
      | nil =>
        rw [lowerLinks]
        · exact ih (by simpa using he)
        · simp
      | cons op ops =>
        rw [lowerLinks]
        · rw [List.dropLast_cons_cons, List.length_cons, List.take_succ_cons, List.cons_append,
            List.getLast?_cons_cons] at he
          rcases List.mem_cons.mp he with rfl | he
          · exact h.push.head
          · exact .next fun _ => .next fun _ => .next fun _ => .next fun _ => .next fun _ =>
              .next fun _ => ih he
        · simp

/-- Constants are not refused. -/
theorem constant?_eq_none (h : e.Refused filename .value) : e.constant? = none := by
  cases e with
  | constant line c =>
    obtain ⟨err, s', hrun⟩ := h.push ⟨.ofTable "" "" .module 0 0 false, 0⟩
    rw [lower] at hrun
    rcases of_bind_error hrun with hline | ⟨_, _, _, htest⟩
    · rcases of_bind_error hline with hask | ⟨saved, _, _, hbody⟩
      · cases hask
      · have hback {s s'} : (loadConst c >>= fun _ => setLine saved) s ≠ .error err s' := by
          intro hload
          rcases of_bind_error hload with hload | ⟨_, _, _, hset⟩
          · exact loadConst_ne_error hload
          · cases hset
        dsimp only at hbody
        split at hbody
        · rcases of_bind_error hbody with hset | ⟨_, _, _, hbody⟩
          · cases hset
          · exact (hback hbody).elim
        · exact (hback hbody).elim
    · cases htest
  | _ => rfl

section

variable {o : Options} {entries : List (Expr × Expr)} {p : Expr × Expr}

theorem either (h : p.1.Refused o.filename .value ∨ p.2.Refused o.filename .value)
    (hp : p ∈ entries) : (buildEntries (entries.map (dictEntry o))).Refuses := by
  induction entries with
  | nil => cases hp
  | cons q entries ih =>
    rcases List.mem_cons.mp hp with rfl | hp
    · rcases h with hkey | hvalue
      · exact hkey.push.head
      · exact .next fun _ => hvalue.push.head
    · exact .next fun _ => .next fun _ => ih hp

theorem values (h : p.2.Refused o.filename .value) (hp : p ∈ entries) :
    (buildValues (entries.map (dictEntry o))).Refuses := by
  induction entries with
  | nil => cases hp
  | cons q entries ih =>
    rcases List.mem_cons.mp hp with rfl | hp
    · exact h.push.head
    · exact .next fun _ => ih hp

theorem map (h : p.1.Refused o.filename .value ∨ p.2.Refused o.filename .value)
    (hp : p ∈ entries) : (buildMap (entries.map (dictEntry o))).Refuses := by
  unfold buildMap
  dsimp only
  split
  · next keys hkeys =>
    split
    · rcases h with hkey | hvalue
      · -- all keys are constant
        rw [List.mapM_map, mapM_eq_some_iff] at hkeys
        have hmem : none ∈ entries.map (DictEntry.constantKey ∘ dictEntry o) :=
          List.mem_map.mpr ⟨p, hp, hkey.constant?_eq_none⟩
        rw [hkeys] at hmem
        simp at hmem
      · exact (values hvalue hp).head
    · exact (either h hp).head
  · exact (either h hp).head

theorem extendMap (h : p.1.Refused o.filename .value ∨ p.2.Refused o.filename .value)
    (hp : p ∈ entries) : (Build.extendMap (entries.map (dictEntry o))).Refuses := by
  induction hn : entries.length using Nat.strongRecOn generalizing entries with
  | ind n ih =>
    have hne : entries ≠ [] := List.ne_nil_of_mem hp
    rw [Build.extendMap, if_neg (by simpa using hne), ← List.map_take, ← List.map_drop]
    rw [← List.take_append_drop maxMapEntries entries, List.mem_append] at hp
    rcases hp with hp | hp
    · exact (map h hp).head
    · refine .next fun _ => .next fun _ => ih _ ?_ hp rfl
      have := List.length_pos_iff.mpr hne
      rw [← hn, List.length_drop, maxMapEntries]
      omega

theorem display (h : p.1.Refused o.filename .value ∨ p.2.Refused o.filename .value)
    (hp : p ∈ entries) : (dictDisplay (entries.map (dictEntry o))).Refuses := by
  unfold dictDisplay
  rw [← List.map_take, ← List.map_drop]
  rw [← List.take_append_drop maxMapEntries entries, List.mem_append] at hp
  rcases hp with hp | hp
  · exact (map h hp).head
  · exact .next fun _ => extendMap h hp

theorem keywordValues (h : e.Refused filename .value) {ks : List Keyword}
    (he : e ∈ ks.map Keyword.value) : (Keyword.lowerValues filename ks).Refuses := by
  induction ks with
  | nil => cases he
  | cons k ks ih =>
    obtain ⟨name, value⟩ := k
    rw [Keyword.lowerValues]
    rcases List.mem_cons.mp he with rfl | he
    · exact h.push.head
    · exact .next fun _ => ih he

theorem call (h : e.Refused filename .value) {args : List Expr} {ks : List Keyword}
    (he : e ∈ args ++ ks.map Keyword.value) (extra count : Nat) :
    (callWith extra count (lowerAll filename args) (ks.map Keyword.name)
      (Keyword.lowerValues filename ks)).Refuses := by
  rcases List.mem_append.mp he with he | he
  · exact (h.all he).head
  · refine .next fun _ => ?_
    dsimp only
    split
    · next hnone =>
      obtain rfl : ks = [] := by simpa using hnone
      cases he
    · exact (h.keywordValues he).head

theorem kwDefaults (h : e.Refused filename .value) {ps : List Param} {es : List (Option Expr)}
    (he : e ∈ (ps.zip es).filterMap Prod.snd) : (lowerKwDefaults filename ps es).Refuses := by
  induction ps generalizing es with
  | nil => cases he
  | cons p ps ih =>
    match es with
    | [] => cases he
    | none :: es =>
      rw [lowerKwDefaults]
      exact ih (by simpa using he)
    | some e' :: es =>
      rw [lowerKwDefaults]
      rcases List.mem_cons.mp (show e ∈ e' :: (ps.zip es).filterMap Prod.snd by simpa using he)
        with rfl | he
      · exact h.push.head
      · exact .next fun _ => ih he

theorem defaults (h : e.Refused filename .value) {args : Arguments}
    (he : e ∈ args.defaults ++ args.kwDefaultValues) :
    (Arguments.lowerDefaults filename args).Refuses := by
  obtain ⟨posonly, params, vararg, kwonly, kwDefaults, kwarg, defaults⟩ := args
  rw [Arguments.lowerDefaults]
  rcases List.mem_append.mp he with he | he
  · have hne : defaults.isEmpty = false := by
      rw [List.isEmpty_eq_false_iff]
      exact List.ne_nil_of_mem he
    simp only [hne, Bool.not_false, if_true]
    exact (h.all he).head
  · have hrest {α : Type} (f : Unit → Build α) :
        (lowerKwDefaults filename kwonly kwDefaults >>= f).Refuses := (h.kwDefaults he).head
    dsimp only
    split
    · exact .next fun _ => .next fun _ => hrest _
    · exact hrest _

theorem sequence (h : e.Refused filename .value) {es : List Expr} (he : e ∈ es) (build : Opcode)
    (ctx : Ctx) (count : Nat) :
    (Build.sequence build ctx count (lowerAll filename es)).Refuses := by
  cases ctx with
  | load => exact (h.all he).head
  | store => exact .next fun _ => h.all he
  | del => exact h.all he

end

end Expr.Refused

namespace Expr.Refused

variable {filename : String} {e : Expr}

/-- An operand of a boolean operation is used as the operation is. -/
theorem boolOp {u : Use} (h : e.Refused filename u) {values : List Expr} (he : e ∈ values)
    (line : UInt32) (op : BoolOp) : (Expr.boolOp line op values).Refused filename u := by
  intro dest hu
  cases dest with
  | push =>
    subst hu
    rw [lower]
    exact (Build.Refuses.guard fun _ => .next fun _ => (h.operands he _ _).head).atLine line
  | jump target sense =>
    subst hu
    rw [lower]
    have htests (inner : BlockId) :
        (lowerTests filename inner (decide (op = .or)) target sense values >>= fun _ =>
          if inner ≠ target then fallInto inner else pure ()).Refuses :=
      (h.tests he _ _ _ _).head
    refine .guard fun _ => ?_
    dsimp only
    split
    · exact .next htests
    · exact .next htests

theorem not (h : e.Refused filename .condition) (line : UInt32) :
    (Expr.unaryOp line .not e).Refused filename .condition := by
  intro dest hu
  cases dest with
  | push => cases hu
  | jump target sense =>
    rw [lower]
    exact h.jump target _

theorem test (h : e.Refused filename .condition) (line : UInt32) (body orelse : Expr) (u : Use) :
    (Expr.ifExp line e body orelse).Refused filename u := by
  intro dest _
  cases dest with
  | push =>
    rw [lower]
    exact .atLine (.next fun _ => .next fun _ => (h.jump _ _).head) line
  | jump target sense =>
    rw [lower]
    exact .next fun _ => .next fun _ => (h.jump _ _).head

theorem branch {u : Use} (h : e.Refused filename u) (line : UInt32) {test body orelse : Expr}
    (he : e = body ∨ e = orelse) : (Expr.ifExp line test body orelse).Refused filename u := by
  intro dest hu
  have hbranches {done next : BlockId} {f : Unit → Build Unit} :
      (Expr.lower filename test (.jump next false) >>= fun _ =>
        body.lower filename dest >>= fun _ => emitJump .jumpForward done >>= fun _ =>
          fallInto next >>= fun _ => orelse.lower filename dest >>= f).Refuses := by
    rcases he with rfl | rfl
    · exact .next fun _ => (h dest hu).head
    · exact .next fun _ => .next fun _ => .next fun _ => .next fun _ => (h dest hu).head
  cases dest with
  | push =>
    rw [lower]
    exact .atLine (.next fun _ => .next fun _ => hbranches) line
  | jump target sense =>
    rw [lower]
    exact .next fun _ => .next fun _ => hbranches

/-- The operands of a comparison that are evaluated. -/
theorem chain (h : e.Refused filename .value) (line : UInt32) {left : Expr} {ops : List CmpOp}
    {comparators : List Expr}
    (he : e ∈ (Expr.compare line left ops comparators).partsIn .evaluated) (u : Use) :
    (Expr.compare line left ops comparators).Refused filename u := by
  intro dest _
  rw [partsIn, List.mem_cons] at he
  rcases ops with _ | ⟨op, _ | ⟨op', ops⟩⟩
  · rw [lower]
    · exact .deliver (.guard fun _ => .fail _) line dest
    · simp
    · simp
  · by_cases hone : ∃ c, comparators = [c]
    · obtain ⟨c, rfl⟩ := hone
      rw [lower]
      refine Build.Refuses.deliver ?_ line dest
      rcases he with rfl | he
      · exact h.push.head
      · obtain rfl : e = c := by simpa using he
        exact .next fun _ => h.push.head
    · rw [lower]
      · refine Build.Refuses.deliver (.guard fun hlen => ?_) line dest
        exact absurd (List.length_eq_one_iff.mp (not_not.mp hlen).symm) hone
      · rintro _ c - hc
        exact hone ⟨c, hc⟩
      · simp
  · cases dest with
    | push =>
      rw [lower]
      · refine Build.Refuses.deliver (.guard fun _ => ?_) line .push
        dsimp only
        cases (op :: op' :: ops).getLast? with
        | none => exact .fail _
        | some last =>
          rcases he with rfl | he
          · exact h.push.head
          · refine .next fun _ => .next fun cleanup => (h.links ?_ _ _ _).head
            rwa [List.length_dropLast]
      · simp
      · simp
    | jump target sense =>
      rw [lower]
      refine .guard fun _ => .next fun cleanup => ?_
      rcases he with rfl | he
      · exact h.push.head
      · refine .next fun _ => (h.links ?_ _ _ _).head
        rwa [List.length_cons, List.length_dropLast]

theorem called (h : e.Refused filename .value) (line : UInt32) {func : Expr} {args : List Expr}
    {keywords : List Keyword} (he : e ∈ func :: (args ++ keywords.map Keyword.value)) (u : Use)
    (hobject : ∀ l object attr, e = .attribute l object attr .load →
      object.Refused filename .value) :
    (Expr.call line func args keywords).Refused filename u := by
  intro dest _
  rw [List.mem_cons] at he
  by_cases hmethod : ∃ l object attr, func = .attribute l object attr .load ∧ keywords = []
  · obtain ⟨l, object, attr, rfl, rfl⟩ := hmethod
    rw [lower]
    refine Build.Refuses.deliver ?_ line dest
    rcases he with rfl | he
    · exact (hobject l object attr rfl).push.head
    · exact .next fun _ => .next fun _ => (h.all (by simpa using he)).head
  · rw [lower]
    · refine Build.Refuses.deliver ?_ line dest
      rcases he with rfl | he
      · exact h.push.head
      · exact .next fun _ => h.call he 0 _
    · rintro l object attr rfl rfl
      exact hmethod ⟨l, object, attr, rfl, rfl⟩

theorem bound (h : e.Refused filename .value) (line : UInt32) {low high step : Option Expr}
    (he : e ∈ (Expr.slice line low high step).partsIn .evaluated) (u : Use) :
    (Expr.slice line low high step).Refused filename u := by
  intro dest _
  simp only [partsIn, parts, List.mem_append, Option.mem_toList] at he
  cases step with
  | none =>
    rw [lower]
    refine Build.Refuses.deliver ?_ line dest
    rcases he with (rfl | rfl) | he
    · exact h.orNone.head
    · exact .next fun _ => h.orNone.head
    · cases he
  | some step =>
    rw [lower]
    refine Build.Refuses.deliver ?_ line dest
    rcases he with (rfl | rfl) | he
    · exact h.orNone.head
    · exact .next fun _ => h.orNone.head
    · cases he
      exact .next fun _ => .next fun _ => h.push.head

end Expr.Refused

/-- What has a part that is refused is refused. A method is called without reading the attribute
first, so of an attribute that is refused the object has to be. -/
theorem Expr.Refused.of_uses {filename : String} {e e₁ : Expr} {u u₁ : Use}
    (h : e₁.Refused filename u₁)
    (hobject : ∀ l object attr, e₁ = .attribute l object attr .load →
      object.Refused filename .value)
    (hmem : (u₁, e₁) ∈ e.uses u) : e.Refused filename u := by
  have hvalue (hparts : e.uses u = (e.partsIn .evaluated).map (.value, ·)) :
      e₁.Refused filename .value ∧ e₁ ∈ e.partsIn .evaluated := by
    rw [hparts] at hmem
    obtain ⟨_, he, heq⟩ := List.mem_map.mp hmem
    cases heq
    exact ⟨h, he⟩
  cases e with
  | boolOp line op values =>
    obtain ⟨_, he, heq⟩ := List.mem_map.mp hmem
    cases heq
    exact h.boolOp he line op
  | ifExp line test body orelse =>
    simp only [uses, List.mem_cons, Prod.mk.injEq, List.not_mem_nil, or_false] at hmem
    rcases hmem with ⟨rfl, rfl⟩ | ⟨rfl, rfl⟩ | ⟨rfl, rfl⟩
    · exact h.test line body orelse u
    · exact h.branch line (.inl rfl)
    · exact h.branch line (.inr rfl)
  | binOp line left op right =>
    obtain ⟨h, he⟩ := hvalue (by cases u <;> rfl)
    intro dest _
    rw [lower]
    refine Build.Refuses.deliver ?_ line dest
    simp only [partsIn, parts, List.mem_cons, List.not_mem_nil, or_false] at he
    rcases he with rfl | rfl
    · exact h.push.head
    · exact .next fun _ => h.push.head
  | unaryOp line op operand =>
    have hother (hu : u = .value ∨ op ≠ .not) :
        (Expr.unaryOp line op operand).Refused filename u := by
      obtain ⟨h, he⟩ := hvalue (by cases u <;> cases op <;> simp_all [uses])
      obtain rfl := List.mem_singleton.mp he
      intro dest hdest
      rw [lower]
      · exact h.push.head.deliver line dest
      · rintro target sense rfl rfl
        subst hdest
        simp [Dest.use] at hu
    cases u with
    | value => exact hother (.inl rfl)
    | condition =>
      by_cases hop : op = .not
      · subst hop
        cases List.mem_singleton.mp hmem
        exact h.not line
      · exact hother (.inr hop)
  | lambda line args body =>
    obtain ⟨h, he⟩ := hvalue (by cases u <;> rfl)
    intro dest _
    rw [lower]
    exact (h.defaults he).head.deliver line dest
  | dict line keys values =>
    obtain ⟨h, he⟩ := hvalue (by cases u <;> rfl)
    obtain ⟨p, hp, he⟩ := List.mem_flatMap.mp he
    have hentry : p.1.Refused filename .value ∨ p.2.Refused filename .value := by
      simp only [List.mem_cons, List.not_mem_nil, or_false] at he
      rcases he with rfl | rfl
      · exact .inl h
      · exact .inr h
    intro dest _
    rw [lower]
    refine Build.Refuses.deliver (.guard fun _ => ?_) line dest
    dsimp only
    rw [zipWith_dictEntry (o := ⟨filename, 0⟩)]
    exact display hentry hp
  | set line elts =>
    obtain ⟨h, he⟩ := hvalue (by cases u <;> rfl)
    intro dest _
    rw [lower]
    exact (h.all he).head.deliver line dest
  | listComp line elt generators =>
    obtain ⟨h, he⟩ := hvalue (by cases u <;> rfl)
    intro dest _
    cases generators with
    | nil => cases he
    | cons g rest =>
      obtain ⟨target, iter, filters⟩ := g
      obtain rfl := List.mem_singleton.mp he
      rw [lower]
      exact (Build.Refuses.next fun _ => .next fun _ => h.push.head).deliver line dest
  | yield line value =>
    obtain ⟨h, he⟩ := hvalue (by cases u <;> rfl)
    obtain rfl := Option.mem_toList.mp he
    intro dest _
    rw [lower]
    refine Build.Refuses.deliver (.next fun inside => ?_) line dest
    exact .throwIf h.orNone.head
  | compare line left ops comparators =>
    obtain ⟨h, he⟩ := hvalue (by cases u <;> rfl)
    exact h.chain line he u
  | call line func args keywords =>
    obtain ⟨h, he⟩ := hvalue (by cases u <;> rfl)
    exact h.called line he u hobject
  | constant | name =>
    obtain ⟨_, he⟩ := hvalue (by cases u <;> rfl)
    cases he
  | «attribute» line object attr ctx =>
    obtain ⟨h, he⟩ := hvalue (by cases u <;> rfl)
    obtain rfl := List.mem_singleton.mp he
    intro dest _
    rw [lower]
    exact h.push.head.deliver line dest
  | subscript line object index ctx =>
    obtain ⟨h, he⟩ := hvalue (by cases u <;> rfl)
    intro dest _
    rw [lower]
    refine Build.Refuses.deliver ?_ line dest
    simp only [partsIn, parts, List.mem_cons, List.not_mem_nil, or_false] at he
    rcases he with rfl | rfl
    · exact h.push.head
    · exact .next fun _ => h.push.head
  | slice line lower upper step =>
    obtain ⟨h, he⟩ := hvalue (by cases u <;> rfl)
    exact h.bound line he u
  | list line elts ctx =>
    obtain ⟨h, he⟩ := hvalue (by cases u <;> rfl)
    intro dest _
    rw [lower]
    exact (h.sequence he _ ctx _).deliver line dest
  | tuple line elts ctx =>
    obtain ⟨h, he⟩ := hvalue (by cases u <;> rfl)
    intro dest _
    rw [lower]
    exact (h.sequence he _ ctx _).deliver line dest

/-- The numbers of operators and comparators are not those of a comparison. -/
def Mismatched (ops : List CmpOp) (comparators : List Expr) : Prop :=
  ops = [] ∨ ops.length ≠ comparators.length

instance (ops : List CmpOp) (comparators : List Expr) : Decidable (Mismatched ops comparators) :=
  inferInstanceAs (Decidable (_ ∨ _))

/-- A mismatch is looked for: always for a value, for a condition only where there is no chain. -/
def Use.Checks (u : Use) (ops : List CmpOp) (comparators : List Expr) : Prop :=
  u = .value ∨ ops.length ≤ 1 ∨ comparators = []

theorem Expr.refused_of_mismatched {filename : String} {u : Use} {line : UInt32} {left : Expr}
    {ops : List CmpOp} {comparators : List Expr} (h : Mismatched ops comparators)
    (hu : u.Checks ops comparators) :
    (Expr.compare line left ops comparators).Refused filename u := by
  intro dest hdest
  rcases ops with _ | ⟨op, _ | ⟨op', ops⟩⟩
  · rw [lower]
    · exact .deliver (.guard fun _ => .fail _) line dest
    · simp
    · simp
  · have hlen : [op].length ≠ comparators.length := h.resolve_left (List.cons_ne_nil _ _)
    rw [lower]
    · exact .deliver (.guard fun hsame => (hsame hlen).elim) line dest
    · rintro _ c - rfl
      exact hlen rfl
    · simp
  · have hlen : (op :: op' :: ops).length ≠ comparators.length :=
      h.resolve_left (List.cons_ne_nil _ _)
    cases dest with
    | push =>
      rw [lower]
      · exact .deliver (.guard fun hsame => (hsame hlen).elim) line .push
      · simp
      · simp
    | jump target sense =>
      obtain rfl : comparators = [] := by
        rcases hu with rfl | hone | hnil
        · cases hdest
        · simp at hone
        · exact hnil
      rw [lower]
      exact .guard fun hsome => (hsome rfl).elim

theorem Expr.refused_of_within {filename : String} {u' : Use} {line : UInt32} {left : Expr}
    {ops : List CmpOp} {comparators : List Expr} (h : Mismatched ops comparators)
    (hu : u'.Checks ops comparators) {e : Expr} {u : Use}
    (hin : (Expr.compare line left ops comparators).Within u' e u) :
    e.Refused filename u ∧ ∀ l object attr, e = .attribute l object attr .load →
      object.Refused filename .value := by
  induction hin with
  | self => exact ⟨refused_of_mismatched h hu, nofun⟩
  | @part e e₁ u u₁ hmem _ ih =>
    refine ⟨ih.1.of_uses ih.2 hmem, ?_⟩
    rintro l object attr rfl
    obtain ⟨rfl, rfl⟩ : u₁ = .value ∧ e₁ = object := by
      cases u <;> simpa [uses, partsIn, parts] using hmem
    exact ih.1

/-- At most `n` of the elements, of which the last one stays. -/
def cutTo {α : Type} (n : Nat) (xs : List α) : List α :=
  xs.dropLast.take (n - 1) ++ xs.getLast?.toList

theorem Expr.lowerLinks_cut (filename : String) (jump : Opcode) (cleanup : BlockId) (last : CmpOp)
    (ops : List CmpOp) (es : List Expr) :
    lowerLinks filename jump cleanup last ops es =
      lowerLinks filename jump cleanup last (ops.take (es.length - 1))
        (cutTo (ops.length + 1) es) := by
  induction es generalizing ops with
  | nil => cases ops <;> rfl
  | cons e es ih =>
    cases es with
    | nil => cases ops <;> rfl
    | cons e' es =>
      cases ops with
      | nil =>
        rw [lowerLinks, ih]
        · simp [cutTo]
        · simp
      | cons op ops =>
        have hcut : cutTo ((op :: ops).length + 1) (e :: e' :: es) =
            e :: cutTo (ops.length + 1) (e' :: es) := by
          simp [cutTo]
        rw [hcut, List.length_cons, Nat.add_sub_cancel, List.length_cons, List.take_succ_cons,
          lowerLinks, lowerLinks, ih]
        · simp
        · simp [cutTo]
        · simp

/-- The code of a chain of two or more operators as a condition. -/
theorem Expr.lower_chain (filename : String) (line : UInt32) (left : Expr) {ops : List CmpOp}
    {last : CmpOp} (comparators : List Expr) (target : BlockId) (sense : Bool) (hops : ops ≠ []) :
    (Expr.compare line left (ops ++ [last]) comparators).lower filename (.jump target sense) = (do
      if comparators.isEmpty then Build.fail (.noOperands "comparison")
      let cleanup ← newBlock
      Expr.lower filename left .push
      lowerLinks filename .popJumpIfFalse cleanup last ops comparators
      Build.test (.jump target sense)
      chainEnd cleanup do
        emit .popTop
        if !sense then emitJump .jumpForward target) := by
  obtain ⟨op, ops, rfl⟩ := List.exists_cons_of_ne_nil hops
  obtain ⟨op', ops', htail⟩ := List.exists_cons_of_ne_nil
    (List.append_ne_nil_of_right_ne_nil ops (List.cons_ne_nil last []))
  have hlast : (op' :: ops').getLast (List.cons_ne_nil _ _) = last := by simp [← htail]
  have hinit : (op' :: ops').dropLast = ops := by simp [← htail]
  rw [List.cons_append, htail, lower, hlast, hinit]

/-- As a condition a chain is taken as far as both its operators and its comparators go. -/
theorem Expr.lower_cut (filename : String) (line : UInt32) (left : Expr) {ops : List CmpOp}
    {comparators : List Expr} (target : BlockId) (sense : Bool) (hops : 2 ≤ ops.length)
    (hcomparators : 2 ≤ comparators.length) :
    (Expr.compare line left ops comparators).lower filename (.jump target sense) =
      (Expr.compare line left (cutTo comparators.length ops) (cutTo ops.length comparators)).lower
        filename (.jump target sense) := by
  obtain ⟨ops, last, rfl⟩ : ∃ init last, ops = init ++ [last] :=
    ⟨_, _, (List.dropLast_append_getLast (List.ne_nil_of_length_pos (by omega))).symm⟩
  have hne : ops ≠ [] := by
    rintro rfl
    simp at hops
  have hcut : cutTo comparators.length (ops ++ [last]) =
      ops.take (comparators.length - 1) ++ [last] := by simp [cutTo]
  have htake : ops.take (comparators.length - 1) ≠ [] := by
    rw [Ne, List.take_eq_nil_iff]
    rintro (h | h)
    · omega
    · exact hne h
  have hsome {n : Nat} : (cutTo n comparators).isEmpty = comparators.isEmpty := by
    cases comparators with
    | nil => simp [cutTo]
    | cons e es => simp [cutTo]
  have hlinks (cleanup : BlockId) :=
    lowerLinks_cut filename .popJumpIfFalse cleanup last ops comparators
  rw [lower_chain filename line left _ _ _ hne, hcut, lower_chain filename line left _ _ _ htake]
  simp only [hlinks, hsome, List.length_append, List.length_singleton]

theorem length_cutTo {α : Type} {n : Nat} {xs : List α} (hn : n ≠ 0) (hxs : xs ≠ []) :
    (cutTo n xs).length = min n xs.length := by
  have := List.length_pos_iff.mpr hxs
  rw [cutTo, List.getLast?_eq_some_getLast hxs, Option.toList_some, List.length_append,
    List.length_take, List.length_dropLast, List.length_singleton]
  omega

/-- Wherever a comparison stands that does not match, the expression is refused if it is a value
there, or is not a chain or has no comparator. As a condition, a chain with two comparators or more
is not refused for it: it has the code of the comparison that is left when both operators and
comparators are cut to the same number. -/
theorem mismatched_comparison (filename : String) {line : UInt32} {left : Expr} {ops : List CmpOp}
    {comparators : List Expr} (h : Mismatched ops comparators) :
    (∀ (e : Expr) (dest : Dest) (u : Use), u.Checks ops comparators →
      (Expr.compare line left ops comparators).Within u e dest.use →
        (e.lower filename dest).Refuses) ∧
      (2 ≤ ops.length → 2 ≤ comparators.length →
        (cutTo comparators.length ops).length = (cutTo ops.length comparators).length ∧
        ∀ target sense,
          (Expr.compare line left ops comparators).lower filename (.jump target sense) =
            (Expr.compare line left (cutTo comparators.length ops)
              (cutTo ops.length comparators)).lower filename (.jump target sense)) := by
  refine ⟨fun e dest u hu hin => (Expr.refused_of_within h hu hin).1 dest rfl,
    fun hops hcs => ⟨?_, ?_⟩⟩
  · rw [length_cutTo (by omega) (List.ne_nil_of_length_pos (by omega)),
      length_cutTo (by omega) (List.ne_nil_of_length_pos (by omega)), Nat.min_comm]
  · exact fun target sense => Expr.lower_cut filename line left target sense hops hcs

/-- The names `b` and `c`. -/
def twoNames : List Expr := [.name 1 "b" .load, .name 1 "c" .load]

/-- The comparison `a < b > c` with one more operator behind the last comparator. -/
def danglingChain : Expr := .compare 1 (.name 1 "a" .load) [.lt, .gt, .eq] twoNames

/-- A sum is refused that has the chain as an operand, also as a condition. The chain itself is not:
it is compiled as `a < b == c`. -/
theorem danglingChain_refused : ∃ (ops : List CmpOp) (e : Expr) (u : Use),
    Mismatched ops twoNames ∧ u.Checks ops twoNames ∧
      e = .binOp 1 danglingChain .add danglingChain ∧ danglingChain.Within u e .condition ∧
      (e.lower "" (.jump 0 true)).Refuses ∧
      danglingChain.lower "" (.jump 0 true) =
        (Expr.compare 1 (.name 1 "a" .load) [.lt, .eq] twoNames).lower "" (.jump 0 true) := by
  have h : Mismatched [.lt, .gt, .eq] twoNames := .inr (by decide)
  have hin : danglingChain.Within .value (.binOp 1 danglingChain .add danglingChain) .condition :=
    .part List.mem_cons_self .self
  exact ⟨_, _, _, h, .inl rfl, rfl, hin,
    (mismatched_comparison "" h).1 _ (.jump 0 true) .value (.inl rfl) hin,
    ((mismatched_comparison "" h).2 (by decide) (by decide)).2 0 true⟩

/-- The error that a computation ends with. -/
def failure? {ε α : Type} : Except ε α → Option ε
  | .ok _ => none
  | .error e => some e

theorem failure?_eq_some_iff {ε α : Type} {x : Except ε α} {e : ε} :
    failure? x = some e ↔ x = .error e := by
  cases x <;> simp [failure?]

/-- The table of a module with the three names. -/
def threeNamesTable : ScopeTable :=
  { ScopeTable.module with
    symbols := [("a", .globalImplicit), ("b", .globalImplicit), ("c", .globalImplicit)] }

/-- As the test of `if` the chain is compiled, as a statement it is refused. -/
theorem danglingChain_compiles : ∃ c,
    Mismatched [.lt, .gt, .eq] twoNames ∧
    danglingChain = .compare 1 (.name 1 "a" .load) [.lt, .gt, .eq] twoNames ∧
    compile (.module [.ifElse 1 danglingChain [.pass 2] []]) threeNamesTable {} = .ok c ∧
    compile (.module [.expr 1 danglingChain]) threeNamesTable {} =
      .error (.internal (.comparisonArity 3 2) (some "<module>") (some 1)) := by
  have hcode : (compile (.module [.ifElse 1 danglingChain [.pass 2] []])
      threeNamesTable {}).toOption.isSome = true := by
    decide +kernel
  have herror : failure? (compile (.module [.expr 1 danglingChain]) threeNamesTable {}) =
      some (.internal (.comparisonArity 3 2) (some "<module>") (some 1)) := by
    decide +kernel
  cases hok : compile (.module [.ifElse 1 danglingChain [.pass 2] []]) threeNamesTable {} with
  | error e =>
    rw [hok] at hcode
    cases hcode
  | ok c =>
    exact ⟨c, .inr (by decide), rfl, rfl, failure?_eq_some_iff.mp herror⟩

end Wordcode
