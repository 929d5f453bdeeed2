import Wordcode.Proofs.Labels
import Wordcode.Proofs.Typing

/-!
# Shapes of expressions

The code of an expression in context adds one value to the operand stack, takes one off or leaves
the stack as it was, and goes to a label with the shape it started from.
-/

set_option autoImplicit false

namespace Wordcode

open Step (value branch simple)
open Build

variable {K : CodeObject → Prop} {F M : Nat} {Γ : Shapes} {σ σ' : Shape}

/-- How many values an expression takes off the stack. -/
def Ctx.taken : Ctx → Nat
  | .store => 1
  | _ => 0

/-- How many values an expression puts on the stack. -/
def Ctx.given : Ctx → Nat
  | .load => 1
  | _ => 0

theorem types_value {e : Expr} (h : e.Fits K .load) (hM : σ.depth + e.need F ≤ M) :
    (value e).Types K F M Γ σ (σ.up 1) := Task.Types.load h hM

theorem types_all {es : List Expr} (h : ∀ e ∈ es, e.Fits K .load)
    (hM : σ.depth + rowNeed (Expr.needs F es) ≤ M) :
    (Step.run (.all es)).Types K F M Γ σ (σ.up es.length) := Task.Types.loads h hM

theorem types_build {op : Opcode} {n : Nat}
    (hop : op = .buildTuple ∨ op = .buildList ∨ op = .buildSet) (hM : σ.depth + 1 ≤ M) :
    (Step.emit op (UInt32.ofNat n)).Types K F M Γ (σ.up n) (σ.up 1) := by
  refine types_emit n 1 ?_ ?_ hM
  · rcases hop with rfl | rfl | rfl <;> rfl
  · rw [Opcode.effect_build _ _ hop]
    show Int32.ofNat 1 = Int32.ofNat n + (1 - Int32.ofNat n)
    grind

/-- The keys of a map as one constant. -/
theorem types_constKeys (n : Nat) (cs : List Constant) (hM : σ.depth + n + 1 ≤ M) :
    Types K F M Γ (σ.up n) [.load (.tuple cs), .emit .buildConstKeyMap (UInt32.ofNat n)] (σ.up 1) := by
  refine .cons (types_load (σ := σ.up n) rfl hM) (.cons ?_ .nil)
  refine types_emit (n + 1) 1 rfl ?_ (by omega)
  rw [Opcode.effect_takes _ _ (.inl rfl)]
  show Int32.ofNat 1 = Int32.ofNat (n + 1) + -Int32.ofNat n
  rw [word_add]
  grind

theorem length_kwDefaultValues (a : Arguments) :
    a.kwDefaultValues.length = a.kwDefaultNames.length := by
  unfold Arguments.kwDefaultValues Arguments.kwDefaultNames
  induction a.kwonly.zip a.kwDefaults with
  | nil => rfl
  | cons p ps ih =>
    obtain ⟨p, e⟩ := p
    cases e <;> simp [ih]

theorem Arguments.need_eq (a : Arguments) : a.need F =
    max (rowNeed (Expr.needs F a.defaults)) (rowNeed (Expr.needs F a.kwDefaultValues) + 2) := by
  cases a
  rw [Arguments.need, needsGiven_eq]
  rfl

theorem types_defaults {a : Arguments} (h : a.Fits K) (hM : σ.depth + a.need F ≤ M) :
    Types K F M Γ σ a.defaultSteps (σ.up a.parts.count) := by
  rw [Arguments.need_eq] at hM
  have hlen := length_kwDefaultValues a
  have hrow := length_le_rowNeed (Expr.needs F a.kwDefaultValues)
  rw [length_needs] at hrow
  have hvalues : ∀ e ∈ a.kwDefaultValues, e.Fits K .load := by
    intro e he
    obtain ⟨p, hp, hsome⟩ := List.mem_filterMap.mp he
    exact h.kwDefaults e (hsome ▸ (List.of_mem_zip hp).2)
  have hhead : Types K F M Γ σ (if a.defaults.isEmpty then []
      else [.run (.all a.defaults), .emit .buildTuple (UInt32.ofNat a.defaults.length)])
      (σ.up (!a.defaults.isEmpty).toNat) := by
    cases hempty : a.defaults.isEmpty with
    | true => exact .nil
    | false =>
      exact .cons (types_all h.defaults (by omega))
        (.cons (types_build (.inl rfl) (by omega)) .nil)
  have hp : (!a.defaults.isEmpty).toNat ≤ 1 := Bool.toNat_le _
  refine hhead.append (.cons (types_all hvalues ?_) ?_)
  · rw [Shape.depth_up]
    omega
  · cases hempty : a.kwDefaultNames.isEmpty with
    | true =>
      have hzero : a.kwDefaultValues.length = 0 := by
        rw [hlen, List.isEmpty_iff.mp hempty]
        rfl
      rw [hzero]
      have : a.parts.count = (!a.defaults.isEmpty).toNat := by
        simp [Arguments.parts, FunctionParts.count, hempty]
      rw [this]
      exact .nil
    | false =>
      have : a.parts.count = (!a.defaults.isEmpty).toNat + 1 := by
        simp [Arguments.parts, FunctionParts.count, hempty]
      rw [this, ← Shape.up_up, ← hlen]
      refine types_constKeys _ _ ?_
      rw [Shape.depth_up]
      omega

theorem types_call (extra : Nat) {args : List Expr} {keywords : List Keyword}
    (hargs : ∀ e ∈ args, e.Fits K .load) (hkeywords : ∀ k ∈ keywords, k.value.Fits K .load)
    (hM : σ.depth + extra + 1 + rowNeed (Expr.needs F args) ≤ M)
    (hM' : σ.depth + extra + 2 + args.length + rowNeed (Keyword.needs F keywords) ≤ M) :
    Types K F M Γ (σ.up (extra + 1)) (callSteps extra args keywords) (σ.up 1) := by
  rw [keywordNeeds_eq] at hM'
  have hrow := length_le_rowNeed (Expr.needs F (keywords.map Keyword.value))
  rw [length_needs, List.length_map] at hrow
  unfold callSteps
  refine .cons (types_all hargs (by rw [Shape.depth_up]; omega)) ?_
  rw [Shape.up_up]
  split
  · refine .cons (types_emit _ 1 rfl ?_ (by omega)) .nil
    rw [Opcode.effect_takes _ _ (.inr (.inr rfl))]
    show Int32.ofNat 1 = Int32.ofNat (extra + 1 + args.length) +
      -(Int32.ofNat extra + Int32.ofNat args.length)
    simp only [word_add]
    grind
  · refine .cons (types_all (by simpa using hkeywords) (by rw [Shape.depth_up]; omega)) ?_
    rw [Shape.up_up, List.length_map]
    refine .cons (types_load rfl (by rw [Shape.depth_up]; omega)) ?_
    rw [Shape.up_up]
    refine .cons (types_emit _ 1 rfl ?_ (by omega)) .nil
    rw [Opcode.effect_takes_one_more _ _ (.inr rfl)]
    show Int32.ofNat 1 = Int32.ofNat (extra + 1 + args.length + keywords.length + 1) +
      (-(Int32.ofNat extra + Int32.ofNat args.length + Int32.ofNat keywords.length) - 1)
    simp only [word_add]
    grind

theorem types_option {e : Option Expr} (h : ∀ a, e = some a → a.Fits K .load)
    (hM : σ.depth + Expr.needOrNone F e ≤ M) : Types K F M Γ σ (optionSteps e) (σ.up 1) := by
  cases e with
  | none => exact .cons (types_load rfl hM) .nil
  | some e => exact .cons (types_value (h e rfl) hM) .nil

theorem types_compare (op : CmpOp) (hM : σ.depth + 1 ≤ M) :
    (compareStep op).Types K F M Γ (σ.up 2) (σ.up 1) := by
  refine types_emit 2 1 ?_ ?_ hM
  · cases op <;> rfl
  · cases op <;> rfl

theorem types_sequence (line : UInt32) {build : Opcode} {ctx : Ctx} {elts : List Expr}
    (hbuild : build = .buildTuple ∨ build = .buildList) (h : ∀ e ∈ elts, e.Fits K ctx)
    (hM : σ.depth + (Expr.tuple line elts ctx).need F ≤ M) :
    Types K F M Γ (σ.up ctx.taken) (sequenceSteps build ctx elts) (σ.up ctx.given) := by
  cases ctx with
  | load =>
    simp only [Expr.need] at hM
    show Types K F M Γ σ _ (σ.up 1)
    exact .cons (types_all h (by omega)) (.cons (types_build (hbuild.imp_right .inl) (by omega)) .nil)
  | store =>
    simp only [Expr.need] at hM
    refine .cons (types_emit 1 elts.length rfl ?_ (by omega)) (.cons ?_ .nil)
    · rw [Opcode.effect_unpackSequence]
      show Int32.ofNat elts.length = Int32.ofNat 1 + (Int32.ofNat elts.length - 1)
      grind
    · show Task.Types K F M Γ _ _ σ
      exact .stores h (by omega)
  | del =>
    simp only [Expr.need] at hM
    exact .cons (Task.Types.dels h hM) .nil

theorem valueSteps_call (d : Draft) (line : UInt32) (func : Expr) (args : List Expr)
    (keywords : List Keyword) :
    (Expr.call line func args keywords).valueSteps d = value func :: callSteps 0 args keywords ∨
    ∃ l object attr, func = .attribute l object attr .load ∧ keywords = [] ∧
      (Expr.call line func args keywords).valueSteps d =
        [value object, .named .loadMethod attr, .run (.all args),
          .emit .callMethod (UInt32.ofNat args.length)] := by
  by_cases h : ∃ l object attr, func = .attribute l object attr .load ∧ keywords = []
  · obtain ⟨l, object, attr, rfl, rfl⟩ := h
    exact .inr ⟨l, object, attr, rfl, rfl, rfl⟩
  · left
    rw [Expr.valueSteps]
    intro l object attr hfunc hkeywords
    exact h ⟨l, object, attr, hfunc, hkeywords⟩

theorem mostNeed_le {ns : List Nat} {k : Nat} (h : ∀ n ∈ ns, n ≤ k) : mostNeed ns ≤ k := by
  induction ns with
  | nil => exact Nat.zero_le _
  | cons n ns ih =>
    exact Nat.max_le.mpr ⟨h n List.mem_cons_self, ih fun m hm => h m (List.mem_cons_of_mem _ hm)⟩

theorem rowNeed_entries {entries : List (Expr × Expr)} {k : Nat}
    (h : ∀ p ∈ entries, p.1.need F ≤ k ∧ p.2.need F ≤ k) :
    rowNeed (Expr.needs F (entries.flatMap fun p => [p.1, p.2])) ≤ 2 * entries.length + k := by
  have hmost : mostNeed (Expr.needs F (entries.flatMap fun p => [p.1, p.2])) ≤ k := by
    refine mostNeed_le fun n hn => ?_
    rw [needs_eq, List.mem_map] at hn
    obtain ⟨e, he, rfl⟩ := hn
    obtain ⟨p, hp, he⟩ := List.mem_flatMap.mp he
    simp only [List.mem_cons, List.not_mem_nil, or_false] at he
    rcases he with rfl | rfl
    · exact (h p hp).1
    · exact (h p hp).2
  have hrow := rowNeed_le (Expr.needs F (entries.flatMap fun p => [p.1, p.2]))
  have hlen : (entries.flatMap fun p => [p.1, p.2]).length = 2 * entries.length := by
    simp [List.length_flatMap, Nat.mul_comm]
  rw [length_needs, hlen] at hrow
  omega

theorem types_dict {line : UInt32} {keys values : List Expr} (hkeys : ∀ e ∈ keys, e.Fits K .load)
    (hvalues : ∀ e ∈ values, e.Fits K .load)
    (hM : σ.depth + (Expr.dict line keys values).need F ≤ M) :
    Types K F M Γ σ [.run (.map ((keys.zip values).take maxMapEntries)),
      .run (.extendMap ((keys.zip values).drop maxMapEntries))] (σ.up 1) := by
  rw [Expr.need] at hM
  have hfits : ∀ p ∈ keys.zip values, p.1.Fits K .load ∧ p.2.Fits K .load := fun p hp =>
    ⟨hkeys _ (List.of_mem_zip hp).1, hvalues _ (List.of_mem_zip hp).2⟩
  have hneed : ∀ p ∈ keys.zip values,
      p.1.need F ≤ max (mostNeed (Expr.needs F keys)) (mostNeed (Expr.needs F values)) ∧
      p.2.need F ≤ max (mostNeed (Expr.needs F keys)) (mostNeed (Expr.needs F values)) := by
    intro p hp
    have hk : p.1.need F ∈ Expr.needs F keys :=
      needs_eq F keys ▸ List.mem_map_of_mem (List.of_mem_zip hp).1
    have hv : p.2.need F ∈ Expr.needs F values :=
      needs_eq F values ▸ List.mem_map_of_mem (List.of_mem_zip hp).2
    exact ⟨Nat.le_trans (le_mostNeed hk) (Nat.le_max_left _ _),
      Nat.le_trans (le_mostNeed hv) (Nat.le_max_right _ _)⟩
  have hlen : ((keys.zip values).take maxMapEntries).length ≤ min keys.length maxMapEntries := by
    rw [List.length_take, List.length_zip]
    omega
  have hrow := rowNeed_entries fun p (hp : p ∈ (keys.zip values).take maxMapEntries) =>
    hneed p (List.mem_of_mem_take hp)
  refine .cons (Task.Types.map (fun p hp => hfits p (List.mem_of_mem_take hp)) (by omega))
    (.cons (Task.Types.extendMap (fun p hp => hfits p (List.mem_of_mem_drop hp))
      (fun p hp => hneed p (List.mem_of_mem_drop hp)) fun hne => ?_) .nil)
  have hmore : maxMapEntries < (keys.zip values).length := by
    by_contra hle
    exact hne (List.drop_eq_nil_of_le (by omega))
  rw [List.length_zip] at hmore
  omega

theorem types_lambda {line : UInt32} {args : Arguments} {body : Expr} {d : Draft}
    (hargs : args.Fits K) (hbody : body.Fits K .load)
    (hM : σ.depth + (Expr.lambda line args body).need F ≤ M) :
    Types K F M Γ σ ((Expr.lambda line args body).valueSteps d) (σ.up 1) := by
  rw [Expr.need] at hM
  have hcount : args.parts.count ≤ 2 := by
    simp only [Arguments.parts, FunctionParts.count]
    have := Bool.toNat_le (!args.defaults.isEmpty)
    have := Bool.toNat_le (!args.kwDefaultNames.isEmpty)
    simp only [Bool.toNat_false]
    omega
  refine (types_defaults hargs (by omega)).append (.cons ⟨?_, σ, rfl, rfl, ?_⟩ .nil)
  · exact ⟨hbody, by omega⟩
  · omega

theorem types_listComp {line : UInt32} {elt : Expr} {generators : List Generator} {d : Draft}
    (helt : elt.Fits K .load) (htargets : ∀ g ∈ generators, g.target.Fits K .store)
    (hiters : ∀ g ∈ generators, g.iter.Fits K .load)
    (hfilters : ∀ g ∈ generators, ∀ e ∈ g.filters, e.Fits K .load)
    (hM : σ.depth + (Expr.listComp line elt generators).need F ≤ M) :
    Types K F M Γ σ ((Expr.listComp line elt generators).valueSteps d) (σ.up 1) := by
  match generators with
  | [] => exact .cons types_refuse .nil
  | ⟨target, iter, filters⟩ :: rest =>
    have hiter : iter.Fits K .load := hiters _ List.mem_cons_self
    have htarget : target.Fits K .store := htargets _ List.mem_cons_self
    have hpos := htarget.need_pos (by decide) F
    simp only [Expr.need, Generator.need, Nat.reduceAdd] at hM
    refine .cons ⟨?_, σ, rfl, rfl, ?_⟩ (.cons (types_value (σ := σ.up 1) hiter ?_)
      (.cons (types_emit 2 2 rfl rfl ?_) (.cons (types_emit 2 1 rfl rfl ?_) .nil)))
    · refine ⟨htarget, hfilters _ List.mem_cons_self, helt,
        fun g hg => htargets g (List.mem_cons_of_mem _ hg),
        fun g hg => hiters g (List.mem_cons_of_mem _ hg),
        fun g hg => hfilters g (List.mem_cons_of_mem _ hg), ?_, ?_, ?_, ?_⟩ <;> omega
    · show σ.depth + 0 + max F 3 ≤ M
      omega
    · rw [Shape.depth_up]
      omega
    · omega
    · omega

theorem types_comparison {line : UInt32} {left : Expr} {ops : List CmpOp}
    {comparators : List Expr} {d : Draft} (hlen : ops.length = comparators.length)
    (hleft : left.Fits K .load) (hcomparators : ∀ e ∈ comparators, e.Fits K .load)
    (hM : σ.depth + (Expr.compare line left ops comparators).need F ≤ M) :
    Types K F M Γ σ ((Expr.compare line left ops comparators).valueSteps d) (σ.up 1) := by
  rw [Expr.need] at hM
  rcases ops with _ | ⟨op, _ | ⟨op', ops⟩⟩
  · exact .cons types_refuse .nil
  · obtain ⟨e, rfl⟩ := List.length_eq_one_iff.mp hlen.symm
    have hneed : e.need F ≤ mostNeed (Expr.needs F [e]) := le_mostNeed (by simp [needs_eq])
    exact .cons (types_value hleft (by omega))
      (.cons (types_value (hcomparators e (by simp)) (by rw [Shape.depth_up]; omega))
        (.cons (types_compare op (by omega)) .nil))
  · refine .cons (types_value hleft (by omega)) (.cons (Task.Types.chain ?_ hcomparators ?_) .nil)
    · simpa using hlen
    · omega

theorem types_callValue {line : UInt32} {func : Expr} {args : List Expr}
    {keywords : List Keyword} {d : Draft} (hfunc : func.Fits K .load)
    (hargs : ∀ e ∈ args, e.Fits K .load) (hkeywords : ∀ k ∈ keywords, k.value.Fits K .load)
    (hM : σ.depth + (Expr.call line func args keywords).need F ≤ M) :
    Types K F M Γ σ ((Expr.call line func args keywords).valueSteps d) (σ.up 1) := by
  rw [Expr.need] at hM
  rcases valueSteps_call d line func args keywords with h | ⟨l, object, attr, rfl, rfl, h⟩
  · rw [h]
    exact .cons (types_value hfunc (by omega))
      (types_call 0 hargs hkeywords (by omega) (by omega))
  · rw [h]
    cases hfunc with
    | «attribute» hobject =>
      simp only [Expr.need] at hM
      refine .cons (types_value hobject (by omega)) (.cons (types_named 1 2 rfl (fun _ => rfl) (by omega))
        (.cons (types_all hargs (by rw [Shape.depth_up]; omega)) (.cons ?_ .nil)))
      rw [Shape.up_up]
      refine types_emit _ 1 rfl ?_ (by omega)
      rw [Opcode.effect_takes_one_more _ _ (.inl rfl)]
      show Int32.ofNat 1 = Int32.ofNat (2 + args.length) + (-Int32.ofNat args.length - 1)
      rw [word_add]
      grind

theorem types_slice {line : UInt32} {lower upper step : Option Expr} {d : Draft}
    (hlower : ∀ e, lower = some e → e.Fits K .load) (hupper : ∀ e, upper = some e → e.Fits K .load)
    (hstep : ∀ e, step = some e → e.Fits K .load)
    (hM : σ.depth + (Expr.slice line lower upper step).need F ≤ M) :
    Types K F M Γ σ ((Expr.slice line lower upper step).valueSteps d) (σ.up 1) := by
  rw [Expr.need] at hM
  have hbounds : Types K F M Γ σ (optionSteps lower ++ optionSteps upper) (σ.up 2) :=
    (types_option hlower (by omega)).append
      (types_option (σ := σ.up 1) hupper (by rw [Shape.depth_up]; omega))
  cases step with
  | none => exact hbounds.append (.cons (types_emit 2 1 rfl rfl (by omega)) .nil)
  | some e =>
    rw [Expr.needOrNone] at hM
    exact hbounds.append (.cons (types_value (hstep e rfl) (by rw [Shape.depth_up]; omega))
      (.cons (types_emit 3 1 rfl rfl (by omega)) .nil))

/-- The value of an expression that makes no labels. -/
theorem types_valueSteps {e : Expr} {ctx : Ctx} (d : Draft) (h : e.Fits K ctx)
    (hM : σ.depth + e.need F ≤ M) :
    Types K F M Γ (σ.up ctx.taken) (e.valueSteps d) (σ.up ctx.given) := by
  cases h with
  | boolOp | ifExp => exact .cons types_refuse .nil
  | @binOp _ left right op hl hr =>
    show Types K F M Γ σ _ (σ.up 1)
    rw [Expr.need] at hM
    refine .cons (types_value hl (by omega))
      (.cons (types_value (σ := σ.up 1) hr (by rw [Shape.depth_up]; omega))
        (.cons (types_emit 2 1 ?_ ?_ (by omega)) .nil))
    · cases op <;> rfl
    · cases op <;> rfl
  | @unaryOp _ op operand ho =>
    show Types K F M Γ σ _ (σ.up 1)
    rw [Expr.need] at hM
    have hpos := ho.need_pos (by decide) F
    refine .cons (types_value ho hM) (.cons (types_emit 1 1 ?_ ?_ (by omega)) .nil)
    · cases op <;> rfl
    · cases op <;> rfl
  | lambda hdefaults hkw hbody => exact types_lambda ⟨hdefaults, hkw⟩ hbody hM
  | dict hkeys hvalues => exact types_dict hkeys hvalues hM
  | set helts =>
    show Types K F M Γ σ _ (σ.up 1)
    rw [Expr.need] at hM
    exact .cons (types_all helts (by omega)) (.cons (types_build (.inr (.inr rfl)) (by omega)) .nil)
  | listComp helt htargets hiters hfilters =>
    exact types_listComp helt htargets hiters hfilters hM
  | @yield _ e hv =>
    show Types K F M Γ σ _ (σ.up 1)
    have hpos := (.yield hv : (Expr.yield 0 _).Fits K .load).need_pos (by decide) F
    rw [Expr.need] at hM hpos
    exact (types_option hv hM).append (.cons (types_emit 1 1 rfl rfl (by omega)) .nil)
  | compare hlen hleft hcomps => exact types_comparison hlen hleft hcomps hM
  | call hf hargs hkw => exact types_callValue hf hargs hkw hM
  | constant hc => exact .cons ⟨fun k hk => .inl (hc k hk), rfl, hM⟩ .nil
  | @«attribute» _ object attr ctx ho =>
    have hpos := ho.need_pos (by decide) F
    cases ctx with
    | load =>
      show Types K F M Γ σ _ (σ.up 1)
      simp only [Expr.need] at hM
      exact .cons (types_value ho hM) (.cons (types_named 1 1 rfl (fun _ => rfl) (by omega)) .nil)
    | store =>
      show Types K F M Γ (σ.up 1) _ σ
      simp only [Expr.need] at hM
      exact .cons (types_value ho (by rw [Shape.depth_up]; omega))
        (.cons (types_named 2 0 rfl (fun _ => (by decide : Int32.ofNat 0 = Int32.ofNat 2 + -2))
          (by omega)) .nil)
    | del =>
      show Types K F M Γ σ _ σ
      simp only [Expr.need] at hM
      exact .cons (types_value ho hM)
        (.cons (types_named 1 0 rfl (fun _ => (by decide : Int32.ofNat 0 = Int32.ofNat 1 + -1))
          (by omega)) .nil)
  | @subscript _ object index ctx ho hi =>
    cases ctx with
    | load =>
      show Types K F M Γ σ _ (σ.up 1)
      simp only [Expr.need] at hM
      exact .cons (types_value ho (by omega)) (.cons (types_value hi (by rw [Shape.depth_up]; omega))
        (.cons (types_emit 2 1 rfl rfl (by omega)) .nil))
    | store =>
      show Types K F M Γ (σ.up 1) _ σ
      simp only [Expr.need] at hM
      exact .cons (types_value ho (by rw [Shape.depth_up]; omega))
        (.cons (types_value hi (by simp only [Shape.depth_up]; omega))
          (.cons (types_emit 3 0 rfl rfl (by omega)) .nil))
    | del =>
      show Types K F M Γ σ _ σ
      simp only [Expr.need] at hM
      exact .cons (types_value ho (by omega)) (.cons (types_value hi (by rw [Shape.depth_up]; omega))
        (.cons (types_emit 2 0 rfl rfl (by omega)) .nil))
  | slice hl hu hs => exact types_slice hl hu hs hM
  | @name _ id ctx =>
    cases ctx with
    | load => exact .cons (types_name_load d id hM) .nil
    | store => exact .cons (types_name_store d id (by omega)) .nil
    | del => exact .cons (types_name_del d id (Nat.le_of_add_right_le hM)) .nil
  | @list _ _ ctx helts =>
    refine types_sequence 0 (.inr rfl) helts ?_
    cases ctx <;> simpa only [Expr.need] using hM
  | tuple helts => exact types_sequence _ (.inl rfl) helts hM

/-- Shapes for labels numbered from `n` to before `m`. -/
structure Keyed (n m : Nat) (Δ : Shapes) : Prop where
  nodup : (Δ.map Prod.fst).Nodup
  range : ∀ p ∈ Δ, n ≤ p.1 ∧ p.1 < m

/-- Steps can be typed once the `k` labels they make from `n` on are given shapes. -/
def Expands (K : CodeObject → Prop) (F M : Nat) (Γ : Shapes) (n k : Nat) (σ : Shape)
    (steps : List Step) (σ' : Shape) : Prop :=
  ∃ Δ, Keyed n (n + k) Δ ∧ Types K F M (Δ ++ Γ) σ steps σ'

theorem Expands.of_types {n k : Nat} {steps : List Step} (h : Types K F M Γ σ steps σ') :
    Expands K F M Γ n k σ steps σ' :=
  ⟨[], ⟨List.nodup_nil, by simp⟩, h⟩

theorem keyed_one (n : Nat) (τ : Shape) : Keyed n (n + 1) [(n, τ)] :=
  ⟨List.nodup_singleton _, by simp⟩

theorem keyed_two (n : Nat) (τ τ' : Shape) : Keyed n (n + 2) [(n, τ), (n + 1, τ')] :=
  ⟨by simp, by simp⟩

theorem keyed_three (n : Nat) (τ τ' τ'' : Shape) :
    Keyed n (n + 3) [(n, τ), (n + 1, τ'), (n + 2, τ'')] :=
  ⟨by simp, by simp⟩

theorem keyed_four (n : Nat) (τ τ' τ'' υ : Shape) :
    Keyed n (n + 4) [(n, τ), (n + 1, τ'), (n + 2, τ''), (n + 3, υ)] :=
  ⟨by simp, by simp⟩

theorem types_branch_to {e : Expr} {target : BlockId} (sense : Bool) (h : e.Fits K .load)
    (hM : σ.depth + e.need F ≤ M) (ht : (target, σ) ∈ Γ) :
    (branch e target sense).Types K F M Γ σ σ := Task.Types.branch h hM ht

theorem types_block : (Step.run .block).Types K F M Γ σ σ := Task.Types.block

/-- The shape behind an expression that is read. -/
def Dest.after (σ : Shape) : Dest → Shape
  | .push => σ.up 1
  | .jump .. => σ

/-- The label that an expression may go to has the shape the expression starts with. -/
def Dest.Known (Γ : Shapes) (σ : Shape) : Dest → Prop
  | .push => True
  | .jump target _ => (target, σ) ∈ Γ

theorem Dest.Known.mono {Γ' : Shapes} {dest : Dest} (h : dest.Known Γ σ) (hsub : Γ ⊆ Γ') :
    dest.Known Γ' σ := by
  cases dest with
  | push => trivial
  | jump => exact hsub h

theorem types_read {e : Expr} {dest : Dest} (h : e.Fits K .load) (hM : σ.depth + e.need F ≤ M)
    (hdest : dest.Known Γ σ) : (Step.run (.expr e dest)).Types K F M Γ σ (dest.after σ) := by
  cases dest with
  | push => exact types_value h hM
  | jump target sense => exact types_branch_to sense h hM hdest

theorem types_popJump {target : BlockId} (sense : Bool) (ht : (target, σ) ∈ Γ)
    (hM : σ.depth ≤ M) : (Step.jump (popJumpOpcode sense) target).Types K F M Γ (σ.up 1) σ := by
  cases sense <;> exact types_branch 1 0 0 rfl ht rfl rfl hM

theorem types_test {dest : Dest} (hdest : dest.Known Γ σ) (hM : σ.depth ≤ M) :
    Types K F M Γ (σ.up 1) dest.testSteps (dest.after σ) := by
  cases dest with
  | push => exact .nil
  | jump target sense => exact .cons (types_popJump sense hdest hM) (.cons types_block .nil)

/-- An expression that is read. -/
theorem expands_read {e : Expr} (dest : Dest) (d : Draft) (n : Nat) (h : e.Fits K .load)
    (hM : σ.depth + e.need F ≤ M) (hdest : dest.Known Γ σ) :
    Expands K F M Γ n (e.labelCount dest) σ (e.steps d n dest) (dest.after σ) := by
  fun_cases Expr.steps d n e dest
  case case1 op values =>
    cases h with
    | boolOp hvalues =>
      rw [Expr.need] at hM
      refine ⟨[(n, σ.up 1)], keyed_one n _, .cons (Task.Types.operands ?_ hvalues (by omega)
        List.mem_cons_self) (.cons (types_label List.mem_cons_self) .nil)⟩
      cases op <;> simp [BoolOp.jumpOpcode]
  case case2 =>
    cases h with
    | boolOp hvalues =>
      rw [Expr.need] at hM
      exact .of_types (.cons (Task.Types.tests hvalues (by omega) hdest hdest) .nil)
  case case3 op values target sense decisive hsense =>
    cases h with
    | boolOp hvalues =>
      rw [Expr.need] at hM
      have hcount : (Expr.boolOp ‹_› op values).labelCount (.jump target sense) = 1 := if_neg hsense
      rw [hcount]
      refine ⟨[(n, σ)], keyed_one n _, .cons (Task.Types.tests hvalues (by omega)
        List.mem_cons_self (List.mem_cons_of_mem _ hdest)) ?_⟩
      split
      · exact .nil
      · exact .cons (types_label List.mem_cons_self) .nil
  case case4 operand target sense =>
    cases h with
    | unaryOp ho =>
      rw [Expr.need] at hM
      exact .of_types (.cons (types_branch_to _ ho hM hdest) .nil)
  case case5 test body orelse =>
    cases h with
    | ifExp ht hb ho =>
      rw [Expr.need] at hM
      have hknown := hdest.mono (List.subset_append_right [(n, dest.after σ), (n + 1, σ)] Γ)
      have hafter : (dest.after σ).depth ≤ M := by
        have := hb.need_pos (by decide) F
        cases dest
        · show σ.depth + 1 ≤ M
          omega
        · show σ.depth ≤ M
          omega
      exact ⟨[(n, dest.after σ), (n + 1, σ)], keyed_two n _ _,
        .cons (types_branch_to false ht (by omega) (by simp)) (.cons (types_read hb (by omega) hknown)
        (.cons (types_goto (.inl rfl) (by simp) hafter) (.cons (types_label (by simp))
        (.cons (types_read ho (by omega) hknown) (.cons (types_label (by simp)) .nil)))))⟩
  case case6 left op op' ops comparators target sense =>
    cases h with
    | compare hlen hleft hcomparators =>
      rw [Expr.need] at hM
      have hknown := hdest.mono (List.subset_append_right [(n, σ.up 1)] Γ)
      refine ⟨[(n, σ.up 1)], keyed_one n _, ?_⟩
      refine .append (.append (.cons (types_value hleft (by omega)) (.cons (Task.Types.links
        (.inr ⟨rfl, rfl⟩) ?_ hcomparators (by omega) List.mem_cons_self) .nil)) (types_test hknown (by omega)))
        (.cons (Task.Types.chainJump (σ := σ) (by omega) List.mem_cons_self hknown) .nil)
      simpa using hlen
  case case7 =>
    refine .of_types ((types_valueSteps d h hM).append (types_test hdest (by omega)))

/-- A target that is assigned or deleted makes no labels. -/
theorem steps_of_target {e : Expr} {ctx : Ctx} (h : e.Fits K ctx) (hctx : ctx ≠ .load) (d : Draft)
    (n : Nat) : e.steps d n .push = e.valueSteps d := by
  have hpush : e.valueSteps d ++ Dest.push.testSteps = e.valueSteps d := List.append_nil _
  cases h with
  | «attribute» | subscript | name | list | tuple => exact hpush
  | _ => exact absurd rfl hctx

theorem expands_target {e : Expr} {ctx : Ctx} (d : Draft) (n k : Nat) (h : e.Fits K ctx)
    (hctx : ctx ≠ .load) (hM : σ.depth + e.need F ≤ M) :
    Expands K F M Γ n k (σ.up ctx.taken) (e.steps d n .push) (σ.up ctx.given) := by
  rw [steps_of_target h hctx]
  exact .of_types (types_valueSteps d h hM)

section Lists

variable {o : Options} {d : Draft} {n : Nat}

theorem expands_loads {es : List Expr} (h : ∀ e ∈ es, e.Fits K .load)
    (hM : σ.depth + rowNeed (Expr.needs F es) ≤ M) :
    Types K F M Γ σ (Task.steps o d n (.all es)) (σ.up es.length) := by
  cases es with
  | nil => exact .nil
  | cons e es =>
    rw [Expr.needs, rowNeed] at hM
    refine .cons (types_value (h e List.mem_cons_self) (by omega)) (.cons ?_ .nil)
    rw [List.length_cons, Nat.add_comm, ← Shape.up_up]
    exact types_all (fun e' he' => h e' (List.mem_cons_of_mem _ he')) (by rw [Shape.depth_up]; omega)

theorem expands_stores {es : List Expr} (h : ∀ e ∈ es, e.Fits K .store)
    (hM : σ.depth + storeNeed (Expr.needs F es) ≤ M) :
    Types K F M Γ (σ.up es.length) (Task.steps o d n (.all es)) σ := by
  cases es with
  | nil => exact .nil
  | cons e es =>
    rw [Expr.needs, storeNeed, length_needs] at hM
    rw [List.length_cons, ← Shape.up_up]
    refine .cons (Task.Types.store (h e List.mem_cons_self) (by rw [Shape.depth_up]; omega)) (.cons ?_ .nil)
    exact Task.Types.stores (fun e' he' => h e' (List.mem_cons_of_mem _ he')) (by omega)

theorem expands_dels {es : List Expr} (h : ∀ e ∈ es, e.Fits K .del)
    (hM : σ.depth + mostNeed (Expr.needs F es) ≤ M) :
    Types K F M Γ σ (Task.steps o d n (.all es)) σ := by
  cases es with
  | nil => exact .nil
  | cons e es =>
    rw [Expr.needs, mostNeed] at hM
    refine .cons (Task.Types.del (h e List.mem_cons_self) (by omega)) (.cons ?_ .nil)
    exact Task.Types.dels (fun e' he' => h e' (List.mem_cons_of_mem _ he')) (by omega)

theorem expands_operands {jump : Opcode} {done : BlockId} {es : List Expr}
    (hjump : jump = .jumpIfTrueOrPop ∨ jump = .jumpIfFalseOrPop) (h : ∀ e ∈ es, e.Fits K .load)
    (hM : σ.depth + mostNeed (Expr.needs F es) ≤ M) (hdone : (done, σ.up 1) ∈ Γ) :
    Types K F M Γ σ (Task.steps o d n (.operands jump done es)) (σ.up 1) := by
  match es with
  | [] => exact .cons types_refuse .nil
  | [e] =>
    simp only [Expr.needs, mostNeed] at hM
    exact .cons (types_value (h e (by simp)) (by omega)) .nil
  | e :: e' :: es =>
    rw [Expr.needs, mostNeed] at hM
    have hpos := (h e List.mem_cons_self).need_pos (by decide) F
    refine .cons (types_value (h e List.mem_cons_self) (by omega)) (.cons (τ := σ) ?_
      (.cons types_block (.cons (Task.Types.operands hjump
        (fun e' he' => h e' (List.mem_cons_of_mem _ he')) (by omega) hdone) .nil)))
    rcases hjump with rfl | rfl <;>
      exact types_branch 1 1 0 rfl hdone rfl rfl (by show σ.depth + 1 ≤ M; omega)

theorem expands_tests {decided target : BlockId} {decisive sense : Bool} {es : List Expr}
    (h : ∀ e ∈ es, e.Fits K .load) (hM : σ.depth + mostNeed (Expr.needs F es) ≤ M)
    (hdecided : (decided, σ) ∈ Γ) (htarget : (target, σ) ∈ Γ) :
    Types K F M Γ σ (Task.steps o d n (.tests decided decisive target sense es)) σ := by
  match es with
  | [] => exact .cons types_refuse .nil
  | [e] =>
    simp only [Expr.needs, mostNeed] at hM
    exact .cons (types_branch_to sense (h e (by simp)) (by omega) htarget) .nil
  | e :: e' :: es =>
    rw [Expr.needs, mostNeed] at hM
    exact .cons (types_branch_to decisive (h e List.mem_cons_self) (by omega) hdecided)
      (.cons (Task.Types.tests (fun e' he' => h e' (List.mem_cons_of_mem _ he')) (by omega)
        hdecided htarget) .nil)

theorem expands_links {jump : Opcode} {cleanup : BlockId} {last : CmpOp} {ops : List CmpOp}
    {es : List Expr} {k : Nat}
    (hjump : (jump = .jumpIfFalseOrPop ∧ k = 2) ∨ (jump = .popJumpIfFalse ∧ k = 1))
    (hlen : ops.length + 1 = es.length) (h : ∀ e ∈ es, e.Fits K .load)
    (hM : σ.depth + max 3 (mostNeed (Expr.needs F es) + 1) ≤ M) (hb : (cleanup, σ.up k) ∈ Γ) :
    Types K F M Γ (σ.up 1) (Task.steps o d n (.links jump cleanup last ops es)) (σ.up 1) := by
  match ops, es, hlen with
  | [], [e], _ =>
    simp only [Expr.needs, mostNeed] at hM
    exact .cons (types_value (h e (by simp)) (by rw [Shape.depth_up]; omega))
      (.cons (types_compare last (by omega)) .nil)
  | op :: ops, e :: e' :: es, hlen =>
    rw [Expr.needs, mostNeed] at hM
    refine .cons (types_value (h e List.mem_cons_self) (by rw [Shape.depth_up]; omega))
      (.cons (types_emit 2 3 rfl rfl (by omega)) (.cons (types_emit 3 3 rfl rfl (by omega))
        (.cons (types_compare (σ := σ.up 1) op (by rw [Shape.depth_up]; omega)) (.cons (τ := σ.up 1) ?_
          (.cons types_block (.cons (Task.Types.links hjump (by simpa using hlen)
            (fun e' he' => h e' (List.mem_cons_of_mem _ he')) (by omega) hb) .nil))))))
    rcases hjump with ⟨rfl, rfl⟩ | ⟨rfl, rfl⟩
    · exact types_branch 2 2 1 rfl hb rfl rfl (by show σ.depth + 2 ≤ M; omega)
    · exact types_branch 2 1 1 rfl hb rfl rfl (by show σ.depth + 1 ≤ M; omega)

theorem expands_chain {last : CmpOp} {ops : List CmpOp} {es : List Expr}
    (hlen : ops.length + 1 = es.length) (h : ∀ e ∈ es, e.Fits K .load)
    (hM : σ.depth + max 3 (mostNeed (Expr.needs F es) + 1) ≤ M) :
    Expands K F M Γ n 1 (σ.up 1) (Task.steps o d n (.chain last ops es)) (σ.up 1) :=
  ⟨[(n, σ.up 2)], keyed_one n _,
    .cons (Task.Types.links (.inl ⟨rfl, rfl⟩) hlen h hM List.mem_cons_self)
      (.cons (Task.Types.chainPush (by omega) List.mem_cons_self) .nil)⟩

theorem expands_chainPush {cleanup : BlockId} (hM : σ.depth + 2 ≤ M)
    (hb : (cleanup, σ.up 2) ∈ Γ) :
    Expands K F M Γ n 1 (σ.up 1) (Task.steps o d n (.chainEnd cleanup .push)) (σ.up 1) :=
  ⟨[(n, σ.up 1)], keyed_one n _,
    .cons (types_goto (.inl rfl) List.mem_cons_self (by rw [Shape.depth_up]; omega))
      (.cons (types_label (List.mem_cons_of_mem _ hb)) (.cons (types_emit 2 2 rfl rfl (by omega))
        (.cons (types_emit 2 1 rfl rfl (by omega)) (.cons (types_label List.mem_cons_self) .nil))))⟩

theorem expands_chainJump {cleanup target : BlockId} {sense : Bool} (hM : σ.depth ≤ M)
    (hb : (cleanup, σ.up 1) ∈ Γ) (ht : (target, σ) ∈ Γ) :
    Expands K F M Γ n 1 σ (Task.steps o d n (.chainEnd cleanup (.jump target sense))) σ := by
  refine ⟨[(n, σ)], keyed_one n _, .cons (types_goto (.inl rfl) List.mem_cons_self hM)
    (.cons (types_label (List.mem_cons_of_mem _ hb)) (.append (τ := σ) ?_
      (.cons (types_label List.mem_cons_self) .nil)))⟩
  cases sense
  · exact .cons (types_emit 1 0 rfl rfl hM)
      (.cons (types_goto (.inl rfl) (List.mem_cons_of_mem _ ht) hM) .nil)
  · exact .cons (types_emit 1 0 rfl rfl hM) .nil

theorem expands_filters {cleanup : BlockId} {es : List Expr} (h : ∀ e ∈ es, e.Fits K .load)
    (hM : σ.depth + mostNeed (Expr.needs F es) ≤ M) (hb : (cleanup, σ) ∈ Γ) :
    Types K F M Γ σ (Task.steps o d n (.filters cleanup es)) σ := by
  cases es with
  | nil => exact .nil
  | cons e es =>
    rw [Expr.needs, mostNeed] at hM
    exact .cons (types_branch_to false (h e List.mem_cons_self) (by omega) hb)
      (.cons types_block (.cons (Task.Types.filters
        (fun e' he' => h e' (List.mem_cons_of_mem _ he')) (by omega) hb) .nil))

theorem expands_extendMap {entries : List (Expr × Expr)} {k : Nat}
    (h : ∀ p ∈ entries, p.1.Fits K .load ∧ p.2.Fits K .load)
    (hk : ∀ p ∈ entries, p.1.need F ≤ k ∧ p.2.need F ≤ k)
    (hM : entries ≠ [] → σ.depth + 2 * maxMapEntries + k + 2 ≤ M) :
    Types K F M Γ (σ.up 1) (Task.steps o d n (.extendMap entries)) (σ.up 1) := by
  cases entries with
  | nil => exact .nil
  | cons p ps =>
    have hM := hM (by simp)
    have hrow := rowNeed_entries fun q (hq : q ∈ (p :: ps).take maxMapEntries) =>
      hk q (List.mem_of_mem_take hq)
    have hlen : ((p :: ps).take maxMapEntries).length ≤ maxMapEntries := by
      rw [List.length_take]
      exact Nat.min_le_left _ _
    exact .cons (Task.Types.map (σ := σ.up 1) (fun q hq => h q (List.mem_of_mem_take hq))
      (by rw [Shape.depth_up]; omega)) (.cons (types_emit 2 1 rfl rfl (by omega))
        (.cons (Task.Types.extendMap (fun q hq => h q (List.mem_of_mem_drop hq))
          (fun q hq => hk q (List.mem_of_mem_drop hq)) fun _ => hM) .nil))

theorem expands_storeAll {targets : List Expr} (hne : targets ≠ [])
    (h : ∀ e ∈ targets, e.Fits K .store)
    (hM : σ.depth + mostNeed (Expr.needs F targets) + 1 ≤ M) :
    Types K F M Γ (σ.up 1) (Task.steps o d n (.storeAll targets)) σ := by
  match targets with
  | [] => exact absurd rfl hne
  | [t] =>
    simp only [Expr.needs, mostNeed] at hM
    exact .cons (Task.Types.store (h t (by simp)) (by omega)) .nil
  | t :: t' :: ts =>
    rw [Expr.needs, mostNeed] at hM
    have hpos := (h t List.mem_cons_self).need_pos (by decide) F
    exact .cons (types_emit 1 2 rfl rfl (by omega))
      (.cons (Task.Types.store (σ := σ.up 1) (h t List.mem_cons_self) (by rw [Shape.depth_up]; omega))
        (.cons (Task.Types.storeAll (by simp) (fun e' he' => h e' (List.mem_cons_of_mem _ he'))
          (by omega)) .nil))

theorem rowNeed_values_le (entries : List (Expr × Expr)) :
    rowNeed (Expr.needs F (entries.map Prod.snd)) ≤
      rowNeed (Expr.needs F (entries.flatMap fun p => [p.1, p.2])) := by
  induction entries with
  | nil => exact Nat.le_refl _
  | cons p ps ih =>
    simp only [List.map_cons, List.flatMap_cons, List.cons_append, List.nil_append, Expr.needs,
      rowNeed]
    omega

theorem expands_map {entries : List (Expr × Expr)}
    (h : ∀ p ∈ entries, p.1.Fits K .load ∧ p.2.Fits K .load)
    (hM : σ.depth + rowNeed (Expr.needs F (entries.flatMap fun p => [p.1, p.2])) + 1 ≤ M) :
    Types K F M Γ σ (mapSteps entries) (σ.up 1) := by
  have hplain : Types K F M Γ σ [.run (.all (entries.flatMap fun p => [p.1, p.2])),
      .emit .buildMap (UInt32.ofNat entries.length)] (σ.up 1) := by
    have hall : ∀ e ∈ entries.flatMap fun p => [p.1, p.2], e.Fits K .load := by
      intro e he
      obtain ⟨p, hp, he⟩ := List.mem_flatMap.mp he
      simp only [List.mem_cons, List.not_mem_nil, or_false] at he
      rcases he with rfl | rfl
      · exact (h p hp).1
      · exact (h p hp).2
    refine .cons (types_all hall (by omega)) (.cons (types_emit _ 1 rfl ?_ (by omega)) .nil)
    have hlen : (entries.flatMap fun p => [p.1, p.2]).length =
        entries.length + entries.length := by
      simp [List.length_flatMap, Nat.mul_two]
    rw [hlen, word_add, Opcode.effect_buildMap]
    show Int32.ofNat 1 = Int32.ofNat entries.length + Int32.ofNat entries.length +
      (1 - 2 * Int32.ofNat entries.length)
    grind
  unfold mapSteps
  split
  · split
    · have hvalues := rowNeed_values_le (F := F) entries
      have hcount := length_le_rowNeed (Expr.needs F (entries.map Prod.snd))
      rw [length_needs, List.length_map] at hcount
      refine .cons (types_all (fun e he => ?_) (by omega)) ?_
      · obtain ⟨p, hp, rfl⟩ := List.mem_map.mp he
        exact (h p hp).2
      · rw [List.length_map]
        exact types_constKeys _ _ (by omega)
    · exact hplain
  · exact hplain

theorem types_input {input : Option Expr} (h : ∀ e, input = some e → e.Fits K .load)
    (hM : σ.depth + Expr.needOrNone F input ≤ M) : Types K F M Γ σ (inputSteps input) (σ.up 1) := by
  cases input with
  | none => exact .cons (types_named 0 1 rfl (fun _ => rfl) hM) .nil
  | some e =>
    have hpos := (h e rfl).need_pos (by decide) F
    rw [Expr.needOrNone] at hM
    exact .cons (types_value (h e rfl) hM) (.cons (types_emit 1 1 rfl rfl (by omega)) .nil)

theorem expands_loop {input : Option Expr} {target element : Expr} {filters : List Expr}
    {rest : List Generator} {depth : Nat} (hinput : ∀ e, input = some e → e.Fits K .load)
    (htarget : target.Fits K .store) (hfilters : ∀ e ∈ filters, e.Fits K .load)
    (helement : element.Fits K .load) (hgt : ∀ g ∈ rest, g.target.Fits K .store)
    (hgi : ∀ g ∈ rest, g.iter.Fits K .load) (hgf : ∀ g ∈ rest, ∀ e ∈ g.filters, e.Fits K .load)
    (h1 : σ.depth + Expr.needOrNone F input ≤ M) (h2 : σ.depth + 1 + target.need F ≤ M)
    (h3 : σ.depth + 1 + mostNeed (Expr.needs F filters) ≤ M)
    (h4 : Generator.need F (element.need F) (σ.depth + 1) rest ≤ M) :
    Expands K F M Γ n 4 σ (Task.steps o d n (.loop input target filters rest element depth)) σ := by
  have hpos := htarget.need_pos (by decide) F
  refine ⟨[(n, σ.up 1), (n + 1, σ.up 1), (n + 2, σ.up 1), (n + 3, σ)], keyed_four n _ _ _ _, ?_⟩
  have hskip : Types K F M ([(n, σ.up 1), (n + 1, σ.up 1), (n + 2, σ.up 1), (n + 3, σ)] ++ Γ)
      (σ.up 1) (if rest.isEmpty then [.label (n + 1)] else []) (σ.up 1) := by
    split
    · exact .cons (types_label (by simp)) .nil
    · exact .nil
  have hbody : Types K F M ([(n, σ.up 1), (n + 1, σ.up 1), (n + 2, σ.up 1), (n + 3, σ)] ++ Γ)
      (σ.up 1) [.label n, .jump .forIter (n + 3), .run .block, value target,
        .run (.filters (n + 2) filters), .run (.inner element depth rest)] (σ.up 1) := by
    refine .cons (types_label (by simp)) (.cons (types_branch 1 0 2 rfl (by simp) rfl rfl ?_)
      (.cons types_block (.cons (Task.Types.store (σ := σ.up 1) htarget h2)
        (.cons (Task.Types.filters hfilters h3 (by simp))
          (.cons (Task.Types.inner helement hgt hgi hgf h4) .nil)))))
    show σ.depth + 2 ≤ M
    omega
  exact (((types_input hinput h1).append hbody).append hskip).append
    (.cons (types_label (by simp)) (.cons (types_goto (.inr rfl) (by simp)
      (by rw [Shape.depth_up]; omega)) (.cons (types_label (by simp)) .nil)))

theorem expands_inner {element : Expr} {rest : List Generator} {depth : Nat}
    (helement : element.Fits K .load) (hgt : ∀ g ∈ rest, g.target.Fits K .store)
    (hgi : ∀ g ∈ rest, g.iter.Fits K .load) (hgf : ∀ g ∈ rest, ∀ e ∈ g.filters, e.Fits K .load)
    (hM : Generator.need F (element.need F) σ.depth rest ≤ M) :
    Types K F M Γ σ (Task.steps o d n (.inner element depth rest)) σ := by
  match rest with
  | [] =>
    rw [Generator.need] at hM
    exact .cons (types_value helement (by omega)) (.cons (types_emit 1 0 rfl
      (by decide : Int32.ofNat 0 = Int32.ofNat 1 + -1) (by omega)) .nil)
  | ⟨target, iter, filters⟩ :: rest =>
    rw [Generator.need] at hM
    refine .cons (Task.Types.loop ?_ (hgt _ List.mem_cons_self) (hgf _ List.mem_cons_self) helement
      (fun g hg => hgt g (List.mem_cons_of_mem _ hg)) (fun g hg => hgi g (List.mem_cons_of_mem _ hg))
      (fun g hg => hgf g (List.mem_cons_of_mem _ hg)) ?_ (by omega) (by omega) (by omega)) .nil
    · rintro e ⟨⟩
      exact hgi _ List.mem_cons_self
    · rw [Expr.needOrNone]
      omega

end Lists

end Wordcode
