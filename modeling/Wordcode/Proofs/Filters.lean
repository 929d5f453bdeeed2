import Wordcode.Proofs.Effects
import Wordcode.Proofs.Quoted
import Wordcode.Proofs.TypedExpr

/-!
# Filters

The code of expressions that are read does not store anything in variables. So what conditions come
to in the machine that only evaluates they come to in the one with effects, and the code of filters
goes on with what passes all of them.
-/

set_option autoImplicit false

namespace Wordcode

open Step (value branch simple)

abbrev Expr.IsRead (e : Expr) : Prop := e.Fits (fun _ => True) .load

/-- A construct in which expressions are read, and no more. -/
def Task.ReadsOnly : Task → Prop
  | .expr e _ => e.IsRead
  | .all es | .tests _ _ _ _ es | .chain _ _ es => ∀ e ∈ es, e.IsRead
  | .operands jump _ es | .links jump _ _ _ es =>
    jump.storesVariable = false ∧ ∀ e ∈ es, e.IsRead
  | .map entries | .extendMap entries => ∀ p ∈ entries, p.1.IsRead ∧ p.2.IsRead
  | .chainEnd .. | .block => True
  | _ => False

def Step.ReadsOnly : Step → Prop
  | .emit op _ | .named op _ | .jump op _ => op.storesVariable = false
  | .run t => t.ReadsOnly
  | _ => True

def ReadOnly (steps : List Step) : Prop := ∀ x ∈ steps, x.ReadsOnly

theorem ReadOnly.nil : ReadOnly [] := List.forall_mem_nil _

theorem ReadOnly.cons {x : Step} {xs : List Step} (hx : x.ReadsOnly) (hxs : ReadOnly xs) :
    ReadOnly (x :: xs) := List.forall_mem_cons.mpr ⟨hx, hxs⟩

theorem ReadOnly.append {xs ys : List Step} (hx : ReadOnly xs) (hy : ReadOnly ys) :
    ReadOnly (xs ++ ys) := List.forall_mem_append.mpr ⟨hx, hy⟩

theorem storesVariable_operator (op : Operator) : op.opcode.storesVariable = false := by
  cases op <;> rfl

theorem storesVariable_unary (op : UnaryOp) : op.opcode.storesVariable = false := by
  cases op <;> rfl

theorem storesVariable_compare (op : CmpOp) : op.opcode.1.storesVariable = false := by
  cases op <;> rfl

theorem storesVariable_popJump (sense : Bool) : (popJumpOpcode sense).storesVariable = false := by
  cases sense <;> rfl

theorem readOnly_optionSteps {e : Option Expr} (h : ∀ e', e = some e' → e'.IsRead) :
    ReadOnly (optionSteps e) := by
  cases e with
  | none => exact .cons trivial .nil
  | some e => exact .cons (h e rfl) .nil

theorem readOnly_testSteps (dest : Dest) : ReadOnly dest.testSteps := by
  cases dest with
  | push => exact .nil
  | jump b sense => exact .cons (storesVariable_popJump sense) (.cons trivial .nil)

theorem readOnly_cleanupSteps (dest : Dest) : ReadOnly dest.cleanupSteps := by
  match dest with
  | .push => exact .cons rfl (.cons rfl .nil)
  | .jump _ true => exact .cons rfl .nil
  | .jump _ false => exact .cons rfl (.cons rfl .nil)

theorem readOnly_callSteps (extra : Nat) {args : List Expr} {keywords : List Keyword}
    (hargs : ∀ e ∈ args, e.IsRead) (hkeywords : ∀ k ∈ keywords, k.value.IsRead) :
    ReadOnly (callSteps extra args keywords) := by
  unfold callSteps
  refine .cons hargs ?_
  split
  · exact .cons rfl .nil
  · exact .cons (List.forall_mem_map.mpr hkeywords) (.cons trivial (.cons rfl .nil))

theorem readOnly_defaultSteps {args : Arguments} (h : args.Fits fun _ => True) :
    ReadOnly args.defaultSteps := by
  have hvalues : ∀ e ∈ args.kwDefaultValues, e.IsRead :=
    fun e he => h.kwDefaults e (mem_kwDefaults_of_mem_values he)
  unfold Arguments.defaultSteps
  refine .append ?_ (.cons hvalues ?_)
  · split
    · exact .nil
    · exact .cons h.defaults (.cons rfl .nil)
  · split
    · exact .nil
    · exact .cons trivial (.cons rfl .nil)

theorem readOnly_mapSteps {entries : List (Expr × Expr)}
    (h : ∀ p ∈ entries, p.1.IsRead ∧ p.2.IsRead) : ReadOnly (mapSteps entries) := by
  have hplain : ReadOnly [.run (.all (entries.flatMap fun p => [p.1, p.2])),
      .emit .buildMap (UInt32.ofNat entries.length)] := by
    refine .cons (fun e he => ?_) (.cons rfl .nil)
    obtain ⟨p, hp, he⟩ := List.mem_flatMap.mp he
    simp only [List.mem_cons, List.not_mem_nil, or_false] at he
    rcases he with rfl | rfl
    · exact (h p hp).1
    · exact (h p hp).2
  unfold mapSteps
  dsimp only
  split
  · split
    · exact .cons (List.forall_mem_map.mpr fun p hp => (h p hp).2) (.cons trivial (.cons rfl .nil))
    · exact hplain
  · exact hplain

theorem readOnly_call {line : UInt32} {func : Expr} {args : List Expr} {keywords : List Keyword}
    (hfunc : func.IsRead) (hargs : ∀ e ∈ args, e.IsRead)
    (hkeywords : ∀ k ∈ keywords, k.value.IsRead) (d : Draft) :
    ReadOnly ((Expr.call line func args keywords).valueSteps d) := by
  rcases valueSteps_call d line func args keywords with h | ⟨l, object, attr, rfl, rfl, h⟩
  · rw [h]
    exact .cons hfunc (readOnly_callSteps 0 hargs hkeywords)
  · rw [h]
    cases hfunc with
    | «attribute» hobject => exact .cons hobject (.cons rfl (.cons hargs (.cons rfl .nil)))

theorem readOnly_compare {line : UInt32} {left : Expr} {ops : List CmpOp} {comparators : List Expr}
    (hlen : ops.length = comparators.length) (hleft : left.IsRead)
    (hcomparators : ∀ e ∈ comparators, e.IsRead) (d : Draft) :
    ReadOnly ((Expr.compare line left ops comparators).valueSteps d) := by
  rcases ops with _ | ⟨op, _ | ⟨op', ops⟩⟩
  · exact .cons trivial .nil
  · obtain ⟨e, rfl⟩ := List.length_eq_one_iff.mp hlen.symm
    exact .cons hleft (.cons (hcomparators e (by simp)) (.cons (storesVariable_compare op) .nil))
  · exact .cons hleft (.cons hcomparators .nil)

theorem readOnly_slice {line : UInt32} {lower upper step : Option Expr}
    (hlower : ∀ e, lower = some e → e.IsRead) (hupper : ∀ e, upper = some e → e.IsRead)
    (hstep : ∀ e, step = some e → e.IsRead) (d : Draft) :
    ReadOnly ((Expr.slice line lower upper step).valueSteps d) := by
  have hbounds := (readOnly_optionSteps hlower).append (readOnly_optionSteps hupper)
  cases step with
  | none => exact hbounds.append (.cons rfl .nil)
  | some e => exact hbounds.append (.cons (hstep e rfl) (.cons rfl .nil))

theorem Expr.IsRead.readOnly_valueSteps {e : Expr} (h : e.IsRead) (d : Draft) :
    ReadOnly (e.valueSteps d) := by
  cases h with
  | boolOp | ifExp => exact .cons trivial .nil
  | @binOp _ _ _ op hl hr => exact .cons hl (.cons hr (.cons (storesVariable_operator op) .nil))
  | @unaryOp _ op _ ho => exact .cons ho (.cons (storesVariable_unary op) .nil)
  | lambda hdefaults hkw _ =>
    exact (readOnly_defaultSteps ⟨hdefaults, hkw⟩).append (.cons trivial .nil)
  | dict hkeys hvalues =>
    have hfits (p) (hp : p ∈ List.zip _ _) :=
      And.intro (hkeys p.1 (List.of_mem_zip hp).1) (hvalues p.2 (List.of_mem_zip hp).2)
    exact .cons (fun p hp => hfits p (List.mem_of_mem_take hp))
      (.cons (fun p hp => hfits p (List.mem_of_mem_drop hp)) .nil)
  | set helts => exact .cons helts (.cons rfl .nil)
  | @listComp _ _ generators _ _ hiters _ =>
    match generators with
    | [] => exact .cons trivial .nil
    | ⟨_, _, _⟩ :: _ =>
      exact .cons trivial (.cons (hiters _ List.mem_cons_self) (.cons rfl (.cons rfl .nil)))
  | yield hvalue => exact (readOnly_optionSteps hvalue).append (.cons rfl .nil)
  | compare hlen hleft hcomparators => exact readOnly_compare hlen hleft hcomparators d
  | call hfunc hargs hkeywords => exact readOnly_call hfunc hargs hkeywords d
  | constant => exact .cons trivial .nil
  | «attribute» hobject => exact .cons hobject (.cons rfl .nil)
  | subscript hobject hindex => exact .cons hobject (.cons hindex (.cons rfl .nil))
  | slice hlower hupper hstep => exact readOnly_slice hlower hupper hstep d
  | name => exact .cons (d.storesVariable_load _) .nil
  | list helts | tuple helts => exact .cons helts (.cons rfl .nil)

theorem Expr.IsRead.readOnly_steps {e : Expr} (h : e.IsRead) (d : Draft) (n : Nat) (dest : Dest) :
    ReadOnly (e.steps d n dest) := by
  fun_cases Expr.steps d n e dest
  case case1 op values =>
    cases h with
    | boolOp hvalues => exact .cons ⟨by cases op <;> rfl, hvalues⟩ (.cons trivial .nil)
  case case2 =>
    cases h with
    | boolOp hvalues => exact .cons hvalues .nil
  case case3 =>
    cases h with
    | boolOp hvalues =>
      refine .cons hvalues ?_
      split
      · exact .nil
      · exact .cons trivial .nil
  case case4 =>
    cases h with
    | unaryOp ho => exact .cons ho .nil
  case case5 =>
    cases h with
    | ifExp ht hb ho =>
      exact .cons ht (.cons hb (.cons rfl (.cons trivial (.cons ho (.cons trivial .nil)))))
  case case6 =>
    cases h with
    | compare _ hleft hcomparators =>
      exact .append (.append (.cons hleft (.cons ⟨rfl, hcomparators⟩ .nil)) (readOnly_testSteps _))
        (.cons trivial .nil)
  case case7 => exact (h.readOnly_valueSteps d).append (readOnly_testSteps dest)

theorem Task.ReadsOnly.steps {t : Task} (h : t.ReadsOnly) (o : Options) (d : Draft) (n : Nat) :
    ReadOnly (t.steps o d n) := by
  cases t with
  | expr e dest => exact Expr.IsRead.readOnly_steps h d n dest
  | all es =>
    cases es with
    | nil => exact .nil
    | cons e es =>
      obtain ⟨he, hes⟩ := List.forall_mem_cons.mp h
      exact .cons he (.cons hes .nil)
  | operands jump done es =>
    obtain ⟨hjump, hes⟩ := h
    match es with
    | [] => exact .cons trivial .nil
    | [e] => exact .cons (hes e (by simp)) .nil
    | e :: e' :: es =>
      obtain ⟨he, hes⟩ := List.forall_mem_cons.mp hes
      exact .cons he (.cons hjump (.cons trivial (.cons ⟨hjump, hes⟩ .nil)))
  | tests decided decisive target sense es =>
    match es with
    | [] => exact .cons trivial .nil
    | [e] => exact .cons (h e (by simp)) .nil
    | e :: e' :: es =>
      obtain ⟨he, hes⟩ := List.forall_mem_cons.mp h
      exact .cons he (.cons hes .nil)
  | links jump cleanup last ops es =>
    obtain ⟨hjump, hes⟩ := h
    match ops, es with
    | _, [] => exact .nil
    | _, [e] => exact .cons (hes e (by simp)) (.cons (storesVariable_compare last) .nil)
    | [], e :: e' :: es => exact .cons ⟨hjump, (List.forall_mem_cons.mp hes).2⟩ .nil
    | op :: ops, e :: e' :: es =>
      obtain ⟨he, hes⟩ := List.forall_mem_cons.mp hes
      exact .cons he (.cons rfl (.cons rfl (.cons (storesVariable_compare op) (.cons hjump
        (.cons trivial (.cons ⟨hjump, hes⟩ .nil))))))
  | chain last ops es => exact .cons ⟨rfl, h⟩ (.cons trivial .nil)
  | chainEnd cleanup dest =>
    exact .append (.append (.cons rfl (.cons trivial .nil)) (readOnly_cleanupSteps dest))
      (.cons trivial .nil)
  | map entries => exact readOnly_mapSteps h
  | extendMap entries =>
    cases entries with
    | nil => exact .nil
    | cons p entries =>
      exact .cons (fun p hp => h p (List.mem_of_mem_take hp)) (.cons rfl
        (.cons (fun p hp => h p (List.mem_of_mem_drop hp)) .nil))
  | block => exact .cons trivial .nil
  | filters | loop | inner | storeAll | stmt | stmts | tryExcept | handlers | handler | unwind =>
    exact h.elim

theorem readOnly_closureSteps (code : CodeObject) (parts : FunctionParts) (qualname : String) :
    ReadOnly (closureSteps code parts qualname) := by
  unfold closureSteps
  refine .append ?_ (.cons trivial (.cons trivial (.cons rfl .nil)))
  split
  · exact .nil
  · exact .append (List.forall_mem_map.mpr fun _ _ => rfl) (.cons rfl .nil)

/-- No instruction of a script takes a value off the stack to a variable. -/
def Script.StoresNothing (log : Script) : Prop :=
  ∀ x ∈ log, ∀ i, x.instruction? = some i → i.opcode.storesVariable = false

theorem Step.Puts.storesNothing {x : Step} {out : Script} (h : x.Puts out) (hx : x.ReadsOnly) :
    out.StoresNothing := by
  cases h with
  | emit | named | jump =>
    refine List.forall_mem_singleton.mpr fun i hi => ?_
    cases hi
    exact hx
  | load arg c =>
    refine List.forall_mem_cons.mpr ⟨fun i hi => ?_, List.forall_mem_singleton.mpr fun i hi => ?_⟩
    · cases hi
    · cases hi
      rfl
  | label | intern =>
    refine List.forall_mem_singleton.mpr fun i hi => ?_
    cases hi

theorem Emits.storesNothing {o : Options} {d : Draft} {steps : List Step} {n m : Nat} {log : Script}
    (h : Emits o d steps n log m) (hsteps : ReadOnly steps) : log.StoresNothing := by
  induction h with
  | nil => exact List.forall_mem_nil _
  | put hx _ ih =>
    obtain ⟨hfirst, hrest⟩ := List.forall_mem_cons.mp hsteps
    exact List.forall_mem_append.mpr ⟨hx.storesNothing hfirst, ih hrest⟩
  | closure _ _ _ _ _ _ _ ih =>
    exact ih (.append (readOnly_closureSteps _ _ _) (List.forall_mem_cons.mp hsteps).2)
  | run _ _ _ ihsub ih =>
    obtain ⟨hfirst, hrest⟩ := List.forall_mem_cons.mp hsteps
    refine List.forall_mem_append.mpr ⟨List.forall_mem_append.mpr ⟨?_, ?_⟩, ih hrest⟩
    · intro x hx i hi
      rw [(List.mem_replicate.mp hx).2] at hi
      cases hi
    · exact ihsub (Task.ReadsOnly.steps hfirst _ _ _)

theorem Expr.IsCondition.isRead {e : Expr} (h : e.IsCondition) : e.IsRead := by
  induction h with
  | boolOp _ _ ih => exact .boolOp ih
  | not _ ih => exact .unaryOp ih
  | ifExp _ _ _ iht ihb ihe => exact .ifExp iht ihb ihe
  | compare _ hlen _ _ ihl ih => exact .compare hlen ihl ih
  | operand _ hfits => exact hfits

theorem Expr.notes_append_singleton {V : Type} (h : History V) (tr : List Expr) (e : Expr) :
    h ++ Expr.notes (tr ++ [e]) = h ++ Expr.notes tr ++ e.note := by
  simp [Expr.notes]

/-- What keeps control in the part of a plot that it stands behind, except that control may leave
for the label. -/
def Plot.fence (b : BlockId) : Plot := [.item (.emit .returnValue 0), .item (.label b)]

/-- Where control is that is in a fenced part of a plot, and where it is if the part has the place
it has. -/
inductive Plot.Beside (pl rest taken : Plot) (b : BlockId) : Plot → Plot → Prop where
  | inside {q : Plot} : q <:+ pl → Beside pl rest taken b (q ++ fence b) (q ++ rest)
  | outside : Beside pl rest taken b [] taken

section

variable {V : Type} {W : World V} {env : Env V} {o : Options} {pl P rest taken : Plot} {b : BlockId}
  {h : History V}

namespace Plot

theorem cons_suffix_append {x : Piece} {pt Q : Plot} (hpt : x :: pt <:+ pl ++ Q) :
    (∃ q, x :: q <:+ pl ∧ pt = q ++ Q) ∨ x :: pt <:+ Q := by
  rcases List.suffix_or_suffix_of_suffix hpt (List.suffix_append pl Q) with hQ | ⟨q, hq⟩
  · exact .inr hQ
  · obtain ⟨pre, hpre⟩ := hpt
    rw [← hq, ← List.append_assoc] at hpre
    have hpl : q <:+ pl := ⟨pre, List.append_cancel_right hpre⟩
    cases q with
    | nil => exact .inr (hq ▸ List.suffix_rfl)
    | cons y q =>
      obtain ⟨rfl, rfl⟩ := List.cons.inj hq
      exact .inl ⟨q, hpl, rfl⟩

/-- Labels of a fenced part lead to the same place. -/
theorem exists_beside {b' : BlockId} {pt : Plot} (hP : pl ++ rest <:+ P)
    (hb : .item (.label b) :: taken <:+ P) (hpt : .item (.label b') :: pt <:+ pl ++ fence b) :
    ∃ p, Beside pl rest taken b pt p ∧ .item (.label b') :: p <:+ P := by
  rcases cons_suffix_append hpt with ⟨q, hq, rfl⟩ | hfence
  · obtain ⟨pre, rfl⟩ := hq
    refine ⟨_, .inside ((List.suffix_cons _ _).trans (List.suffix_append _ _)), .trans ?_ hP⟩
    rw [List.append_assoc]
    exact List.suffix_append _ _
  · rcases List.suffix_cons_iff.mp hfence with heq | hlabel
    · cases heq
    · rcases List.suffix_cons_iff.mp hlabel with heq | hnil
      · cases heq
        exact ⟨taken, .outside, hb⟩
      · cases List.suffix_nil.mp hnil

theorem Beside.eq_taken {p : Plot} (h : Beside pl rest taken b [] p) : p = taken := by
  generalize hpt : ([] : Plot) = pt at h
  cases h with
  | inside => simp [fence] at hpt
  | outside => rfl

theorem Beside.eq_rest {p : Plot} (h : Beside pl rest taken b (fence b) p) : p = rest := by
  generalize hpt : fence b = pt at h
  cases h with
  | inside =>
    rw [List.self_eq_append_left.mp hpt]
    rfl
  | outside => cases hpt

theorem not_moves_fence {M : Meaning V} {F : Plot} {c c' : Config Plot V}
    (hc : c.point = [] ∨ c.point = fence b) : ¬ Moves M (course F) c c' := by
  intro hmove
  cases hmove with
  | silent hsilent =>
    obtain ⟨x, rfl, hx⟩ := hsilent
    rcases hc with heq | heq <;> cases heq
    cases hx
  | next hop hfalls =>
    obtain ⟨x, _, i, rfl, hx, rfl, _⟩ := hop
    rcases hc with heq | heq <;> cases heq
    cases hx
    cases hfalls
  | jump hop hjumps =>
    obtain ⟨x, _, i, rfl, hx, rfl, _⟩ := hop
    rcases hc with heq | heq <;> cases heq
    cases hx
    cases hjumps
  | value hvalue =>
    obtain ⟨_, rfl⟩ := hvalue
    rcases hc with heq | heq <;> cases heq

/-- What the machine does that only evaluates, the one with effects does. -/
theorem Beside.move (hstores : pl.script.StoresNothing)
    (hP : pl ++ rest <:+ P) (hb : .item (.label b) :: taken <:+ P) {c c' : Config Plot V} {p : Plot}
    (hc : Beside pl rest taken b c.point p)
    (hmove : Moves (W.after h) (course (pl ++ fence b)) c c') :
    ∃ p', Beside pl rest taken b c'.point p' ∧
      W.Runs env P.course ⟨p, c.stack, h ++ Expr.notes c.trace⟩
        ⟨p', c'.stack, h ++ Expr.notes c'.trace⟩ := by
  obtain ⟨pt, st, tr⟩ := c
  cases hc with
  | outside => exact (not_moves_fence (b := b) (.inl rfl) hmove).elim
  | @inside q hq =>
    match q with
    | [] => exact (not_moves_fence (b := b) (.inr rfl) hmove).elim
    | x :: q =>
      have hinside : Beside pl rest taken b (q ++ fence b) (q ++ rest) :=
        .inside ((List.suffix_cons x q).trans hq)
      have hmem : x ∈ pl := hq.subset List.mem_cons_self
      cases hmove with
      | silent hsilent =>
        obtain ⟨x, heq, hx⟩ := hsilent
        obtain ⟨rfl, rfl⟩ := List.cons.inj heq
        exact ⟨_, hinside, .single (.silent ⟨x, rfl, hx⟩)⟩
      | next hop hfalls hnext =>
        obtain ⟨x, _, i, heq, hx, rfl, rfl⟩ := hop
        obtain ⟨rfl, -⟩ := List.cons.inj heq
        obtain ⟨_, heq⟩ := hnext
        obtain ⟨-, rfl⟩ := List.cons.inj heq
        have hop := hstores x (List.mem_flatMap.mpr ⟨_, hmem, List.mem_singleton_self x⟩) i hx
        exact ⟨_, hinside, World.run_item hx (World.does_of_falls hop hfalls)⟩
      | jump hop hjumps htarget =>
        obtain ⟨x, _, i, heq, hx, rfl, rfl⟩ := hop
        obtain ⟨rfl, -⟩ := List.cons.inj heq
        obtain ⟨op, b', _, heq, hlabel⟩ := htarget
        obtain ⟨hx', -⟩ := List.cons.inj heq
        cases hx'
        cases hx
        obtain ⟨p', hbeside, hp'⟩ := exists_beside hP hb hlabel
        exact ⟨p', hbeside, World.run_jump hjumps hp'⟩
      | @value _ _ e _ _ hvalue =>
        obtain ⟨log, heq⟩ := hvalue
        obtain ⟨rfl, rfl⟩ := List.cons.inj heq
        have hmove : W.Moves env P.course
            ⟨.whole e log :: (q ++ rest), st, h ++ Expr.notes tr⟩
            ⟨q ++ rest, .value (W.value (h ++ Expr.notes tr) e) :: st, _⟩ := .value ⟨log, rfl⟩
        rw [← Expr.notes_append_singleton] at hmove
        exact ⟨_, hinside, .single hmove⟩

theorem Beside.runs (env : Env V) (hstores : pl.script.StoresNothing) (hP : pl ++ rest <:+ P)
    (hb : .item (.label b) :: taken <:+ P) {c c' : Config Plot V} {p : Plot}
    (hc : Beside pl rest taken b c.point p)
    (hruns : Runs (W.after h) (course (pl ++ fence b)) c c') :
    ∃ p', Beside pl rest taken b c'.point p' ∧
      W.Runs env P.course ⟨p, c.stack, h ++ Expr.notes c.trace⟩
        ⟨p', c'.stack, h ++ Expr.notes c'.trace⟩ := by
  induction hruns with
  | refl => exact ⟨p, hc, .refl⟩
  | tail _ hmove ih =>
    obtain ⟨p₁, hc₁, hruns₁⟩ := ih
    obtain ⟨p₂, hc₂, hruns₂⟩ := hc₁.move hstores hP hb hmove
    exact ⟨p₂, hc₂, hruns₁.trans hruns₂⟩

/-- A condition that is tested leads in the machine with effects where it leads in the other one. -/
theorem Brings.run (env : Env V) {sense : Bool} {f : List Expr → V × List Expr}
    (hbrings : pl.Brings (W.after h) (.jump b sense) f)
    (hstores : pl.script.StoresNothing) (hP : pl ++ rest <:+ P)
    (hb : .item (.label b) :: taken <:+ P) (st : List (Cell V)) :
    W.Runs env P.course ⟨pl ++ rest, st, h⟩
      ⟨if W.truth (f []).1 = sense then taken else rest, st, h ++ Expr.notes (f []).2⟩ := by
  have hruns := hbrings (pl ++ fence b) (fence b) st [] List.suffix_rfl []
    ((List.suffix_cons _ _).trans (List.suffix_append _ _))
  obtain ⟨p, hp, hruns⟩ :=
    (Beside.inside List.suffix_rfl).runs env hstores hP hb hruns
  change Beside pl rest taken b (if W.truth (f []).1 = sense then [] else fence b) p at hp
  have hplace : p = if W.truth (f []).1 = sense then taken else rest := by
    by_cases hsense : W.truth (f []).1 = sense
    · rw [if_pos hsense] at hp ⊢
      exact hp.eq_taken
    · rw [if_neg hsense] at hp ⊢
      exact hp.eq_rest
  rw [← hplace]
  simpa only [Expr.notes, List.flatMap_nil, List.append_nil] using hruns

end Plot

/-- Whether all filters pass, and what has happened when this is known. -/
def World.passes (W : World V) (h : History V) : List Expr → Bool × History V
  | [] => (true, h)
  | e :: es =>
    let (v, tr) := e.evaluate (W.after h) []
    if W.truth v then W.passes (h ++ Expr.notes tr) es else (false, h ++ Expr.notes tr)

theorem Emits.of_block_succ {d : Draft} {steps : List Step} {n m : Nat} {log : Script}
    (h : Emits o d (.run .block :: steps) n log m) :
    ∃ rest, log = .alloc :: .label n :: rest ∧ Emits o d steps (n + 1) rest m := by
  obtain ⟨_, rest, _, rfl, hblock, hrest⟩ := h.of_run
  obtain ⟨_, rfl, hlabel⟩ := hblock.of_task
  obtain ⟨_, rfl, hnil⟩ := hlabel.of_label
  obtain ⟨rfl, rfl⟩ := hnil.of_nil
  exact ⟨rest, rfl, hrest⟩

/-- Control goes on behind filters that pass, and else behind the label `cleanup`. -/
theorem exists_plot_filters {cleanup : BlockId} {es : List Expr} (hes : ∀ e ∈ es, e.IsCondition)
    {d : Draft} {n m : Nat} {log : Script} (hemits : Emits o d [.run (.filters cleanup es)] n log m)
    (hcleanup : cleanup < n) :
    ∃ pl : Plot, pl.Shows o TakesAll log ∧ ∀ {V : Type} (W : World V) (env : Env V)
      (P rest past : Plot) (st : List (Cell V)) (h : History V), pl ++ rest <:+ P →
      .item (.label cleanup) :: past <:+ P → W.Runs env P.course ⟨pl ++ rest, st, h⟩
        ⟨if (W.passes h es).1 then rest else past, st, (W.passes h es).2⟩ := by
  induction es generalizing n log with
  | nil =>
    obtain ⟨_, rfl, hnil⟩ := hemits.of_task
    obtain ⟨rfl, -⟩ := hnil.of_nil
    exact ⟨[], Plot.shows_items o [], fun W env P rest past st h _ _ => .refl⟩
  | cons e es ih =>
    have he : e.IsCondition := hes e List.mem_cons_self
    obtain ⟨_, rfl, hsteps⟩ := hemits.of_task
    obtain ⟨_, _, k, rfl, hbranch, hrest₁⟩ := hsteps.of_run
    obtain ⟨_, rfl, hrest₂⟩ := hrest₁.of_block_succ
    obtain ⟨ple, ⟨rfl, htakes⟩, hbrings⟩ := he.computes hbranch hcleanup
    obtain ⟨pl, hshows, hpasses⟩ := ih (fun e he => hes e (List.mem_cons_of_mem _ he)) hrest₂
      (Nat.lt_succ_of_lt (Nat.lt_of_lt_of_le hcleanup hbranch.le))
    have hstores := hbranch.storesNothing (.cons he.isRead .nil)
    have htakesAll : ple.Takes o TakesAll := htakes.mono fun _ _ => trivial
    refine ⟨_, Plot.Shows.append ⟨rfl, htakesAll⟩ ((Plot.shows_items o [_, _]).append hshows),
      fun W env P rest past st h hP hpast => ?_⟩
    simp only [List.append_assoc] at hP ⊢
    have hrestP := (List.suffix_append _ _).trans ((List.suffix_append _ _).trans hP)
    have hcondition := (hbrings (W.after h)).run env hstores hP hpast st
    by_cases hv : W.truth (e.evaluate (W.after h) []).1 = true
    · have heval : W.passes h (e :: es) =
          W.passes (h ++ Expr.notes (e.evaluate (W.after h) []).2) es := if_pos hv
      rw [if_neg (by rw [hv]; nofun)] at hcondition
      rw [heval]
      refine .trans hcondition (.trans ?_ (hpasses W env P rest past st _ hrestP hpast))
      exact (World.run_allocs 1).trans (World.run_label _)
    · have heval : W.passes h (e :: es) =
          (false, h ++ Expr.notes (e.evaluate (W.after h) []).2) := if_neg hv
      rw [if_pos (Bool.eq_false_iff.mpr hv)] at hcondition
      rw [heval]
      exact hcondition

end

end Wordcode
