import Wordcode.Proofs.Scheme
import Wordcode.Proofs.StackDepth

/-!
# What is refused

Assembly refuses a draft for its layout, which is a fault of the graph, or because the depth of the
stack gets below zero; and it stops where a number is no word. It never complains of frames or of
scopes.
-/

set_option autoImplicit false

namespace Wordcode

/-- The faults of a compiler that loses track of its frames or scopes. -/
def Fault.ofBookkeeping : Fault → Bool
  | .frameMismatch .. | .frameStackEmpty _ | .other _ => true
  | _ => false

def CompileError.ofBookkeeping (e : CompileError) : Bool :=
  (e.fault?.map Fault.ofBookkeeping).getD false

theorem CompileError.fault?_withContext (e : CompileError) (scope : String) (line : UInt32) :
    (e.withContext scope line).fault? = e.fault? := by
  cases e with
  | internal f s l => cases s <;> rfl
  | unsupportedMode | invalidPosition | overflow => rfl

theorem CompileError.ofBookkeeping_withContext (e : CompileError) (scope : String)
    (line : UInt32) : (e.withContext scope line).ofBookkeeping = e.ofBookkeeping := by
  unfold ofBookkeeping
  rw [fault?_withContext]

/-- The faults that are found when blocks are put in order and their jumps are settled. -/
def Fault.ofLayout : Fault → Bool
  | .notLaidOutAfter .. | .targetNotLaidOut .. | .backwardJump .. | .offsetMismatch .. => true
  | _ => false

/-- What can be found when blocks are put in order and their jumps are settled. -/
inductive CompileError.OfLayout : CompileError → Prop where
  | overflow : OfLayout .overflow
  | fault {f : Fault} : f.ofLayout = true → OfLayout (.fault f)

theorem checkLayout_error {blocks : Array Block} {order : List BlockId} {e : CompileError}
    (h : checkLayout blocks order = .error e) : e.OfLayout := by
  induction order with
  | nil => cases h
  | cons b rest ih =>
    unfold checkLayout at h
    dsimp only at h
    split at h
    · exact ih h
    · split at h
      · exact ih h
      · cases h
        exact .fault rfl

theorem wordOf_error {n : Nat} {e : CompileError} (h : wordOf n = .error e) : e.OfLayout := by
  unfold wordOf at h
  split at h
  · cases h
  · cases h
    exact .overflow

namespace Sizing

theorem operand_error {offs : Offsets} {i : Instruction} {stop : Nat} {b : BlockId}
    {e : CompileError} (h : operand offs i stop b = .error e) : e.OfLayout := by
  unfold operand at h
  split at h
  · cases h
    exact .fault rfl
  · split at h
    · exact wordOf_error h
    · split at h
      · exact wordOf_error h
      · cases h
        exact .fault rfl

theorem resolveBody_error {offs : Offsets} {out : Array Instruction} {pos : Nat}
    {body : List Instruction} {e : CompileError} (h : resolveBody offs out pos body = .error e) :
    e.OfLayout := by
  induction body generalizing out pos with
  | nil => cases h
  | cons i rest ih =>
    unfold resolveBody at h
    split at h
    · next hresolve =>
      cases h
      unfold resolve at hresolve
      split at hresolve
      · cases hresolve
      · next b _ =>
        cases hoperand : operand offs i (pos + i.size) b with
        | ok arg =>
          rw [hoperand] at hresolve
          cases hresolve
        | error e' =>
          rw [hoperand] at hresolve
          cases hresolve
          exact operand_error hoperand
    · exact ih h

theorem resolveCode_error {offs : Offsets} {out : Array Placed} {code : List Placed}
    {e : CompileError} (h : resolveCode offs out code = .error e) : e.OfLayout := by
  induction code generalizing out with
  | nil => cases h
  | cons p rest ih =>
    unfold resolveCode at h
    split at h
    · next hbody =>
      cases h
      exact resolveBody_error hbody
    · exact ih h

theorem settle_error {blockCount : Nat} {code : List Placed} {e : CompileError}
    (h : settle blockCount code = .error e) : e.OfLayout := by
  fun_induction settle blockCount code with
  | case1 code e' hpass =>
    cases h
    rcases of_bind_eq_error hpass with hword | ⟨_, _, hcode⟩
    · exact wordOf_error hword
    · exact resolveCode_error hcode
  | case2 code code' hpass hlt ih => exact ih h
  | case3 => cases h

end Sizing

theorem Assembly.Output.writeBlocks_error {line : UInt32} {offs : Offsets} {out : Output}
    {code : List Placed} {e : CompileError} (h : writeBlocks line offs out code = .error e) :
    e.OfLayout := by
  induction code generalizing out with
  | nil => cases h
  | cons p rest ih =>
    unfold writeBlocks at h
    dsimp only at h
    split at h
    · exact ih h
    · cases h
      exact .fault rfl

theorem StackDepth.State.run_error {g : Graph} {rounds : Nat} {s : State} {e : CompileError}
    (h : run g rounds s = .error e) :
    (∃ b k op, e = .fault (.stackUnderflow b k op)) ∨ e = .overflow := by
  induction rounds generalizing s with
  | zero => cases h
  | succ rounds ih =>
    unfold run at h
    split at h
    · cases h
    · simp only at h
      split at h
      · next hwalk =>
        cases h
        rcases of_walk_error hwalk with ⟨k, op, _, he⟩ | ⟨_, he⟩
        · exact .inl ⟨_, _, op, he⟩
        · exact .inr he
      · exact ih h

/-- The walk for the depth finds nothing but underflow and overflow. -/
theorem maxStackDepth_error {g : Graph} {entry : BlockId} {e : CompileError}
    (h : maxStackDepth g entry = .error e) :
    (∃ b k op, e = .fault (.stackUnderflow b k op)) ∨ e = .overflow := by
  unfold maxStackDepth at h
  cases hrun : StackDepth.State.run g g.size (.start g.size entry) with
  | error e' =>
    rw [hrun] at h
    cases h
    exact StackDepth.State.run_error hrun
  | ok s =>
    rw [hrun] at h
    cases h

namespace Draft

theorem of_assemble_error {d : Draft} {addNone : Bool} {filename : String} {e : CompileError}
    (h : d.assemble addNone filename = .error e) :
    e.OfLayout ∨
      maxStackDepth (d.close addNone).blocks entry = .error e := by
  unfold Draft.assemble at h
  simp only [bind, Except.bind, pure, Except.pure] at h
  split at h
  · next hcheck =>
    cases h
    exact .inl (checkLayout_error hcheck)
  split at h
  · next hsettle =>
    cases h
    exact .inl (Sizing.settle_error hsettle)
  split at h
  · next hdepth =>
    cases h
    exact .inr hdepth
  split at h
  · next hwrite =>
    cases h
    exact .inl (Assembly.Output.writeBlocks_error hwrite)
  cases h

theorem not_ofBookkeeping_of_finish {d : Draft} {addNone : Bool} {filename : String}
    {e : CompileError} (h : d.finish addNone filename = .error e) : e.ofBookkeeping = false := by
  unfold Draft.finish at h
  split at h
  · cases hassemble : d.assemble addNone filename with
    | ok c =>
      rw [hassemble] at h
      cases h
    | error e' =>
      rw [hassemble] at h
      cases h
      rw [CompileError.ofBookkeeping_withContext]
      rcases of_assemble_error hassemble with hlayout | hdepth
      · cases hlayout with
        | overflow => rfl
        | @fault f hf => cases f <;> first | rfl | cases hf
      · rcases maxStackDepth_error hdepth with ⟨b, k, op, rfl⟩ | rfl <;> rfl
  · cases h
    rfl

end Draft
end Wordcode
