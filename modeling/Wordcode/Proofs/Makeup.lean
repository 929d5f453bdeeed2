import Wordcode.Proofs.Local
import Wordcode.Proofs.LowerStmt

/-!
# What compiling is made of

Compiling is put together from few builds: changes of the session, which cannot fail, faults and
refusals, the finishing of scopes, and statements. So what is to hold of every build, and is not
about the code that it writes, need only be shown of these.
-/

set_option autoImplicit false

namespace Wordcode
namespace Build

/-- A build that is put together from changes of the session, failures, finished scopes and
statements. There are statements in it only if `stmts`, and outside of them it can fail, other than
by finishing a scope, only if `bare`. -/
inductive Made (stmts : Bool) : Bool → {α : Type} → Build α → Prop where
  | pure {bare : Bool} {α : Type} (a : α) : Made stmts bare (Pure.pure a)
  | change {bare : Bool} {α : Type} (f : Session → α × Session) : Made stmts bare (modifyGet f)
  | fail {α : Type} (f : Fault) : Made stmts true (Build.fail f : Build α)
  /-- The program is at fault. -/
  | refuse {bare : Bool} {α : Type} {e : CompileError} : e.isInternal = false →
    Made stmts bare (throw e : Build α)
  | finish {bare : Bool} (d : Draft) (addNone : Bool) (filename : String) :
    Made stmts bare (ofExcept (d.finish addNone filename))
  | bind {bare : Bool} {α β : Type} {b : Build α} {f : α → Build β} :
    Made stmts bare b → (∀ a, Made stmts bare (f a)) → Made stmts bare (b >>= f)
  | inStatement {bare : Bool} {b : Build Unit} (line : UInt32) : stmts = true →
    Made stmts true b → Made stmts bare (inStatement line b)

namespace Made

variable {stmts bare : Bool} {α β : Type}

/-- What stays in its scope changes the session or fails. -/
theorem of {b : Build α} (h : Local b) : Made stmts true b := by
  induction h with
  | pure a => exact pure a
  | fail f => exact fail f
  | onDraft => exact change _
  | bind _ _ ih ih' => exact ih.bind ih'

theorem step {b : Build α} {f : α → Build β} (h : Local b) (h' : ∀ a, Made stmts true (f a)) :
    Made stmts true (b >>= f) :=
  (Made.of h).bind h'

theorem nextChild : Made stmts true nextChild := by
  refine .bind (change fun s => (s, s)) fun s => ?_
  split
  · exact fail _
  · exact .bind (change fun _ => ((), _)) fun _ => pure _

theorem skipChildren (n : Nat) : Made stmts true (skipChildren n) := by
  induction n with
  | zero => exact pure ()
  | succ n ih => exact nextChild.bind fun _ => ih

theorem inScope {filename name : String} {kind : ScopeKind} {line : UInt32} {b : Build Bool}
    (h : Made stmts true b) : Made stmts true (inScope filename name kind line b) := by
  have hinner (table : ScopeTable) : Made stmts true (do
      let outer ← get
      set (Session.mk (outer.draft.child name table outer.nextSerial line) (outer.nextSerial + 1))
      let addNone ← b
      let inner ← get
      set (Session.mk outer.draft inner.nextSerial)
      Build.ofExcept (inner.draft.finish addNone filename)) :=
    .bind (change fun s => (s, s)) fun outer => .bind (change fun _ => ((), _)) fun _ =>
      h.bind fun addNone => .bind (change fun s => (s, s)) fun inner =>
        .bind (change fun _ => ((), _)) fun _ => .finish inner.draft addNone filename
  refine nextChild.bind fun table => ?_
  dsimp only
  split
  · exact (fail _).bind fun _ => hinner table
  · exact hinner table

theorem atLine {b : Build Unit} (h : Made stmts true b) (line : UInt32) :
    Made stmts true (atLine line b) := by
  refine .step (.ask fun _ _ => rfl) fun saved => ?_
  have hrest : Made stmts true (do b; Build.setLine saved) :=
    h.bind fun _ => .of (.setLine saved)
  dsimp only
  split
  · exact .step (.setLine line) fun _ => hrest
  · exact hrest

theorem deliver {b : Build Unit} (h : Made stmts true b) (line : UInt32) (dest : Dest) :
    Made stmts true (deliver line dest b) :=
  (h.atLine line).bind fun _ => .of (.test dest)

/-- A check in front of a build. -/
theorem check {c : Prop} [Decidable c] {b : Build α} {b' : Build β} (h : Made stmts true b)
    (h' : Made stmts true b') : Made stmts true (if c then b >>= fun _ => b' else b') := by
  split
  · exact h.bind fun _ => h'
  · exact h'

theorem comprehensionLoop {input target inner : Build Unit} {filters : BlockId → Build Unit}
    (innermost : Bool) (hinput : Made stmts true input) (htarget : Made stmts true target)
    (hfilters : ∀ cleanup, Made stmts true (filters cleanup)) (hinner : Made stmts true inner) :
    Made stmts true (comprehensionLoop input target filters innermost inner) := by
  refine .step .newBlock fun start => .step .newBlock fun skip => .step .newBlock fun cleanup =>
    .step .newBlock fun anchor => hinput.bind fun _ => .step (.fallInto start) fun _ =>
      .step (.emitJump _ _) fun _ => .step .nextBlock fun _ => htarget.bind fun _ =>
        (hfilters cleanup).bind fun _ => hinner.bind fun _ => ?_
  have hend : Made stmts true (do
      Build.fallInto cleanup
      Build.emitJump .jumpAbsolute start
      Build.fallInto anchor) :=
    .step (.fallInto _) fun _ => .step (.emitJump _ _) fun _ => .of (.fallInto _)
  dsimp only
  split
  · exact .step (.fallInto _) fun _ => hend
  · exact hend

section Dicts

variable {entries : List DictEntry}
  (h : ∀ e ∈ entries, Made stmts true e.key ∧ Made stmts true e.value)

include h

theorem buildEntries : Made stmts true (buildEntries entries) := by
  induction entries with
  | nil => exact pure ()
  | cons e entries ih =>
    obtain ⟨⟨hkey, hvalue⟩, hrest⟩ := List.forall_mem_cons.mp h
    exact hkey.bind fun _ => hvalue.bind fun _ => ih hrest

theorem buildValues : Made stmts true (buildValues entries) := by
  induction entries with
  | nil => exact pure ()
  | cons e entries ih =>
    obtain ⟨⟨_, hvalue⟩, hrest⟩ := List.forall_mem_cons.mp h
    exact hvalue.bind fun _ => ih hrest

theorem buildMap : Made stmts true (buildMap entries) := by
  have hplain (count : UInt32) : Made stmts true (do
      Build.buildEntries entries
      Build.emitArg .buildMap count) := (buildEntries h).bind fun _ => .of (.emitArg _ _)
  unfold Build.buildMap
  dsimp only
  split
  · split
    · exact (buildValues h).bind fun _ => .step (.loadConst _) fun _ => .of (.emitArg _ _)
    · exact hplain _
  · exact hplain _

omit h in
theorem extendMap (entries : List DictEntry)
    (h : ∀ e ∈ entries, Made stmts true e.key ∧ Made stmts true e.value) :
    Made stmts true (extendMap entries) := by
  fun_induction Build.extendMap entries with
  | case1 => exact pure ()
  | case2 entries _ ih =>
    exact (buildMap fun e he => h e (List.mem_of_mem_take he)).bind fun _ => .step (.emitArg _ _)
      fun _ => ih fun e he => h e (List.mem_of_mem_drop he)

theorem dictDisplay : Made stmts true (dictDisplay entries) :=
  (buildMap fun e he => h e (List.mem_of_mem_take he)).bind fun _ =>
    extendMap _ fun e he => h e (List.mem_of_mem_drop he)

end Dicts

theorem sequence {elements : Build Unit} (h : Made stmts true elements) (build : Opcode) (ctx : Ctx)
    (count : Nat) : Made stmts true (sequence build ctx count elements) := by
  cases ctx with
  | load => exact h.bind fun _ => .of (.emitArg _ _)
  | store => exact .step (.emitArg _ _) fun _ => h
  | del => exact h

theorem callWith {args values : Build Unit} (hargs : Made stmts true args)
    (hvalues : Made stmts true values) (extra argCount : Nat) (keywords : List String) :
    Made stmts true (callWith extra argCount args keywords values) := by
  refine hargs.bind fun _ => ?_
  dsimp only
  split
  · exact .of (.emitArg _ _)
  · exact hvalues.bind fun _ => .step (.loadConst _) fun _ => .of (.emitArg _ _)

end Made
end Build

open Build

-- One theorem for each of the functions that generate the code of expressions, by their recursion.

mutual

variable {stmts : Bool} (filename : String)

theorem Expr.made : (e : Expr) → (dest : Dest) → Made stmts true (e.lower filename dest)
  | .boolOp line op values, .push => by
    rw [Expr.lower]
    exact .atLine (.check (.fail _) (.step .newBlock fun done =>
      .bind (Expr.made_operands _ done values) fun _ => .of (.fallInto done))) line
  | .boolOp line op values, .jump target sense => by
    have hrest (inner : BlockId) : Made stmts true (do
        Expr.lowerTests filename inner (decide (op = .or)) target sense values
        if inner ≠ target then fallInto inner) := by
      refine .bind (Expr.made_tests inner _ target sense values) fun _ => ?_
      split
      · exact .of (.fallInto _)
      · exact .pure ()
    rw [Expr.lower]
    refine .check (.fail _) ?_
    change Made stmts true (if decide (op = .or) = sense then _ else _)
    split
    · exact .bind (.pure target) hrest
    · exact .step .newBlock hrest
  | .binOp line left op right, dest => by
    rw [Expr.lower]
    exact .deliver (.bind (Expr.made left .push) fun _ => .bind (Expr.made right .push) fun _ =>
      .of (.emit _)) line dest
  | .unaryOp line op operand, dest => by
    by_cases hnot : op = .not ∧ dest ≠ .push
    · obtain ⟨rfl, hdest⟩ := hnot
      cases dest with
      | push => exact absurd rfl hdest
      | jump target sense =>
        rw [Expr.lower]
        exact Expr.made operand _
    · rw [Expr.lower]
      · exact .deliver (.bind (Expr.made operand .push) fun _ => .of (.emit _)) line dest
      · rintro target sense rfl rfl
        exact hnot ⟨rfl, by simp⟩
  | .lambda line args body, dest => by
    rw [Expr.lower]
    exact .deliver (.bind (Arguments.made_defaults args) fun parts =>
      .bind (.inScope (.step (.internConstant _) fun _ => .bind (Expr.made body .push) fun _ =>
        .of .lambdaEpilog)) fun code => .of (.makeClosure code parts _)) line dest
  | .ifExp line test body orelse, .push => by
    rw [Expr.lower]
    exact .atLine (.step .newBlock fun done => .step .newBlock fun next =>
      .bind (Expr.made test _) fun _ => .bind (Expr.made body .push) fun _ =>
        .step (.emitJump _ _) fun _ => .step (.fallInto _) fun _ =>
          .bind (Expr.made orelse .push) fun _ => .of (.fallInto _)) line
  | .ifExp line test body orelse, .jump target sense => by
    rw [Expr.lower]
    exact .step .newBlock fun done => .step .newBlock fun next =>
      .bind (Expr.made test _) fun _ => .bind (Expr.made body _) fun _ =>
        .step (.emitJump _ _) fun _ => .step (.fallInto _) fun _ =>
          .bind (Expr.made orelse _) fun _ => .of (.fallInto _)
  | .dict line keys values, dest => by
    rw [Expr.lower]
    refine .deliver (.check (.fail _) (.dictDisplay fun entry hentry => ?_)) line dest
    rw [← List.map_uncurry_zip_eq_zipWith] at hentry
    obtain ⟨⟨_, key, value⟩, hmem, rfl⟩ := List.mem_map.mp hentry
    have hmem := (List.of_mem_zip hmem).2
    obtain ⟨hkey, hvalue⟩ := List.of_mem_zip (Array.toList_zip ▸ hmem)
    exact ⟨Expr.made_each keys #[] (by simp) key (Array.mem_toList_iff.mp hkey),
      Expr.made_each values #[] (by simp) value (Array.mem_toList_iff.mp hvalue)⟩
  | .set line elts, dest => by
    rw [Expr.lower]
    exact .deliver (.bind (Expr.made_all elts) fun _ => .of (.emitArg _ _)) line dest
  | .listComp line elt [], dest => by
    rw [Expr.lower]
    exact .deliver (.fail _) line dest
  | .listComp line elt (⟨target, iter, filters⟩ :: rest), dest => by
    rw [Expr.lower]
    have hinput : Made stmts true (do emitArg .loadFast (← internVarname ".0")) :=
      .of (.bind (.internVarname _) fun _ => .emitArg _ _)
    have hloop := Made.comprehensionLoop rest.isEmpty hinput (Expr.made target .push)
      (fun cleanup => Expr.made_filters cleanup filters)
      (Generator.made_inner (Expr.made elt .push) 1 rest)
    exact .deliver (.bind (.inScope (.step (.emitArg _ _) fun _ => hloop.bind fun _ =>
        .step (.emit _) fun _ => .pure true)) fun code =>
      .step (.makeClosure code _ _) fun _ => .bind (Expr.made iter .push) fun _ =>
        .step (.emit _) fun _ => .of (.emitArg _ _)) line dest
  | .yield line value, dest => by
    rw [Expr.lower]
    exact .deliver (.step (.ask fun _ _ => rfl) fun _ => .check (.refuse rfl)
      (.bind (Expr.made_orNone value) fun _ => .of (.emit _))) line dest
  | .compare line left ops comparators, dest => by
    have hl := Expr.made left .push
    have hlinks (jump : Opcode) (cleanup : BlockId) (last : CmpOp) (ops : List CmpOp) :=
      Expr.made_links jump cleanup last ops comparators
    by_cases hchain : ∃ op op' rest, ops = op :: op' :: rest ∧ dest ≠ .push
    · obtain ⟨op, op', rest, rfl, hdest⟩ := hchain
      cases dest with
      | push => exact absurd rfl hdest
      | jump target sense =>
        rw [Expr.lower]
        exact .check (.fail _) (.step .newBlock fun cleanup => hl.bind fun _ =>
          .bind (hlinks _ cleanup _ _) fun _ => .step (.test _) fun _ =>
            .of (.chainEnd (.chainFailed target sense) cleanup))
    by_cases hpair : ∃ op c, ops = [op] ∧ comparators = [c]
    · obtain ⟨op, c, rfl, rfl⟩ := hpair
      -- the only link of a chain
      have hlink := hlinks .nop 0 op []
      rw [Expr.lowerLinks] at hlink
      rw [Expr.lower]
      exact .deliver (hl.bind fun _ => hlink) line dest
    rw [Expr.lower]
    · refine .deliver (.check (.fail _) ?_) line dest
      split
      · exact .fail _
      · exact hl.bind fun _ => .step .newBlock fun cleanup =>
          .bind (hlinks _ cleanup _ _) fun _ =>
            .of (.chainEnd (.bind (.emit _) fun _ => .emit _) cleanup)
    · exact fun op c hops hcomparators => hpair ⟨op, c, hops, hcomparators⟩
    · rintro op op' rest target sense rfl rfl
      exact hchain ⟨op, op', rest, rfl, by simp⟩
  | .call line func args keywords, dest => by
    have hobject {l : UInt32} {object : Expr} {attr : String}
        (h : func = .attribute l object attr .load) :
        Made stmts true (object.lower filename .push) :=
      match func, h with
      | .attribute _ object _ _, rfl => Expr.made object .push
    by_cases hmethod : ∃ l object attr, func = .attribute l object attr .load ∧ keywords = []
    · obtain ⟨l, object, attr, rfl, rfl⟩ := hmethod
      rw [Expr.lower]
      exact .deliver ((hobject rfl).bind fun _ => .step (.emitName _ attr) fun _ =>
        .bind (Expr.made_all args) fun _ => .of (.emitArg _ _)) line dest
    · rw [Expr.lower]
      · exact .deliver (.bind (Expr.made func .push) fun _ =>
          .callWith (Expr.made_all args) (Keyword.made_values keywords) _ _ _) line dest
      · exact fun l object attr hf hk => hmethod ⟨l, object, attr, hf, hk⟩
  | .constant line c, dest => by
    rw [Expr.lower]
    exact .deliver (.of (.loadConst c)) line dest
  | .attribute line object attr ctx, dest => by
    rw [Expr.lower]
    exact .deliver (.bind (Expr.made object .push) fun _ => .of (.emitName _ attr)) line dest
  | .subscript line object index ctx, dest => by
    rw [Expr.lower]
    exact .deliver (.bind (Expr.made object .push) fun _ => .bind (Expr.made index .push)
      fun _ => .of (.emit _)) line dest
  | .slice line lower upper none, dest => by
    rw [Expr.lower]
    exact .deliver (.bind (Expr.made_orNone lower) fun _ => .bind (Expr.made_orNone upper)
      fun _ => .of (.emitArg _ _)) line dest
  | .slice line lower upper (some step), dest => by
    rw [Expr.lower]
    exact .deliver (.bind (Expr.made_orNone lower) fun _ => .bind (Expr.made_orNone upper)
      fun _ => .bind (Expr.made step .push) fun _ => .of (.emitArg _ _)) line dest
  | .name line x ctx, dest => by
    rw [Expr.lower]
    exact .deliver (.of (.accessName x ctx)) line dest
  | .list line elts ctx, dest => by
    rw [Expr.lower]
    exact .deliver (.sequence (Expr.made_all elts) _ ctx _) line dest
  | .tuple line elts ctx, dest => by
    rw [Expr.lower]
    exact .deliver (.sequence (Expr.made_all elts) _ ctx _) line dest

theorem Expr.made_all : (es : List Expr) → Made stmts true (Expr.lowerAll filename es)
  | [] => by
    rw [Expr.lowerAll]
    exact .pure ()
  | e :: es => by
    rw [Expr.lowerAll]
    exact .bind (Expr.made e .push) fun _ => Expr.made_all es

theorem Expr.made_each : (es : List Expr) → (out : Array (Build Unit)) →
    (∀ b ∈ out, Made stmts true b) → ∀ b ∈ Expr.lowerEach filename out es, Made stmts true b
  | [], out => by
    rw [Expr.lowerEach]
    exact id
  | e :: es, out => by
    rw [Expr.lowerEach]
    intro h
    refine Expr.made_each es _ fun b hb => ?_
    rcases Array.mem_push.mp hb with hb | rfl
    · exact h b hb
    · exact Expr.made e .push

theorem Expr.made_orNone : (x : Option Expr) → Made stmts true (Expr.lowerOrNone filename x)
  | none => by
    rw [Expr.lowerOrNone]
    exact .of (.loadConst .none)
  | some e => by
    rw [Expr.lowerOrNone]
    exact Expr.made e .push

theorem Expr.made_operands (jump : Opcode) (done : BlockId) : (es : List Expr) →
    Made stmts true (Expr.lowerOperands filename jump done es)
  | [] => by
    rw [Expr.lowerOperands]
    exact .pure ()
  | [e] => by
    rw [Expr.lowerOperands]
    exact Expr.made e .push
  | e :: e' :: es => by
    rw [Expr.lowerOperands]
    · exact .bind (Expr.made e .push) fun _ => .step (.emitJump jump done) fun _ =>
        .step .nextBlock fun _ => Expr.made_operands jump done (e' :: es)
    · simp

theorem Expr.made_tests (inner : BlockId) (decisive : Bool) (target : BlockId) (sense : Bool) :
    (es : List Expr) →
      Made stmts true (Expr.lowerTests filename inner decisive target sense es)
  | [] => by
    rw [Expr.lowerTests]
    exact .pure ()
  | [e] => by
    rw [Expr.lowerTests]
    exact Expr.made e _
  | e :: e' :: es => by
    rw [Expr.lowerTests]
    · exact .bind (Expr.made e _) fun _ =>
        Expr.made_tests inner decisive target sense (e' :: es)
    · simp

theorem Expr.made_links (jump : Opcode) (cleanup : BlockId) (last : CmpOp) :
    (ops : List CmpOp) → (es : List Expr) →
      Made stmts true (Expr.lowerLinks filename jump cleanup last ops es)
  | _, [] => by
    rw [Expr.lowerLinks]
    exact .pure ()
  | _, [e] => by
    rw [Expr.lowerLinks]
    exact .bind (Expr.made e .push) fun _ => .of (.emitCompare last)
  | [], e :: e' :: es => by
    rw [Expr.lowerLinks]
    · exact Expr.made_links jump cleanup last [] (e' :: es)
    · simp
  | op :: ops, e :: e' :: es => by
    rw [Expr.lowerLinks]
    · exact .bind (Expr.made e .push) fun _ => .step (.emit _) fun _ => .step (.emit _) fun _ =>
        .step (.emitCompare op) fun _ => .step (.emitJump jump cleanup) fun _ =>
          .step .nextBlock fun _ => Expr.made_links jump cleanup last ops (e' :: es)
    · simp

theorem Expr.made_filters (cleanup : BlockId) : (es : List Expr) →
    Made stmts true (Expr.lowerFilters filename cleanup es)
  | [] => by
    rw [Expr.lowerFilters]
    exact .pure ()
  | e :: es => by
    rw [Expr.lowerFilters]
    exact .bind (Expr.made e _) fun _ => .step .nextBlock fun _ => Expr.made_filters cleanup es

theorem Generator.made_inner {element : Build Unit} (h : Made stmts true element) (depth : Nat) :
    (gs : List Generator) → Made stmts true (Generator.lowerInner filename element depth gs)
  | [] => by
    rw [Generator.lowerInner]
    exact h.bind fun _ => .of (.emitArg _ _)
  | ⟨target, iter, filters⟩ :: rest => by
    rw [Generator.lowerInner]
    exact .comprehensionLoop rest.isEmpty (.bind (Expr.made iter .push) fun _ => .of (.emit _))
      (Expr.made target .push) (fun cleanup => Expr.made_filters cleanup filters)
      (Generator.made_inner h (depth + 1) rest)

theorem Keyword.made_values : (ks : List Keyword) →
    Made stmts true (Keyword.lowerValues filename ks)
  | [] => by
    rw [Keyword.lowerValues]
    exact .pure ()
  | ⟨_, value⟩ :: ks => by
    rw [Keyword.lowerValues]
    exact .bind (Expr.made value .push) fun _ => Keyword.made_values ks

theorem Expr.made_kwDefaults : (ps : List Param) → (xs : List (Option Expr)) →
    Made stmts true (Expr.lowerKwDefaults filename ps xs)
  | _ :: ps, some e :: xs => by
    rw [Expr.lowerKwDefaults]
    exact .bind (Expr.made e .push) fun _ => Expr.made_kwDefaults ps xs
  | _ :: ps, none :: xs => by
    rw [Expr.lowerKwDefaults]
    exact Expr.made_kwDefaults ps xs
  | [], _ | _ :: _, [] => by
    rw [Expr.lowerKwDefaults] <;> first | exact .pure () | simp

theorem Arguments.made_defaults : (a : Arguments) →
    Made stmts true (Arguments.lowerDefaults filename a)
  | ⟨posonly, params, vararg, kwonly, kwDefaults, kwarg, defaults⟩ => by
    have hkeys (keys : List String) (parts : FunctionParts) : Made stmts true (do
        Expr.lowerKwDefaults filename kwonly kwDefaults
        if !keys.isEmpty then
          loadConst (nameTuple keys)
          emitArg .buildConstKeyMap (UInt32.ofNat keys.length)
        return parts) :=
      .bind (Expr.made_kwDefaults kwonly kwDefaults) fun _ => .of (.defaultKeys keys parts)
    rw [Arguments.lowerDefaults]
    dsimp only
    split
    · exact .bind (Expr.made_all defaults) fun _ => .step (.emitArg _ _) fun _ => hkeys _ _
    · exact hkeys _ _

end

namespace Build.Made

variable {stmts : Bool} (o : Options)

theorem storeAll (filename : String) (ts : List Expr) : Made stmts true (storeAll filename ts) := by
  induction ts with
  | nil => exact .pure ()
  | cons t ts ih =>
    cases ts with
    | nil => exact t.made filename .push
    | cons t' ts =>
      exact .step (.emit _) fun _ => .bind (t.made filename .push) fun _ => ih

theorem augmentedAssign (filename : String) (target : Expr) (op : Operator) (value : Expr) :
    Made stmts true (augmentedAssign filename target op value) := by
  have hvalue : Made stmts true (value.lower filename .push) := value.made filename .push
  unfold Build.augmentedAssign
  split
  · next object attr _ =>
    exact .bind (object.made filename .push) fun _ => .step (.emit _) fun _ =>
      .step (.emitName _ attr) fun _ => hvalue.bind fun _ => .step (.emit _) fun _ =>
        .step (.emit _) fun _ => .of (.emitName _ attr)
  · next object index _ =>
    exact .bind (object.made filename .push) fun _ => .bind (index.made filename .push) fun _ =>
      .step (.emit _) fun _ => .step (.emit _) fun _ => hvalue.bind fun _ =>
        .step (.emit _) fun _ => .step (.emit _) fun _ => .of (.emit _)
  · next x _ =>
    exact .step (.accessName x _) fun _ => hvalue.bind fun _ => .step (.emit _) fun _ =>
      .of (.accessName x _)
  · exact .fail _

theorem raiseStatement (filename : String) (exc cause : Option Expr) :
    Made stmts true (raiseStatement filename exc cause) := by
  cases exc with
  | none => exact .of (.emitArg _ _)
  | some exc =>
    cases cause with
    | none => exact .bind (exc.made filename .push) fun _ => .of (.emitArg _ _)
    | some cause =>
      exact .bind (exc.made filename .push) fun _ => .bind (cause.made filename .push) fun _ =>
        .of (.emitArg _ _)

theorem assertStatement (test : Expr) (msg : Option Expr) :
    Made stmts true (assertStatement o test msg) := by
  unfold Build.assertStatement
  split
  · exact .skipChildren _
  · refine .step .newBlock fun done => .bind (test.made o.filename _) fun _ =>
      .step (.emit _) fun _ => ?_
    have hraise : Made stmts true (do
        Build.emitArg .raiseVarargs 1
        Build.fallInto done) := .step (.emitArg _ _) fun _ => .of (.fallInto done)
    cases msg with
    | none => exact hraise
    | some m =>
      exact .bind (m.made o.filename .push) fun _ => .step (.emitArg _ _) fun _ => hraise

theorem pushAnnotations (filename : String) (out : Array String) (ps : List Param) :
    Made stmts true (pushAnnotations filename out ps) := by
  induction ps generalizing out with
  | nil => exact .pure out
  | cons p ps ih =>
    obtain ⟨x, annotation⟩ := p
    cases annotation with
    | none => exact ih out
    | some e => exact .bind (e.made filename .push) fun _ => ih (out.push x)

theorem annotations (filename : String) (args : Arguments) (returns : Option Expr) :
    Made stmts true (annotations filename args returns) :=
  .bind (.pushAnnotations filename #[] _) fun keys => .of (.annotationKeys keys)

end Build.Made

section Parts

variable {stmts : Bool} {b : Build Unit}

/-- The test of an exception's type in front of a handler. -/
theorem made_typeTest (filename : String) (type : Option Expr) (next : BlockId)
    (h : Made stmts true b) : Made stmts true (match type with
      | some t => do
        emit .dupTop
        t.lower filename .push
        emitJump .jumpIfNotExcMatch next
        b
      | _ => b) := by
  cases type with
  | none => exact h
  | some t =>
    exact .step (.emit _) fun _ => .bind (t.made filename .push) fun _ =>
      .step (.emitJump _ _) fun _ => h

theorem made_namedHandler (x : String) (done : BlockId) (h : Made stmts true b) :
    Made stmts true (do
      let cleanup ← newBlock
      let inside ← newBlock
      accessName x .store
      emit .popTop
      emitJump .setupFinally cleanup
      fallInto inside
      b
      emit .popBlock
      emit .popExcept
      clearName x
      emitJump .jumpForward done
      fallInto cleanup
      clearName x
      emit .reraise) :=
  .step .newBlock fun _ => .step .newBlock fun _ => .step (.accessName _ _) fun _ =>
    .step (.emit _) fun _ => .step (.emitJump _ _) fun _ => .step (.fallInto _) fun _ =>
      h.bind fun _ => .step (.emit _) fun _ => .step (.emit _) fun _ =>
        .step (.clearName _) fun _ => .step (.emitJump _ _) fun _ => .step (.fallInto _) fun _ =>
          .step (.clearName _) fun _ => .of (.emit _)

theorem made_bareHandler (done : BlockId) (h : Made stmts true b) :
    Made stmts true (do
      let inside ← newBlock
      emit .popTop
      emit .popTop
      fallInto inside
      b
      emit .popExcept
      emitJump .jumpForward done) :=
  .step .newBlock fun _ => .step (.emit _) fun _ => .step (.emit _) fun _ =>
    .step (.fallInto _) fun _ => h.bind fun _ => .step (.emit _) fun _ => .of (.emitJump _ _)

/-- The copies of a final body, after the body they are for. -/
theorem made_finalBodies (final exit : BlockId) {b' : Build Unit} (h : Made stmts true b)
    (h' : Made stmts true b') : Made stmts true (do
      emit .popBlock
      b
      emitJump .jumpForward exit
      fallInto final
      b'
      emit .reraise
      fallInto exit) :=
  .step (.emit _) fun _ => h.bind fun _ => .step (.emitJump _ _) fun _ =>
    .step (.fallInto _) fun _ => h'.bind fun _ => .step (.emit _) fun _ => .of (.fallInto _)

end Parts

mutual

/-- A statement fails within itself, and so does all that is compiled inside it, copies of final
bodies among them. -/
theorem Stmt.made (o : Options) {bare : Bool} (frames : List Frame) (s : Stmt) :
    Made true bare (Stmt.lower o frames s) := by
  rw [Stmt.lower.eq_def]
  refine .inStatement s.line rfl ?_
  cases s with
  | functionDef line name args body decorators returns =>
    have hbody : Made true true (Stmt.lowerAll o [] (withoutDocstring o body)) :=
      Stmt.made_all o [] _
    exact .bind (Expr.made_all _ decorators) fun _ => .bind (Arguments.made_defaults _ args)
      fun parts => .bind (.annotations _ args returns) fun annotated =>
        .bind (.inScope (.step (.internConstant _) fun _ => hbody.bind fun _ => .pure true))
          fun code => .step (.makeClosure _ _ _) fun _ => .step (.repeatEmit _ _ _) fun _ =>
            .of (.accessName name _)
  | classDef line name bases keywords body decorators =>
    have hbody : Made true true (Stmt.lowerAll o [] (withoutDocstring o body)) :=
      Stmt.made_all o [] _
    have hkeywords : Made true true (Keyword.lowerValues o.filename keywords) :=
      Keyword.made_values _ keywords
    exact .bind (Expr.made_all _ decorators) fun _ => .bind (.inScope (.step .classProlog fun _ =>
      .step (.bindDocstring o body) fun _ => hbody.bind fun _ => .step .classEpilog fun _ =>
        .pure true)) fun code => .step (.emit _) fun _ => .step (.makeClosure _ _ _) fun _ =>
          .step (.loadConst _) fun _ =>
            .bind (.callWith (Expr.made_all _ bases) hkeywords _ _ _) fun _ =>
              .step (.repeatEmit _ _ _) fun _ => .of (.accessName name _)
  | ret line value =>
    have hunwind (keep : Bool) := Frame.made_unwind o keep false frames
    refine .step (.ask fun _ _ => rfl) fun _ => .check (.refuse rfl) ?_
    cases value with
    | none => exact (hunwind false).bind fun _ => .step (.loadConst _) fun _ => .of (.emit _)
    | some e =>
      have he : Made true true (e.lower o.filename .push) := e.made o.filename .push
      dsimp only
      split
      · exact (hunwind false).bind fun _ => he.bind fun _ => .of (.emit _)
      · exact he.bind fun _ => (hunwind true).bind fun _ => .of (.emit _)
  | delete line targets => exact Expr.made_all _ targets
  | assign line targets value =>
    exact .bind (value.made _ .push) fun _ => .storeAll _ targets
  | augAssign line target op value => exact .augmentedAssign _ target op value
  | raise line exc cause => exact .raiseStatement _ exc cause
  | assert line test msg => exact .assertStatement o test msg
  | importNames line names => exact .of (.importAll names)
  | importFrom line origin names level => exact .of (.importFrom origin names level)
  | «global» | «nonlocal» | pass => exact .pure ()
  | expr line value =>
    dsimp only
    split
    · exact .of (.emit _)
    · exact .bind (value.made _ .push) fun _ => .of (.emit _)
  | breakLoop line =>
    refine .bind (Frame.made_unwind o false true frames) fun f => ?_
    split
    · exact .of (.emitJump _ _)
    · exact .step (.emit _) fun _ => .of (.emitJump _ _)
    · exact .refuse rfl
  | continueLoop line =>
    refine .bind (Frame.made_unwind o false true frames) fun f => ?_
    split
    · exact .of (.emitJump _ _)
    · exact .of (.emitJump _ _)
    · exact .refuse rfl
  | forLoop line target iter body orelse =>
    have hbody (start done : BlockId) : Made true true
        (Stmt.lowerAll o (.forLoop start done :: frames) body) := Stmt.made_all o _ body
    have horelse : Made true true (Stmt.lowerAll o frames orelse) := Stmt.made_all o frames orelse
    exact .step .newBlock fun start => .step .newBlock fun cleanup => .step .newBlock fun done =>
      .bind (iter.made _ .push) fun _ => .step (.emit _) fun _ => .step (.fallInto _) fun _ =>
        .step (.emitJump _ _) fun _ => .bind (target.made _ .push) fun _ =>
          (hbody start done).bind fun _ => .step (.emitJump _ _) fun _ => .step (.fallInto _)
            fun _ => horelse.bind fun _ => .of (.fallInto done)
  | whileLoop line test body orelse =>
    have hbody (start done : BlockId) : Made true true
        (Stmt.lowerAll o (.whileLoop start done :: frames) body) := Stmt.made_all o _ body
    have horelse : Made true true (Stmt.lowerAll o frames orelse) := Stmt.made_all o frames orelse
    exact .step .newBlock fun start => .step .newBlock fun done => .step .newBlock fun anchor =>
      .step (.fallInto _) fun _ => .bind (test.made _ _) fun _ => (hbody start done).bind fun _ =>
        .step (.emitJump _ _) fun _ => .step (.fallInto _) fun _ => horelse.bind fun _ =>
          .of (.fallInto done)
  | ifElse line test body orelse =>
    have hbody : Made true true (Stmt.lowerAll o frames body) := Stmt.made_all o frames body
    have horelse : Made true true (Stmt.lowerAll o frames orelse) := Stmt.made_all o frames orelse
    cases orelse with
    | nil =>
      exact .step .newBlock fun done => .bind (test.made _ _) fun _ => hbody.bind fun _ =>
        .of (.fallInto done)
    | cons s ss =>
      exact .step .newBlock fun done => .step .newBlock fun next => .bind (test.made _ _) fun _ =>
        hbody.bind fun _ => .step (.emitJump _ _) fun _ => .step (.fallInto _) fun _ =>
          horelse.bind fun _ => .of (.fallInto done)
  | tryExcept line body handlers orelse finalbody =>
    cases finalbody with
    | nil => exact Stmt.made_try o frames body handlers orelse
    | cons s ss =>
      have hcopy : Made true true (Stmt.lowerAll o frames (s :: ss)) :=
        Stmt.made_all o frames (s :: ss)
      have hexceptional : Made true true (Stmt.lowerAll o (.finallyEnd :: frames) (s :: ss)) :=
        Stmt.made_all o (.finallyEnd :: frames) (s :: ss)
      have hplain : Made true true (Stmt.lowerAll o (.finallyTry (s :: ss) :: frames) body) :=
        Stmt.made_all o (.finallyTry (s :: ss) :: frames) body
      have htry : Made true true
          (Stmt.lowerTry o (.finallyTry (s :: ss) :: frames) body handlers orelse) :=
        Stmt.made_try o (.finallyTry (s :: ss) :: frames) body handlers orelse
      refine .step .newBlock fun inside => .step .newBlock fun final => .step .newBlock fun exit =>
        .step (.emitJump _ _) fun _ => .step (.fallInto _) fun _ => ?_
      have hend := made_finalBodies final exit hcopy hexceptional
      dsimp only
      split
      · exact hplain.bind fun _ => hend
      · exact htry.bind fun _ => hend
termination_by s.weight + Frame.weightOfAll frames
decreasing_by
  all_goals
    subst_vars
    simp only [Stmt.weight, Frame.weight, Frame.weightOfAll]
    first
    | omega
    | have := weightOfAll_withoutDocstring_le o body
      omega

theorem Stmt.made_all (o : Options) {bare : Bool} (frames : List Frame) (ss : List Stmt) :
    Made true bare (Stmt.lowerAll o frames ss) := by
  cases ss with
  | nil =>
    rw [Stmt.lowerAll]
    exact .pure ()
  | cons s ss =>
    rw [Stmt.lowerAll]
    exact .bind (Stmt.made o frames s) fun _ => Stmt.made_all o frames ss
termination_by Stmt.weightOfAll ss + Frame.weightOfAll frames
decreasing_by
  all_goals
    subst_vars
    simp only [Stmt.weightOfAll]
    omega

theorem Stmt.made_try (o : Options) (frames : List Frame) (body : List Stmt)
    (handlers : List Handler) (orelse : List Stmt) :
    Made true true (Stmt.lowerTry o frames body handlers orelse) := by
  have hbody : Made true true (Stmt.lowerAll o (.tryExcept :: frames) body) :=
    Stmt.made_all o (.tryExcept :: frames) body
  have horelse : Made true true (Stmt.lowerAll o frames orelse) := Stmt.made_all o frames orelse
  rw [Stmt.lowerTry]
  exact .step .newBlock fun inside => .step .newBlock fun except => .step .newBlock
    fun otherwise => .step .newBlock fun done => .step (.emitJump _ _) fun _ =>
      .step (.fallInto _) fun _ => hbody.bind fun _ => .step (.emit _) fun _ =>
        .step (.emitJump _ _) fun _ => .step (.fallInto _) fun _ =>
          .bind (Handler.made_all o (.exceptionHandler :: frames) done handlers) fun _ =>
            .step (.emit _) fun _ => .step (.fallInto _) fun _ => horelse.bind fun _ =>
              .of (.fallInto done)
termination_by Stmt.weightOfAll body + Handler.weightOfAll handlers + Stmt.weightOfAll orelse +
  Frame.weightOfAll frames + 2
decreasing_by
  all_goals first
  | omega
  | simp only [Frame.weight, Frame.weightOfAll]
    omega

theorem Handler.made_all (o : Options) (frames : List Frame) (done : BlockId)
    (hs : List Handler) : Made true true (Handler.lowerAll o frames done hs) := by
  match hs with
  | [] =>
    rw [Handler.lowerAll]
    exact .pure ()
  | ⟨type, name, body, line⟩ :: rest =>
    have hbody (x : Option String) : Made true true
        (Stmt.lowerAll o (.handlerCleanup x :: frames) body) :=
      Stmt.made_all o (.handlerCleanup x :: frames) body
    have hnext (next : BlockId) : Made true true (do
        fallInto next
        Handler.lowerAll o frames done rest) :=
      .step (.fallInto next) fun _ => Handler.made_all o frames done rest
    rw [Handler.lowerAll]
    refine .check (.refuse rfl) (.step (.setLine line) fun _ => .step .newBlock fun next => ?_)
    cases name with
    | some x =>
      have h := Made.step (.emit .popTop) fun _ =>
        (made_namedHandler x done (hbody (some x))).bind fun _ => hnext next
      simp only [bind_assoc] at h
      exact made_typeTest o.filename type next h
    | none =>
      have h := Made.step (.emit .popTop) fun _ =>
        (made_bareHandler done (hbody none)).bind fun _ => hnext next
      simp only [bind_assoc] at h
      exact made_typeTest o.filename type next h
termination_by Handler.weightOfAll hs + Frame.weightOfAll frames
decreasing_by
  all_goals
    simp only [Handler.weightOfAll, Frame.weight, Frame.weightOfAll]
    omega

theorem Frame.made_unwind (o : Options) (keep toLoop : Bool) (frames : List Frame) :
    Made true true (Frame.unwind o keep toLoop frames) := by
  cases frames with
  | nil =>
    rw [Frame.unwind]
    exact .pure none
  | cons f outer =>
    have houter := Frame.made_unwind o keep toLoop outer
    rw [Frame.unwind]
    split
    · exact .pure (some f)
    · refine .step (.leave f keep) fun _ => ?_
      cases f with
      | finallyTry finalbody =>
        have hbody : Made true true
            (Stmt.lowerAll o (if keep then .popValue :: outer else outer) finalbody) :=
          Stmt.made_all o (if keep then .popValue :: outer else outer) finalbody
        exact .step (.ask fun _ _ => rfl) fun saved => hbody.bind fun _ =>
          .step (.setLine saved) fun _ => houter
      | _ => exact houter
termination_by Frame.weightOfAll frames
decreasing_by
  · subst_vars
    have := Frame.weight_pos f
    simp only [Frame.weightOfAll]
    omega
  · subst_vars
    cases keep <;> simp [Frame.weightOfAll, Frame.weight]
    omega

end

end Wordcode
