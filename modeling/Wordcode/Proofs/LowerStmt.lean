import Wordcode.Proofs.LowerExpr

/-!
# Builds of statements and programs

The builds of statements, handlers and unwindings follow their schemes, by the recursion by which
they are defined. So a program that compiles has written the script of its scheme.
-/

set_option autoImplicit false

namespace Wordcode

open Build
open Step (value branch simple)

section Parts

variable {o : Options} {d : Draft}

theorem tryCatch_run (b : Build Unit) (line : UInt32) (s : Session) :
    (tryCatch b fun e => do throw (e.withContext (← ask (·.qualname)) line)) s =
      match b s with
      | .ok a s' => .ok a s'
      | .error e s' => .error (e.withContext s'.draft.qualname line) s' := by
  change EStateM.tryCatch b _ s = _
  unfold EStateM.tryCatch
  cases b s <;> rfl

theorem follows_inStatement {line : UInt32} {b : Build Unit} {steps : List Step}
    (h : Follows o d b steps ()) : Follows o d (inStatement line b) steps () := by
  refine .silent (follows_setLine line) ⟨?_, ?_, ?_⟩
  · intro s a s' hs hrun
    rw [tryCatch_run] at hrun
    split at hrun
    · next hb =>
      cases hrun
      exact h.ok hs hb
    · cases hrun
  · intro s e s' f hs hrun hf hcode
    rw [tryCatch_run] at hrun
    split at hrun
    · cases hrun
    · next hb =>
      cases hrun
      rw [CompileError.fault?_withContext] at hf
      exact h.err hs hb hf hcode
  · intro s e s' hs hrun
    rw [tryCatch_run] at hrun
    split at hrun
    · cases hrun
    · next hb =>
      cases hrun
      rw [CompileError.ofBookkeeping_withContext]
      exact h.kind hs hb

theorem follows_storeAll (ts : List Expr) :
    Follows o d (storeAll o.filename ts) [.run (.storeAll ts)] () := by
  induction ts with
  | nil => exact .task rfl fun n => .of_follows (.pure ())
  | cons t ts ih =>
    have ht := t.lowers o d .push
    refine .task rfl fun n => .of_follows ?_
    cases ts with
    | nil => exact ht
    | cons t' ts => exact .cons (follows_emit _) (.cons ht ih)

theorem follows_augmentedAssign (target : Expr) (op : Operator) (e : Expr) :
    Follows o d (augmentedAssign o.filename target op e) (augmentedSteps d op e target) () := by
  have he := e.lowers o d .push
  unfold augmentedAssign
  split
  · exact .cons (Expr.lowers o _ d .push) (.cons (follows_emit _)
      (.cons (follows_emitName _ (fun _ => rfl) rfl) (.cons he (.cons (follows_emit _)
        (.cons (follows_emit _) (follows_emitName _ (fun _ => rfl) rfl))))))
  · exact .cons (Expr.lowers o _ d .push) (.cons (Expr.lowers o _ d .push) (.cons (follows_emit _)
      (.cons (follows_emit _) (.cons he (.cons (follows_emit _) (.cons (follows_emit _)
        (follows_emit _)))))))
  · exact .cons (follows_accessName _ _) (.cons he (.cons (follows_emit _)
      (follows_accessName _ _)))
  · exact .throw rfl rfl _ _

theorem follows_raiseStatement (exc cause : Option Expr) :
    Follows o d (raiseStatement o.filename exc cause) (raiseSteps exc cause) () := by
  unfold raiseStatement
  split
  · exact follows_emitArg _ _ rfl
  · exact .cons (Expr.lowers o _ d .push) (follows_emitArg _ _ rfl)
  · exact .cons (Expr.lowers o _ d .push) (.cons (Expr.lowers o _ d .push) (follows_emitArg _ _ rfl))

theorem follows_importParts (parts : List String) :
    Follows o d (importParts parts) (importPartSteps parts) () := by
  induction parts with
  | nil => exact .pure ()
  | cons part rest ih =>
    cases rest with
    | nil => exact follows_emitName part (fun _ => rfl) rfl
    | cons part' rest =>
      exact .cons (follows_emitName part (fun _ => rfl) rfl) (.cons (follows_emit _)
        (.cons (follows_emit _) ih))

theorem follows_bindImport (a : Alias) : Follows o d (bindImport a) (bindImportSteps d a) () := by
  unfold bindImport bindImportSteps
  cases a.asname with
  | none => exact follows_accessName _ _
  | some asname =>
    cases (dottedParts a.name).tail with
    | nil => exact follows_accessName _ _
    | cons part parts =>
      exact (follows_importParts _).append (.cons (follows_accessName _ _) (follows_emit _))

theorem follows_importAll (names : List Alias) :
    Follows o d (importAll names) (importSteps d names) () := by
  induction names with
  | nil => exact .pure ()
  | cons a rest ih =>
    simp only [importSteps, List.flatMap_cons, List.append_assoc]
    exact .cons (follows_loadConst _) (.cons (follows_loadConst _)
      (.cons (follows_emitName _ (fun _ => rfl) rfl) ((follows_bindImport a).append ih)))

theorem follows_bindFrom (names : List Alias) :
    Follows o d (bindFrom names) (bindFromSteps d names) () := by
  induction names with
  | nil => exact .pure ()
  | cons a rest ih =>
    exact .cons (follows_emitName _ (fun _ => rfl) rfl) (.cons (follows_accessName _ _) ih)

theorem follows_importFrom (origin : Option String) (names : List Alias) (level : UInt32) :
    Follows o d (importFrom origin names level) (importFromSteps d origin names level) () := by
  refine .cons (follows_loadConst _) (.cons (follows_loadConst _)
    (.cons (follows_emitName _ (fun _ => rfl) rfl) ?_))
  split
  · exact follows_emit _
  · exact (follows_bindFrom names).append (follows_emit _)

theorem follows_pushAnnotations (out : Array String) (ps : List Param) :
    Follows o d (pushAnnotations o.filename out ps)
      [.run (.all ((ps.filterMap fun p => p.annotation.map (p.name, ·)).map Prod.snd))]
      (out ++ (ps.filterMap fun p => p.annotation.map (p.name, ·)).map Prod.fst) := by
  induction ps generalizing out with
  | nil =>
    simp only [List.filterMap_nil, List.map_nil, Array.appendList_nil]
    exact .task rfl fun n => .of_follows (.pure out)
  | cons p ps ih =>
    obtain ⟨x, annotation⟩ := p
    cases annotation with
    | none => exact ih out
    | some e =>
      have hrest := ih (out.push x)
      simp only [List.filterMap_cons, Option.map_some, List.map_cons, Array.appendList_cons]
      exact .task rfl fun n => .of_follows (.cons (e.lowers o d .push) hrest)

theorem follows_leave (f : Frame) (keep : Bool) :
    Follows o d (leave f keep) (leaveSteps d keep f) () := by
  cases f with
  | whileLoop | exceptionHandler => exact .pure ()
  | forLoop | popValue =>
    cases keep with
    | false => exact follows_emit _
    | true => exact .cons (follows_emit _) (follows_emit _)
  | tryExcept | finallyTry => exact follows_emit _
  | finallyEnd =>
    have hthree : Follows o d (repeatEmit .popTop 0 3) _ () :=
      follows_repeatEmit .popTop 0 3 (.inr rfl)
    cases keep with
    | false => exact hthree.append (follows_emit _)
    | true =>
      exact .cons (follows_emit _) (hthree.append (.cons (follows_emit _) (follows_emit _)))
  | handlerCleanup x =>
    cases x with
    | none =>
      cases keep with
      | false => exact .cons (follows_emit _) (.pure ())
      | true => exact .cons (follows_emit _) (.cons (follows_emit _) (.pure ()))
    | some x =>
      cases keep with
      | false => exact .cons (follows_emit _) (.cons (follows_emit _) (follows_clearName x))
      | true =>
        exact .cons (follows_emit _) (.cons (follows_emit _) (.cons (follows_emit _)
          (follows_clearName x)))

theorem follows_annotations (args : Arguments) (returns : Option Expr) :
    Follows o d (annotations o.filename args returns) (args.annotationSteps returns)
      (!(args.annotated returns).isEmpty) := by
  refine .cons (follows_pushAnnotations #[] _) ?_
  rw [show (#[] : Array String) ++ List.map Prod.fst _ =
    ((args.annotated returns).map Prod.fst).toArray by simp [Arguments.annotated]]
  simp only [List.isEmpty_toArray, List.isEmpty_map, List.size_toArray, List.length_map]
  cases (args.annotated returns).isEmpty with
  | true => exact .pure _
  | false => exact .cons (follows_loadConst _) (.cons (follows_emitArg _ _ rfl) (.pure _))

theorem Arguments.lowers (o : Options) (a : Arguments) : a.Lowers o :=
  ⟨fun e _ => e.lowers o, fun e _ => e.lowers o⟩

theorem follows_bindDocstring (body : List Stmt) :
    Follows o d (bindDocstring o body) (docSteps o d body) () := by
  unfold bindDocstring docSteps
  cases keptDocstring? o body with
  | none => exact .pure ()
  | some doc =>
    have hbind : Follows o d (do loadConst (.str doc); accessName "__doc__" .store)
        [.load (.str doc), Step.name d "__doc__" .store] () :=
      .cons (follows_loadConst _) (follows_accessName _ _)
    cases body.head? with
    | none => exact hbind
    | some s => exact .silent (follows_setLine _) hbind

theorem follows_classProlog : Follows o d classProlog
    [Step.name d "__name__" .load, Step.name d "__module__" .store, .load (.str d.qualname),
      Step.name d "__qualname__" .store] () :=
  .cons (follows_accessName _ _) (.cons (follows_accessName _ _) (.ask (fun _ => rfl)
    (.cons (follows_loadConst _) (follows_accessName _ _))))

theorem follows_classEpilog : Follows o d classEpilog
    ((if d.needsClassCell then
      [.named .loadClosure Draft.classCell, simple .dupTop, Step.name d "__classcell__" .store]
      else [.load .none]) ++ [simple .returnValue]) () := by
  refine .silent follows_restamp (.ask (fun _ => rfl) ?_)
  cases d.needsClassCell with
  | false => exact .cons (follows_loadConst _) (follows_emit _)
  | true =>
    have hcell := (finds_derefSlot .loadClosure (d := d) Draft.classCell
      fun _ => rfl).follows (o := o) rfl
    have hrest : Follows o d (do
        emit .dupTop
        accessName "__classcell__" .store
        emit .returnValue)
        [simple .dupTop, Step.name d "__classcell__" .store, simple .returnValue] () :=
      .cons (follows_emit _) (.cons (follows_accessName _ _) (follows_emit _))
    have h := hcell.seq hrest
    rw [bind_assoc] at h
    exact h

theorem mem_of_mem_withoutDocstring {body : List Stmt} {s : Stmt}
    (h : s ∈ withoutDocstring o body) : s ∈ body := by
  unfold withoutDocstring at h
  split at h
  · exact List.mem_of_mem_tail h
  · exact h

theorem follows_functionBody {body : List Stmt}
    (h : Follows o d (Stmt.lowerAll o [] (withoutDocstring o body))
      [.run (.stmts [] (withoutDocstring o body))] ()) :
    Follows o d ((Body.function body).build o) ((Body.function body).steps o d) true :=
  follows_internConstant _ fun _ => .cons h (.pure _)

theorem follows_classBody {body : List Stmt}
    (h : Follows o d (Stmt.lowerAll o [] (withoutDocstring o body))
      [.run (.stmts [] (withoutDocstring o body))] ()) :
    Follows o d ((Body.classBody body).build o) ((Body.classBody body).steps o d) true := by
  simp only [Body.steps, List.append_assoc]
  exact follows_classProlog.append ((follows_bindDocstring body).append
    (.cons h ((follows_classEpilog.append (.pure true)).of_eq rfl (List.append_nil _).symm)))

/-- The test of an exception's type in front of a handler. -/
theorem follows_typeTest {type : Option Expr} {n : BlockId} {b : Build Unit} {steps : List Step}
    (h : Follows o d b steps ()) :
    Follows o d (match type with
      | some t => do
        emit .dupTop
        t.lower o.filename .push
        emitJump .jumpIfNotExcMatch n
        b
      | _ => b)
      ((match type with
        | none => []
        | some t => [simple .dupTop, value t, .jump .jumpIfNotExcMatch n]) ++ steps) () := by
  cases type with
  | none => exact h
  | some t =>
    exact .cons (follows_emit _) (.cons (t.lowers o d .push) (.cons (follows_emitJump _ _ rfl) h))

end Parts

mutual

theorem Stmt.lowers (o : Options) (frames : List Frame) (s : Stmt) (d : Draft) :
    Follows o d (Stmt.lower o frames s) [.run (.stmt frames s)] () := by
  rw [Stmt.lower.eq_def]
  refine follows_inStatement ?_
  cases s with
  | functionDef line name args body decorators returns =>
    refine .task rfl fun n => .of_follows ?_
    simp only [Task.steps, Stmt.steps, List.append_assoc]
    refine .cons (follows_all fun e _ => e.lowers o) ?_
    refine (follows_defaults (args.lowers o)).append ((follows_annotations args returns).append ?_)
    exact follows_closure (.function body)
      (fun d' => follows_functionBody (Stmt.lowersAll o [] (withoutDocstring o body) d'))
      ((follows_repeatEmit _ _ _ (.inl rfl)).append (follows_accessName _ _))
  | classDef line name bases keywords body decorators =>
    refine .task rfl fun n => .of_follows ?_
    simp only [Task.steps, Stmt.steps, List.append_assoc]
    refine .cons (follows_all fun e _ => e.lowers o) ?_
    refine follows_inScope (.classBody body) (some name)
      (fun d' => follows_classBody (Stmt.lowersAll o [] (withoutDocstring o body) d'))
      (follows_emit .loadBuildClass) (.cons (follows_loadConst _) ?_) rfl
    exact (follows_callWith (fun e _ => e.lowers o) fun k _ => k.value.lowers o).append
      ((follows_repeatEmit _ _ _ (.inl rfl)).append (follows_accessName _ _))
  | ret line e =>
    refine .task rfl fun n => .of_follows (.ask (fun _ => rfl) (.guard rfl rfl fun _ => ?_))
    have hkeep := Frame.lowersUnwind o true false frames d
    have hdrop := Frame.lowersUnwind o false false frames d
    cases e with
    | none => exact .cons hdrop (.cons (follows_loadConst _) (follows_emit _))
    | some e =>
      simp only [Task.steps, Stmt.steps]
      split
      · exact .cons hdrop (.cons (e.lowers o d .push) (follows_emit _))
      · exact .cons (e.lowers o d .push) (.cons hkeep (follows_emit _))
  | delete line targets =>
    exact .task rfl fun n => .of_follows (follows_all fun e _ => e.lowers o)
  | assign line targets e =>
    exact .task rfl fun n => .of_follows (.cons (e.lowers o d .push) (follows_storeAll targets))
  | augAssign line target op e =>
    exact .task rfl fun n => .of_follows (follows_augmentedAssign target op e)
  | raise line exc cause =>
    exact .task rfl fun n => .of_follows (follows_raiseStatement exc cause)
  | assert line test msg =>
    cases ho : o.stripsAsserts with
    | true =>
      simp only [assertStatement, ho, if_true]
      exact follows_skipChildren ho
    | false =>
      have hskip : Task.skipCount o (.stmt frames (.assert line test msg)) = 0 := by
        rw [Task.skipCount, ho]
        rfl
      refine .task_of (fun _ _ => trivial) hskip fun n => ?_
      simp only [Task.labelCount, Stmt.labelCount, Task.steps, Stmt.steps, assertStatement, ho,
        Bool.false_eq_true, if_false]
      refine .newBlock (.of_follows (.cons (test.lowers o d _) (.cons (follows_emit _) ?_)))
      cases msg with
      | none => exact .cons (follows_emitArg _ _ rfl) (follows_fallInto _)
      | some m =>
        exact .cons (m.lowers o d .push) (.cons (follows_emitArg _ _ rfl) (.cons (follows_emitArg _ _ rfl)
          (follows_fallInto _)))
  | importNames line names => exact .task rfl fun n => .of_follows (follows_importAll names)
  | importFrom line origin names level =>
    exact .task rfl fun n => .of_follows (follows_importFrom origin names level)
  | «global» | «nonlocal» | pass => exact .task rfl fun n => .of_follows (.pure ())
  | expr line e =>
    refine .task rfl fun n => .of_follows ?_
    simp only [Task.steps, Stmt.steps]
    split
    · exact follows_emit _
    · exact .cons (e.lowers o d .push) (follows_emit _)
  | breakLoop line =>
    refine .task rfl fun n => .of_follows (.cons (Frame.lowersUnwind o false true frames d) ?_)
    rw [if_pos rfl]
    cases frames.find? Frame.isLoop with
    | none => exact .throw rfl rfl _ _
    | some f =>
      cases f with
      | whileLoop => exact follows_emitJump _ _ rfl
      | forLoop => exact .cons (follows_emit _) (follows_emitJump _ _ rfl)
      | _ => exact .throw rfl rfl _ _
  | continueLoop line =>
    refine .task rfl fun n => .of_follows (.cons (Frame.lowersUnwind o false true frames d) ?_)
    rw [if_pos rfl]
    cases frames.find? Frame.isLoop with
    | none => exact .throw rfl rfl _ _
    | some f =>
      cases f with
      | whileLoop | forLoop => exact follows_emitJump _ _ rfl
      | _ => exact .throw rfl rfl _ _
  | forLoop line target iter body orelse =>
    refine .task rfl fun n => .newBlock (.newBlock (.newBlock (.of_follows ?_)))
    exact .cons (iter.lowers o d .push) (.cons (follows_emit _) (.cons (follows_fallInto _)
      (.cons (follows_emitJump _ _ rfl) (.cons (target.lowers o d .push)
        (.cons (Stmt.lowersAll o _ body d) (.cons (follows_emitJump _ _ rfl) (.cons (follows_fallInto _)
          (.cons (Stmt.lowersAll o frames orelse d) (follows_fallInto _)))))))))
  | whileLoop line test body orelse =>
    refine .task rfl fun n => .newBlock (.newBlock (.newBlock (.of_follows ?_)))
    exact .cons (follows_fallInto _) (.cons (test.lowers o d _) (.cons (Stmt.lowersAll o _ body d)
      (.cons (follows_emitJump _ _ rfl) (.cons (follows_fallInto _)
        (.cons (Stmt.lowersAll o frames orelse d) (follows_fallInto _))))))
  | ifElse line test body orelse =>
    cases orelse with
    | nil =>
      refine .task rfl fun n => .newBlock (.of_follows ?_)
      exact .cons (test.lowers o d _) (.cons (Stmt.lowersAll o frames body d) (follows_fallInto _))
    | cons s ss =>
      refine .task rfl fun n => .newBlock (.newBlock (.of_follows ?_))
      exact .cons (test.lowers o d _) (.cons (Stmt.lowersAll o frames body d)
        (.cons (follows_emitJump _ _ rfl) (.cons (follows_fallInto _)
          (.cons (Stmt.lowersAll o frames (s :: ss) d) (follows_fallInto _)))))
  | tryExcept line body handlers orelse finalbody =>
    cases finalbody with
    | nil => exact .task rfl fun n => .of_follows (Stmt.lowersTry o frames body handlers orelse d)
    | cons s ss =>
      refine .task rfl fun n => .newBlock (.newBlock (.newBlock (.of_follows ?_)))
      refine .cons (follows_emitJump _ _ rfl) (.cons (follows_fallInto _) ?_)
      have hrest : Follows o d (do
          emit .popBlock
          Stmt.lowerAll o frames (s :: ss)
          emitJump .jumpForward (n + 2)
          fallInto (n + 1)
          Stmt.lowerAll o (.finallyEnd :: frames) (s :: ss)
          emit .reraise
          fallInto (n + 2))
          [simple .popBlock, .run (.stmts frames (s :: ss)), .jump .jumpForward (n + 2),
            .label (n + 1), .run (.stmts (.finallyEnd :: frames) (s :: ss)), simple .reraise,
            .label (n + 2)] () :=
        .cons (follows_emit _) (.cons (Stmt.lowersAll o frames (s :: ss) d)
          (.cons (follows_emitJump _ _ rfl) (.cons (follows_fallInto _)
            (.cons (Stmt.lowersAll o (.finallyEnd :: frames) (s :: ss) d)
              (.cons (follows_emit _) (follows_fallInto _))))))
      cases handlers with
      | nil => exact .cons (Stmt.lowersAll o (.finallyTry (s :: ss) :: frames) body d) hrest
      | cons h hs =>
        exact .cons (Stmt.lowersTry o (.finallyTry (s :: ss) :: frames) body (h :: hs) orelse d)
          hrest
termination_by s.weight + Frame.weightOfAll frames
decreasing_by
  all_goals
    subst_vars
    simp only [Stmt.weight, Frame.weight, Frame.weightOfAll]
    first
    | omega
    | have := weightOfAll_withoutDocstring_le o body
      omega

theorem Stmt.lowersAll (o : Options) (frames : List Frame) (ss : List Stmt) (d : Draft) :
    Follows o d (Stmt.lowerAll o frames ss) [.run (.stmts frames ss)] () := by
  cases ss with
  | nil =>
    rw [Stmt.lowerAll]
    exact .task rfl fun n => .of_follows (.pure ())
  | cons s ss =>
    rw [Stmt.lowerAll]
    exact .task rfl fun n => .of_follows (.cons (Stmt.lowers o frames s d)
      (Stmt.lowersAll o frames ss d))
termination_by Stmt.weightOfAll ss + Frame.weightOfAll frames
decreasing_by
  all_goals
    subst_vars
    simp only [Stmt.weightOfAll]
    omega

theorem Stmt.lowersTry (o : Options) (frames : List Frame) (body : List Stmt)
    (handlers : List Handler) (orelse : List Stmt) (d : Draft) :
    Follows o d (Stmt.lowerTry o frames body handlers orelse)
      [.run (.tryExcept frames body handlers orelse)] () := by
  rw [Stmt.lowerTry]
  refine .task rfl fun n => .newBlock (.newBlock (.newBlock (.newBlock (.of_follows ?_))))
  exact .cons (follows_emitJump _ _ rfl) (.cons (follows_fallInto _)
    (.cons (Stmt.lowersAll o (.tryExcept :: frames) body d) (.cons (follows_emit _)
      (.cons (follows_emitJump _ _ rfl) (.cons (follows_fallInto _)
        (.cons (Handler.lowersAll o (.exceptionHandler :: frames) _ handlers d)
          (.cons (follows_emit _) (.cons (follows_fallInto _)
            (.cons (Stmt.lowersAll o frames orelse d) (follows_fallInto _))))))))))
termination_by Stmt.weightOfAll body + Handler.weightOfAll handlers + Stmt.weightOfAll orelse +
  Frame.weightOfAll frames + 2
decreasing_by
  all_goals first
  | omega
  | simp only [Frame.weight, Frame.weightOfAll]
    omega

theorem Handler.lowersAll (o : Options) (frames : List Frame) (done : BlockId) (hs : List Handler)
    (d : Draft) :
    Follows o d (Handler.lowerAll o frames done hs) [.run (.handlers frames done hs)] () := by
  cases hs with
  | nil =>
    rw [Handler.lowerAll]
    exact .task rfl fun n => .of_follows (.pure ())
  | cons h rest =>
    obtain ⟨type, name, body, line⟩ := h
    rw [Handler.lowerAll]
    refine .guard rfl rfl fun _ => .silent (follows_setLine _) ?_
    refine .task rfl fun n => .newBlock (.of_follows ?_)
    have htail : Follows o d (do fallInto n; Handler.lowerAll o frames done rest)
        [.label n, .run (.handlers frames done rest)] () :=
      .cons (follows_fallInto n) (Handler.lowersAll o frames done rest d)
    have hbody := Stmt.lowersAll o (.handlerCleanup name :: frames) body d
    cases name with
    | some x =>
      have hx : Follows o d (do
          let cleanup ← newBlock
          let inside ← newBlock
          accessName x .store
          emit .popTop
          emitJump .setupFinally cleanup
          fallInto inside
          Stmt.lowerAll o (.handlerCleanup (some x) :: frames) body
          emit .popBlock
          emit .popExcept
          clearName x
          emitJump .jumpForward done
          fallInto cleanup
          clearName x
          emit .reraise) [.run (.handler frames done (some x) body)] () := by
        refine .task rfl fun n => .newBlock (.newBlock (.of_follows ?_))
        exact .cons (follows_accessName _ _) (.cons (follows_emit _)
          (.cons (follows_emitJump _ _ rfl) (.cons (follows_fallInto _) (.cons hbody
            (.cons (follows_emit _) (.cons (follows_emit _) ((follows_clearName x).append
              (.cons (follows_emitJump _ _ rfl) (.cons (follows_fallInto _)
                ((follows_clearName x).append (follows_emit _)))))))))))
      have h := (follows_emit .popTop).seq (hx.seq htail)
      simp only [bind_assoc] at h
      exact follows_typeTest h
    | none =>
      have hx : Follows o d (do
          let inside ← newBlock
          emit .popTop
          emit .popTop
          fallInto inside
          Stmt.lowerAll o (.handlerCleanup none :: frames) body
          emit .popExcept
          emitJump .jumpForward done) [.run (.handler frames done none body)] () := by
        refine .task rfl fun n => .newBlock (.of_follows ?_)
        exact .cons (follows_emit _) (.cons (follows_emit _) (.cons (follows_fallInto _)
          (.cons hbody (.cons (follows_emit _) (follows_emitJump _ _ rfl)))))
      have h := (follows_emit .popTop).seq (hx.seq htail)
      simp only [bind_assoc] at h
      exact follows_typeTest h
termination_by Handler.weightOfAll hs + Frame.weightOfAll frames
decreasing_by
  all_goals
    simp only [Handler.weightOfAll, Frame.weight, Frame.weightOfAll]
    omega

theorem Frame.lowersUnwind (o : Options) (keep toLoop : Bool) (frames : List Frame) (d : Draft) :
    Follows o d (Frame.unwind o keep toLoop frames) [.run (.unwind keep toLoop frames)]
      (if toLoop then frames.find? Frame.isLoop else none) := by
  cases frames with
  | nil =>
    rw [Frame.unwind, List.find?_nil, ite_self]
    exact .task rfl fun n => .of_follows (.pure none)
  | cons f outer =>
    rw [Frame.unwind]
    refine .task rfl fun n => .of_follows ?_
    simp only [Task.steps, List.append_assoc]
    by_cases hstop : (toLoop && f.isLoop) = true
    · obtain ⟨rfl, hloop⟩ := Bool.and_eq_true_iff.mp hstop
      rw [if_pos hstop, if_pos hstop, if_pos rfl, List.find?_cons_of_pos hloop]
      exact .pure _
    · have hfind : (if toLoop then (f :: outer).find? Frame.isLoop else none) =
          if toLoop then outer.find? Frame.isLoop else none := by
        cases toLoop with
        | false => rfl
        | true => rw [if_pos rfl, if_pos rfl, List.find?_cons_of_neg (by simpa using hstop)]
      rw [if_neg hstop, if_neg hstop, hfind]
      have houter := Frame.lowersUnwind o keep toLoop outer d
      refine (follows_leave f keep).append ?_
      cases f with
      | finallyTry finalbody =>
        have hbody := Stmt.lowersAll o (if keep then .popValue :: outer else outer) finalbody d
        exact .askLine fun saved => .cons hbody (.silent (follows_setLine saved) houter)
      | _ => exact houter
termination_by Frame.weightOfAll frames
decreasing_by
  · have := Frame.weight_pos f
    simp only [Frame.weightOfAll]
    omega
  · cases keep <;> simp [Frame.weightOfAll, Frame.weight]
    omega

end

/-- The build of a nested scope follows its scheme. -/
theorem Body.follows (o : Options) (d : Draft) (body : Body) :
    Follows o d (body.build o) (body.steps o d) (body.addNone d) := by
  cases body with
  | lambda e => exact follows_lambdaBody (e.lowers o)
  | comprehension target filters rest element =>
    exact follows_comprehensionBody (target.lowers o) (fun e _ => e.lowers o)
      (fun g _ => ⟨g.target.lowers o, g.iter.lowers o, fun e _ => e.lowers o⟩) (element.lowers o)
  | function body => exact follows_functionBody (Stmt.lowersAll o [] _ d)
  | classBody body => exact follows_classBody (Stmt.lowersAll o [] _ d)

/-- The steps of a program in a module's scope. -/
def Program.steps (o : Options) (d : Draft) : Program → List Step
  | .module body => docSteps o d body ++ [.run (.stmts [] (withoutDocstring o body))]
  | .expression e => [value e]
  | .interactive _ => []

/-- Whether a program returns `None` at its end. -/
def Program.addNone : Program → Bool
  | .module _ => true
  | _ => false

/-- What a program is built by. -/
def Program.build (o : Options) : Program → Build Unit
  | .module body => Stmt.lowerModule o body
  | .expression e => e.lower o.filename .push
  | .interactive body => throw (.unsupportedMode (Program.interactive body).mode)

/-- The draft of a module. -/
def Draft.ofModule (t : ScopeTable) : Draft := .ofTable "<module>" "<module>" t 0 1 false

theorem follows_module (o : Options) (d : Draft) (body : List Stmt) :
    Follows o d (Stmt.lowerModule o body) (Program.steps o d (.module body)) () := by
  unfold Stmt.lowerModule
  have hbody : Follows o d (do bindDocstring o body; Stmt.lowerAll o [] (withoutDocstring o body))
      (Program.steps o d (.module body)) () :=
    (follows_bindDocstring body).append (Stmt.lowersAll o [] _ d)
  cases body.head? with
  | none => exact hbody
  | some s => exact .silent (follows_setLine _) hbody

theorem Program.follows (o : Options) (d : Draft) (p : Program) :
    Follows o d (p.build o) (p.steps o d) () := by
  cases p with
  | module body => exact follows_module o d body
  | expression e => exact e.lowers o d .push
  | interactive body => exact .throw rfl rfl _ _

/-- What compiling a program gives is what its build leaves, when it is finished. -/
theorem of_compile_run {p : Program} {t : ScopeTable} {o : Options} {c : CodeObject}
    (h : compile p t o = .ok c) : t.kind = .module ∧ ∃ s, p.build o ⟨.ofModule t, 1⟩ = .ok () s ∧
      s.draft.finish p.addNone o.filename = .ok c := by
  have hscope {b : Build Unit} {addNone : Bool} (h : compileScope t o addNone b = .ok c) :
      t.kind = .module ∧ ∃ s, b ⟨.ofModule t, 1⟩ = .ok () s ∧
        s.draft.finish addNone o.filename = .ok c := by
    unfold compileScope at h
    split at h
    · next hkind =>
      split at h
      · next s hrun => exact ⟨hkind, s, hrun, h⟩
      · cases h
    · cases h
  unfold compile at h
  split at h
  · exact hscope h
  · exact hscope h
  · cases h

/-- A program is refused in its build, when it is finished, or for what it is. -/
theorem of_compile_run_error {p : Program} {t : ScopeTable} {o : Options} {e : CompileError}
    (h : compile p t o = .error e) : (e.ofCode = false ∧ e.ofBookkeeping = false) ∨
      (∃ s, p.build o ⟨.ofModule t, 1⟩ = .error e s) ∨
      ∃ s, p.build o ⟨.ofModule t, 1⟩ = .ok () s ∧
        s.draft.finish p.addNone o.filename = .error e := by
  have hscope {b : Build Unit} {addNone : Bool} (h : compileScope t o addNone b = .error e) :
      (e.ofCode = false ∧ e.ofBookkeeping = false) ∨ (∃ s, b ⟨.ofModule t, 1⟩ = .error e s) ∨
        ∃ s, b ⟨.ofModule t, 1⟩ = .ok () s ∧ s.draft.finish addNone o.filename = .error e := by
    unfold compileScope at h
    split at h
    · split at h
      · next s hrun => exact .inr (.inr ⟨s, hrun, h⟩)
      · next hrun =>
        cases h
        exact .inr (.inl ⟨_, hrun⟩)
    · cases h
      exact .inl ⟨rfl, rfl⟩
  unfold compile at h
  split at h
  · exact hscope h
  · exact hscope h
  · cases h
    exact .inl ⟨rfl, rfl⟩

/-- What compiling a program gives is the finished draft of its script. -/
theorem of_compile_ok {p : Program} {t : ScopeTable} {o : Options} {c : CodeObject}
    (h : compile p t o = .ok c) : ∃ log d k, t.kind = .module ∧
      Emits o (.ofModule t) (p.steps o (.ofModule t)) 1 log k ∧
      (p.build o).Drafts (.ofModule t) log d ∧ d.finish p.addNone o.filename = .ok c := by
  obtain ⟨hkind, s, hrun, hfinish⟩ := of_compile_run h
  obtain ⟨_, log, he, hruns⟩ := (p.follows o _).ok (.refl _) hrun
  exact ⟨log, s.draft, _, hkind, he, ⟨hruns.writes, _, (), s, hrun, rfl⟩, hfinish⟩

/-- A program that fails in assembly does so in the scope of the module or in one inside it. -/
theorem of_compile_error {p : Program} {t : ScopeTable} {o : Options} {e : CompileError} {f : Fault}
    (h : compile p t o = .error e) (hf : e.fault? = some f) (hcode : f.ofCode = true) :
    Fails o (.ofModule t) (p.steps o (.ofModule t)) f ∨
      ∃ log d k, Emits o (.ofModule t) (p.steps o (.ofModule t)) 1 log k ∧
        (Draft.ofModule t).Writes log d ∧ d.finish p.addNone o.filename = .error e := by
  rcases of_compile_run_error h with he | ⟨s, hrun⟩ | ⟨s, hrun, hfinish⟩
  · exact absurd_ofCode he.1 hf hcode
  · exact .inl ((p.follows o _).err (.refl _) hrun hf hcode)
  · obtain ⟨_, log, he, hruns⟩ := (p.follows o _).ok (.refl _) hrun
    exact .inr ⟨log, s.draft, _, he, hruns.writes, hfinish⟩

/-- No program is refused for the frames and scopes that the compiler keeps. -/
theorem not_ofBookkeeping_of_compile {p : Program} {t : ScopeTable} {o : Options}
    {e : CompileError} (h : compile p t o = .error e) : e.ofBookkeeping = false := by
  rcases of_compile_run_error h with he | ⟨s, hrun⟩ | ⟨s, hrun, hfinish⟩
  · exact he.2
  · exact (p.follows o _).kind (.refl _) hrun
  · exact Draft.not_ofBookkeeping_of_finish hfinish

end Wordcode
