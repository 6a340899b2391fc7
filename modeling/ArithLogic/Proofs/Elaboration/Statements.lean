import ArithLogic.Proofs.Elaboration.Agreement

/-!
# ArithLogic.Proofs.Elaboration.Statements

The courses of statements and programs.  `ElaboratesForm` is for statements
what `Elaborates` is for expressions; a statement that succeeds may bind one
name in the innermost environment, and never anything else.  A program is one
statement after the other, whatever becomes of each.
-/

namespace ArithLogic

open Elab

/-! ## the course of a statement -/

/-- A tree of the shape `name = value`. -/
def Tree.IsDefinition : Tree → Prop
  | .binary assign _ _ => assign.kind = .assign
  | _ => False

/-- The initial value that the definition of an expression gets, or the fault
if it can have none. -/
def Context.initialOf (cx : Context) (e : Elaboration) (span : Span) : Except Fault NodeRef :=
  if e.ty = .kind then (cx.designation e span).map Ty.ref else .ok e.expr

/-- The statement, elaborated in the session, comes to the conclusion. -/
inductive ElaboratesForm : Tree → Session → Conclusion → Prop
  | expression {tree : Tree} {s : Session} {out : Conclusion} :
      ¬ tree.IsBinding → ¬ tree.IsDefinition → Elaborates tree s out → ElaboratesForm tree s out
  | noName {op : Token} {left right : Tree} {s : Session} :
      op.kind = .colon ∨ op.kind = .assign → left.name? = none →
      ElaboratesForm (.binary op left right) s
        (s.conclude (.malformed "expected a name to bind" left.span))
  | redeclared {op name : Token} {left right : Tree} {s : Session} :
      op.kind = .colon ∨ op.kind = .assign → left.name? = some name →
      s.context.isLocal name.text = true →
      ElaboratesForm (.binary op left right) s
        (s.conclude (.refuse ⟨.redeclaration name.text, name.span⟩ []))
  | bindingFailed {op name : Token} {left right : Tree} {s s' : Session} {error : ElabError} :
      op.kind = .colon → left.name? = some name → s.context.isLocal name.text = false →
      Elaborates (.binary op left right) s (.error error, s') →
      ElaboratesForm (.binary op left right) s (.error error, s')
  | declared {op name : Token} {left right : Tree} {s s₁ : Session} {b : Elaboration}
      {id : NodeRef} {d : DeclRef} {cx : Context} :
      op.kind = .colon → left.name? = some name → s.context.isLocal name.text = false →
      Elaborates (.binary op left right) s (.ok b, s₁) →
      s₁.context.node? b.expr = some (.bind id b.ty) →
      s₁.context.declareId id b.ty none = .ok (d, cx) →
      ElaboratesForm (.binary op left right) s (.ok b, ⟨cx, s₁.events⟩)
  | valueFailed {op name : Token} {left right : Tree} {s s' : Session} {error : ElabError} :
      op.kind = .assign → left.name? = some name → s.context.isLocal name.text = false →
      Elaborates right s (.error error, s') →
      ElaboratesForm (.binary op left right) s (.error error, s')
  | noInitial {op name : Token} {left right : Tree} {s s' : Session} {e : Elaboration}
      {fault : Fault} :
      op.kind = .assign → left.name? = some name → s.context.isLocal name.text = false →
      Elaborates right s (.ok e, s') → s'.context.initialOf e right.span = .error fault →
      ElaboratesForm (.binary op left right) s (s'.conclude (.refuse fault []))
  | defined {op name : Token} {left right : Tree} {s s₁ : Session} {e : Elaboration}
      {init : NodeRef} {d : DeclRef} {cx : Context} :
      op.kind = .assign → left.name? = some name → s.context.isLocal name.text = false →
      Elaborates right s (.ok e, s₁) → s₁.context.initialOf e right.span = .ok init →
      (s₁.context.addId name.text).2.declareId ⟨s₁.context.size⟩ e.ty (some init) = .ok (d, cx) →
      ElaboratesForm (.binary op left right) s (.ok e, ⟨cx, s₁.events⟩)

/-! ## names that are free -/

section Free

variable {cx : Context}

/-- A name that is not bound in the innermost environment may be declared
there. -/
theorem Context.WellFormed.exists_insert (h : cx.WellFormed) {text : String}
    (hfree : cx.isLocal text = false) (d : DeclRef) :
    ∃ scopes, cx.scopes.insert ⟨cx.interner.origin, text⟩ d = .ok scopes := by
  obtain ⟨env, outer, hcons⟩ := List.exists_cons_of_length_pos h.depth_pos
  rw [h.isLocal_eq hcons] at hfree
  exact ⟨_, ScopeStack.insert_eq_ok_iff.2 ⟨env, outer, hcons, hfree, rfl⟩⟩

end Free

/-! ## running statements -/

/-- A name is refused where the innermost environment binds it. -/
theorem run_rejectRedeclaration (name : Token) (s : Session) :
    (rejectRedeclaration name).run s =
      if s.context.isLocal name.text = true then
        .ok (.error (.redeclaration name.text),
          s.report ⟨.redeclaration name.text, name.span⟩)
      else .ok (.ok (), s) := by
  simp only [rejectRedeclaration, run_bind, run_inspect]
  by_cases hlocal : s.context.isLocal name.text = true
  · simp only [if_pos hlocal, run_fail]
  · simp only [if_neg hlocal]; rfl

/-- Finding the initial value of a definition. -/
theorem run_initialValue {s : Session} (hw : s.context.WellFormed) (e : Elaboration) (span : Span) :
    (initialValue e span).run s = match s.context.initialOf e span with
      | .ok init => .ok (.ok init, s)
      | .error fault => .ok (.error fault.error, s.report fault) := by
  unfold initialValue Context.initialOf
  by_cases hty : e.ty = .kind
  · simp only [if_pos hty, run_bind, run_resolveType hw]
    cases s.context.designation e span <;> rfl
  · simp only [if_neg hty, run_pure]

section Forms

variable {op : Token} {left right : Tree} {s : Session}

theorem elaborateForm_expression {tree : Tree} (hcolon : ¬ tree.IsBinding)
    (hassign : ¬ tree.IsDefinition) : elaborateForm tree = elaborate tree := by
  cases tree with
  | binary op left right =>
    rw [elaborateForm]
    simp only [if_neg (show ¬ op.kind = .colon from hcolon),
      if_neg (show ¬ op.kind = .assign from hassign)]
  | _ => rfl

theorem elaborateForm_colon (h : op.kind = .colon) :
    elaborateForm (.binary op left right) = elaborateDeclaration left right := by
  rw [elaborateForm]
  simp only [if_pos h]

theorem elaborateForm_assign (h : op.kind = .assign) :
    elaborateForm (.binary op left right) = elaborateDefinition left right := by
  rw [elaborateForm]
  simp only [h, reduceCtorEq, if_false, if_true]

/-- A statement that binds something which is no name fails. -/
theorem run_elaborateForm_noName (hop : op.kind = .colon ∨ op.kind = .assign)
    (hname : left.name? = none) : (elaborateForm (.binary op left right)).run s =
      .ok (s.conclude (.malformed "expected a name to bind" left.span)) := by
  rcases hop with hop | hop
  · rw [elaborateForm_colon hop, elaborateDeclaration]
    simp only [run_bind, run_binderName_none hname]
    rfl
  · rw [elaborateForm_assign hop, elaborateDefinition]
    simp only [run_bind, run_binderName_none hname]
    rfl

/-- A statement that binds a name a second time fails. -/
theorem run_elaborateForm_redeclared {name : Token} (hop : op.kind = .colon ∨ op.kind = .assign)
    (hname : left.name? = some name) (hlocal : s.context.isLocal name.text = true) :
    (elaborateForm (.binary op left right)).run s =
      .ok (s.conclude (.refuse ⟨.redeclaration name.text, name.span⟩ [])) := by
  rcases hop with hop | hop
  · rw [elaborateForm_colon hop, elaborateDeclaration]
    simp only [run_bind, run_binderName_some hname, run_rejectRedeclaration, if_pos hlocal]
    rfl
  · rw [elaborateForm_assign hop, elaborateDefinition]
    simp only [run_bind, run_binderName_some hname, run_rejectRedeclaration, if_pos hlocal]
    rfl

/-- A declaration of a free name goes on with the binding. -/
theorem run_elaborateForm_declaration {name : Token} (hop : op.kind = .colon)
    (hname : left.name? = some name) (hlocal : s.context.isLocal name.text = false) :
    (elaborateForm (.binary op left right)).run s = (do
      let b ← elaborateBinding left right.span (elaborate right)
      let _ ← attempt fun cx => cx.declareId b.name b.ty none
      return ⟨b.expr, b.ty⟩ : Elab Elaboration).run s := by
  have hnot : ¬ s.context.isLocal name.text = true := by simp [hlocal]
  rw [elaborateForm_colon hop, elaborateDeclaration]
  simp only [run_bind, run_binderName_some hname, run_rejectRedeclaration, if_neg hnot]

/-- A definition of a free name goes on with the value. -/
theorem run_elaborateForm_definition {name : Token} (hop : op.kind = .assign)
    (hname : left.name? = some name) (hlocal : s.context.isLocal name.text = false) :
    (elaborateForm (.binary op left right)).run s = (do
      let e ← elaborate right
      let init ← initialValue e right.span
      let id ← extend fun cx => cx.addId name.text
      let _ ← attempt fun cx => cx.declareId id e.ty (some init)
      return e : Elab Elaboration).run s := by
  have hnot : ¬ s.context.isLocal name.text = true := by simp [hlocal]
  rw [elaborateForm_assign hop, elaborateDefinition]
  simp only [run_bind, run_binderName_some hname, run_rejectRedeclaration, if_neg hnot]

end Forms

/-- What the course of a statement comes to is what the program returns. -/
theorem ElaboratesForm.run {tree : Tree} {s : Session} {out : Conclusion}
    (h : ElaboratesForm tree s out) (hw : s.context.WellFormed) :
    (elaborateForm tree).run s = .ok out := by
  cases h with
  | expression hcolon hassign hcourse =>
    rw [elaborateForm_expression hcolon hassign]
    exact hcourse.run hw
  | noName hop hname => exact run_elaborateForm_noName hop hname
  | redeclared hop hname hlocal => exact run_elaborateForm_redeclared hop hname hlocal
  | bindingFailed hop hname hlocal hcourse =>
    rw [run_elaborateForm_declaration hop hname hlocal, run_bind,
      run_elaborateBinding_error hop (hcourse.run hw)]
  | @declared _ _ _ _ _ s₁ b id _ _ hop hname hlocal hcourse hnode hdeclare =>
    have hdeclared : (attempt fun cx => cx.declareId id b.ty none).run s₁ = .ok (.ok _, ⟨_, _⟩) :=
      run_attempt hdeclare
    rw [run_elaborateForm_declaration hop hname hlocal, run_bind,
      run_elaborateBinding_ok hop (hcourse.run hw) hnode]
    simp only [run_bind, hdeclared, run_pure]
  | valueFailed hop hname hlocal hcourse =>
    rw [run_elaborateForm_definition hop hname hlocal, run_bind, hcourse.run hw]
  | noInitial hop hname hlocal hcourse hinit =>
    have hvalue := run_initialValue (hcourse.kept hw).wellFormed
    simp only [run_elaborateForm_definition hop hname hlocal, run_bind, hcourse.run hw, hvalue, hinit]
    rfl
  | @defined _ _ _ _ _ s₁ e init _ _ hop hname hlocal hcourse hinit hdeclare =>
    have hvalue := run_initialValue (hcourse.kept hw).wellFormed
    have hdeclared : (attempt fun cx => cx.declareId ⟨s₁.context.size⟩ e.ty (some init)).run
        ⟨(s₁.context.addId _).2, s₁.events⟩ = .ok (.ok _, ⟨_, _⟩) := run_attempt hdeclare
    simp only [run_elaborateForm_definition hop hname hlocal, run_bind, hcourse.run hw, hvalue, hinit,
      run_extend, Context.addId_fst, hdeclared, run_pure]

/-- A free name can be declared in a later context with the same scopes. -/
theorem Context.WellFormed.exists_declareId {cx later : Context} (h : cx.WellFormed) {text : String}
    (hfree : cx.isLocal text = false) (hwithin : cx.Within later) (hscopes : later.scopes = cx.scopes)
    {id : NodeRef} (hid : later.symbol? id = some ⟨later.interner.origin, text⟩) (ty : Ty)
    (init : Option NodeRef) : ∃ d next, later.declareId id ty init = .ok (d, next) := by
  obtain ⟨scopes, hinsert⟩ := h.exists_insert hfree ⟨later.decls.size⟩
  rw [← hscopes, ← hwithin.origin] at hinsert
  exact ⟨_, _, Context.declareId_eq_ok_iff.2 ⟨_, scopes, hid, hinsert, rfl, rfl⟩⟩

section Courses

variable {op name : Token} {left right : Tree} {s : Session}

/-- A declaration of a free name has a course. -/
theorem exists_course_declaration (hw : s.context.WellFormed) (hop : op.kind = .colon)
    (hname : left.name? = some name) (hlocal : s.context.isLocal name.text = false) :
    ∃ out, ElaboratesForm (.binary op left right) s out := by
  obtain ⟨⟨_ | b, s₁⟩, hcourse⟩ := exists_elaborates (.binary op left right) hw
  · exact ⟨_, .bindingFailed hop hname hlocal hcourse⟩
  · have hkept := hcourse.kept hw
    obtain ⟨found, e, s₀, ty, hfound, -, -, rfl, rfl⟩ := hcourse.binding_parts hop
    cases hname.symm.trans hfound
    obtain ⟨hnode, hsymbol⟩ := s₀.node?_addBinding name.text ty
    have horigin := (s₀.within_addBinding name.text ty).origin
    rw [← horigin] at hsymbol
    obtain ⟨d, next, hdeclare⟩ :=
      hw.exists_declareId hlocal hkept.within hkept.scopes hsymbol ty none
    exact ⟨_, .declared hop hname hlocal hcourse hnode hdeclare⟩

/-- A definition of a free name has a course. -/
theorem exists_course_definition (hw : s.context.WellFormed) (hop : op.kind = .assign)
    (hname : left.name? = some name) (hlocal : s.context.isLocal name.text = false) :
    ∃ out, ElaboratesForm (.binary op left right) s out := by
  obtain ⟨⟨_ | e, s₁⟩, hcourse⟩ := exists_elaborates right hw
  · exact ⟨_, .valueFailed hop hname hlocal hcourse⟩
  · have hkept := hcourse.kept hw
    cases hinit : s₁.context.initialOf e right.span with
    | error fault => exact ⟨_, .noInitial hop hname hlocal hcourse hinit⟩
    | ok init =>
      have hid := Context.Within.addId s₁.context name.text
      have hsymbol := Context.symbol?_addId s₁.context name.text
      rw [← hid.origin] at hsymbol
      obtain ⟨d, next, hdeclare⟩ := hw.exists_declareId hlocal (hkept.within.trans hid) hkept.scopes
        hsymbol e.ty (some init)
      exact ⟨_, .defined hop hname hlocal hcourse hinit hdeclare⟩

end Courses

/-- Every statement has a course in every well formed context, and the program
takes it. -/
theorem exists_course_form (tree : Tree) {s : Session} (hw : s.context.WellFormed) :
    ∃ out, ElaboratesForm tree s out ∧ (elaborateForm tree).run s = .ok out := by
  suffices h : ∃ out, ElaboratesForm tree s out by
    obtain ⟨out, hcourse⟩ := h
    exact ⟨out, hcourse, hcourse.run hw⟩
  by_cases hstatement : tree.IsBinding ∨ tree.IsDefinition
  · cases tree with
    | binary op left right =>
      cases hname : left.name? with
      | none => exact ⟨_, .noName hstatement hname⟩
      | some name =>
        cases hlocal : s.context.isLocal name.text with
        | true => exact ⟨_, .redeclared hstatement hname hlocal⟩
        | false =>
          rcases hstatement with hop | hop
          · exact exists_course_declaration hw hop hname hlocal
          · exact exists_course_definition hw hop hname hlocal
    | _ => exact absurd hstatement (by simp [Tree.IsBinding, Tree.IsDefinition])
  · rw [not_or] at hstatement
    obtain ⟨out, hcourse⟩ := exists_elaborates tree hw
    exact ⟨out, .expression hstatement.1 hstatement.2 hcourse⟩

/-! ## what statements keep -/

/-- A statement keeps the context well formed and what it holds, and its
expression is one of the context. -/
structure KeptForm (s : Session) (out : Conclusion) : Prop where
  wellFormed : out.2.context.WellFormed
  within : s.context.Within out.2.context
  depth : out.2.context.depth = s.context.depth
  inRange : ∀ e, out.1 = .ok e → e.expr.index < out.2.context.size

theorem Kept.form {s : Session} {out : Conclusion} (h : Kept s out) : KeptForm s out where
  wellFormed := h.wellFormed
  within := h.within
  depth := by rw [Context.depth, h.scopes]; rfl
  inRange e he := (h.fresh e he).2

theorem Context.initialOf_lt {cx : Context} (hw : cx.WellFormed) {e : Elaboration}
    (he : e.expr.index < cx.size) {span : Span} {init : NodeRef}
    (h : cx.initialOf e span = .ok init) : init.index < cx.size := by
  unfold initialOf at h
  split at h
  · cases hty : cx.designation e span with
    | error fault => simp [hty, Except.map] at h
    | ok ty =>
      simp only [hty, Except.map, Except.ok.injEq] at h
      subst h
      exact hw.ref_lt ty
  · cases h
    exact he

/-- Statements keep the context well formed. -/
theorem ElaboratesForm.kept {tree : Tree} {s : Session} {out : Conclusion}
    (h : ElaboratesForm tree s out) (hw : s.context.WellFormed) : KeptForm s out := by
  cases h with
  | expression _ _ hcourse => exact (hcourse.kept hw).form
  | noName => exact (Kept.refuse hw _ _).form
  | redeclared => exact (Kept.refuse hw _ _).form
  | bindingFailed _ _ _ hcourse => exact (hcourse.kept hw).form
  | declared _ _ _ hcourse _ hdeclare =>
    have hkept := (hcourse.kept hw).form
    have hdeclared := Context.Within.declareId hdeclare
    refine ⟨hkept.wellFormed.declareVar hdeclare,
      hkept.within.trans hdeclared, (Context.depth_of_declareId hdeclare).trans hkept.depth, ?_⟩
    rintro e ⟨⟩
    exact hdeclared.index_lt (hkept.inRange _ rfl)
  | valueFailed _ _ _ hcourse => exact (hcourse.kept hw).form
  | noInitial _ _ _ hcourse =>
    have hkept := hcourse.kept hw
    exact (hkept.trans (.refuse hkept.wellFormed _ _)).form
  | @defined op name _ _ _ s₁ _ _ _ _ _ _ _ hcourse hinit hdeclare =>
    have hkept := (hcourse.kept hw).form
    have hid := Context.Within.addId s₁.context name.text
    have hdeclared := Context.Within.declareId hdeclare
    have hinitRange := Context.initialOf_lt hkept.wellFormed (hkept.inRange _ rfl) hinit
    refine ⟨(hkept.wellFormed.addId name.text).declareId hdeclare ?_,
      (hkept.within.trans hid).trans hdeclared,
      (Context.depth_of_declareId hdeclare).trans hkept.depth, ?_⟩
    · rintro e ⟨⟩
      exact hid.index_lt hinitRange
    · rintro e ⟨⟩
      exact hdeclared.index_lt (hid.index_lt (hkept.inRange _ rfl))

/-! ## programs -/

/-- One statement after the other is elaborated, and each outcome recorded. -/
inductive ElaboratesAll :
    List Tree → Session → List (Except ElabError Elaboration) → Session → Prop
  | nil {s : Session} : ElaboratesAll [] s [] s
  | cons {tree : Tree} {trees : List Tree} {s s₁ s' : Session}
      {outcome : Except ElabError Elaboration} {outcomes : List (Except ElabError Elaboration)}
      {event : Event} :
      ElaboratesForm tree s (outcome, s₁) →
      ElaboratesAll trees ⟨s₁.context, s₁.events.push event⟩ outcomes s' →
      ElaboratesAll (tree :: trees) s (outcome :: outcomes) s'

/-- What is recorded of a statement with this outcome. -/
def Context.outcomeEvent? (cx : Context) (span : Span) :
    Except ElabError Elaboration → Option Event
  | .ok e => (cx.node? e.expr).map fun node => .statementElaborated span node.kind e.ty
  | .error error => some (.statementFailed span error)

theorem run_recordOutcome {s : Session} {span : Span} {outcome : Except ElabError Elaboration}
    {event : Event} (h : s.context.outcomeEvent? span outcome = some event) :
    recordOutcome span outcome s = .ok ((), ⟨s.context, s.events.push event⟩) := by
  cases outcome with
  | error error =>
    cases h
    rfl
  | ok e =>
    obtain ⟨node, hnode, rfl⟩ := Option.map_eq_some_iff.1 h
    simp only [recordOutcome, Action.run_bind, Action.run_inspect, hnode, Action.run_demand_some,
      Action.run_record]

/-- There is always something to record. -/
theorem ElaboratesForm.exists_event {tree : Tree} {s s₁ : Session}
    {outcome : Except ElabError Elaboration} (h : ElaboratesForm tree s (outcome, s₁))
    (hw : s.context.WellFormed) :
    ∃ event, s₁.context.outcomeEvent? tree.span outcome = some event := by
  cases outcome with
  | error error => exact ⟨_, rfl⟩
  | ok e =>
    obtain ⟨node, hnode⟩ := Context.node?_of_index_lt ((h.kept hw).inRange e rfl)
    exact ⟨_, by rw [Context.outcomeEvent?, hnode, Option.map_some]⟩

/-- Elaborating a statement ends with a record of what its course came to. -/
theorem ElaboratesForm.run_statement {tree : Tree} {s s₁ : Session}
    {outcome : Except ElabError Elaboration} {event : Event}
    (h : ElaboratesForm tree s (outcome, s₁)) (hw : s.context.WellFormed)
    (hevent : s₁.context.outcomeEvent? tree.span outcome = some event) :
    elaborateStatement tree s = .ok (outcome, ⟨s₁.context, s₁.events.push event⟩) := by
  have hrun : elaborateForm tree s = .ok (outcome, s₁) := h.run hw
  simp only [elaborateStatement, Action.run_bind, ExceptT.run, hrun, run_recordOutcome hevent,
    Action.run_pure]

/-- Elaborating a statement takes the course of its form, and records it. -/
theorem exists_course_statement (tree : Tree) {s : Session} (hw : s.context.WellFormed) :
    ∃ outcome s₁ event, ElaboratesForm tree s (outcome, s₁) ∧
      elaborateStatement tree s = .ok (outcome, ⟨s₁.context, s₁.events.push event⟩) := by
  obtain ⟨⟨outcome, s₁⟩, hcourse, -⟩ := exists_course_form tree hw
  obtain ⟨event, hevent⟩ := hcourse.exists_event hw
  exact ⟨outcome, s₁, event, hcourse, hcourse.run_statement hw hevent⟩

/-- What elaborating a statement returns is the outcome of its form. -/
theorem course_of_run_elaborateStatement {tree : Tree} {s s' : Session}
    {outcome : Except ElabError Elaboration} (hw : s.context.WellFormed)
    (h : elaborateStatement tree s = .ok (outcome, s')) :
    ∃ s₁, ElaboratesForm tree s (outcome, s₁) ∧ s'.context = s₁.context := by
  obtain ⟨found, s₁, event, hcourse, hrun⟩ := exists_course_statement tree hw
  cases h.symm.trans hrun
  exact ⟨s₁, hcourse, rfl⟩

theorem kept_of_run_elaborateStatement {tree : Tree} {s s' : Session}
    {outcome : Except ElabError Elaboration} (hw : s.context.WellFormed)
    (h : elaborateStatement tree s = .ok (outcome, s')) : KeptForm s (outcome, s') := by
  obtain ⟨s₁, hcourse, hsame⟩ := course_of_run_elaborateStatement hw h
  obtain ⟨hwell, hwithin, hdepth, hrange⟩ := hcourse.kept hw
  rw [← hsame] at hwell hwithin hdepth hrange
  exact ⟨hwell, hwithin, hdepth, hrange⟩

/-- Elaborating statements takes the courses of all of them. -/
theorem exists_course_statements (trees : List Tree) {s : Session} (hw : s.context.WellFormed) :
    ∃ outcomes s', ElaboratesAll trees s outcomes s' ∧
      (trees.mapM elaborateStatement : Action _) s = .ok (outcomes, s') := by
  induction trees generalizing s with
  | nil => exact ⟨[], s, .nil, rfl⟩
  | cons tree trees ih =>
    obtain ⟨outcome, s₁, event, hcourse, hrun⟩ := exists_course_statement tree hw
    obtain ⟨outcomes, s', hrest, hruns⟩ :=
      ih (s := ⟨s₁.context, s₁.events.push event⟩) (hcourse.kept hw).wellFormed
    refine ⟨outcome :: outcomes, s', .cons hcourse hrest, ?_⟩
    simp only [List.mapM_cons, Action.run_bind, hrun, hruns, Action.run_pure]

/-- What elaborating a program returns are the outcomes of its statements. -/
theorem course_of_run_elaborateProgram {trees : List Tree} {s s' : Session}
    {outcomes : List (Except ElabError Elaboration)} (hw : s.context.WellFormed)
    (h : elaborateProgram trees s = .ok (outcomes, s')) :
    ∃ s₁, ElaboratesAll trees s outcomes s₁ ∧ s'.context = s₁.context := by
  obtain ⟨found, s₁, hcourse, hrun⟩ := exists_course_statements trees hw
  simp only [elaborateProgram, Action.run_bind, hrun, Action.run_record, Action.run_pure] at h
  cases h
  exact ⟨s₁, hcourse, rfl⟩

/-- Programs keep the context well formed and what it holds. -/
theorem ElaboratesAll.kept {trees : List Tree} {s s' : Session}
    {outcomes : List (Except ElabError Elaboration)} (h : ElaboratesAll trees s outcomes s')
    (hw : s.context.WellFormed) :
    s'.context.WellFormed ∧ s.context.Within s'.context ∧ s'.context.depth = s.context.depth := by
  induction h with
  | nil => exact ⟨hw, .refl _, rfl⟩
  | cons hcourse _ ih =>
    have hkept := hcourse.kept hw
    obtain ⟨hwell, hwithin, hdepth⟩ := ih hkept.wellFormed
    exact ⟨hwell, hkept.within.trans hwithin, hdepth.trans hkept.depth⟩

end ArithLogic
