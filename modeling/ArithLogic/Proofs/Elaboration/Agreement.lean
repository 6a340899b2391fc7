import ArithLogic.Proofs.Elaboration.Upkeep

/-!
# ArithLogic.Proofs.Elaboration.Agreement

The program takes the courses of `Elaborates`, and no others.  In a well
formed context every tree has a course (`exists_elaborates`), and whatever a
course comes to is what the program returns (`Elaborates.run`), so that
elaboration never meets a breach (`run_elaborate_iff`).
-/

namespace ArithLogic

open Elab

/-! ## running the parts -/

namespace Elab

variable {α : Type}

@[simp] theorem run_report (error : ElabError) (span : Span) (s : Session) :
    report error span s = .ok ((), s.report ⟨error, span⟩) := rfl

@[simp] theorem run_fail (error : ElabError) (span : Span) (s : Session) :
    (fail error span : Elab α).run s = .ok (.error error, s.report ⟨error, span⟩) := by
  simp only [fail, run_bind, run_lift, run_report, run_throw]

@[simp] theorem run_malformed (reason : String) (span : Span) (s : Session) :
    (malformed reason span).run s = .ok (s.conclude (.malformed reason span)) := by
  simp only [malformed, run_fail]; rfl

/-- Checking a type reports the fault, if there is one. -/
theorem run_mismatch? (e : Elaboration) (expected : Ty) (span : Span) (s : Session) :
    mismatch? e expected span s =
      .ok ((e.faults expected span).head?.map Fault.error, (e.faults expected span).foldl Session.report s) := by
  unfold mismatch? Elaboration.faults
  split <;> rfl

/-- Demanding a type fails on the fault, if there is one. -/
theorem run_expectType (e : Elaboration) (expected : Ty) (span : Span) (s : Session) :
    (expectType e expected span).run s =
      if e.ty = expected then .ok (.ok (), s)
      else .ok (.error (.typeMismatch expected e.ty), s.report ⟨.typeMismatch expected e.ty, span⟩) := by
  simp only [expectType, run_bind, run_lift, run_mismatch?, Elaboration.faults]
  split <;> rfl

end Elab

theorem TokenKind.isName_iff {kind : TokenKind} :
    kind.isName = true ↔ kind = .identifier ∨ kind = .kwBool ∨ kind = .kwInt := by
  cases kind <;> simp [isName]

theorem run_elaborateTerminal_named {token : Token} {s : Session} {d : DeclRef} {decl : Decl}
    {name : Symbol} (hkind : token.kind.isName = true)
    (hlookup : s.context.lookup? token.text = some d) (hdecl : s.context.decl? d = some decl)
    (hname : s.context.declName? d = some name) :
    (elaborateTerminal token).run s = .ok (s.conclude (.build (.var name d) decl.ty)) := by
  have hdeclared : (require fun cx => cx.decl? d).run s = .ok (.ok decl, s) := run_require hdecl
  have hadded : (attempt fun cx => cx.addVar d).run s =
      .ok (.ok ⟨s.context.size⟩, s.add (.var name d)) :=
    run_attempt (by simp [Context.addVar, hname, Context.add, Context.size])
  unfold elaborateTerminal
  rcases TokenKind.isName_iff.1 hkind with hk | hk | hk <;>
    simp only [hk, run_bind, run_inspect, hlookup, hdeclared, hadded, run_pure] <;>
    rfl

theorem run_elaborateTerminal_unbound {token : Token} {s : Session}
    (hkind : token.kind.isName = true) (hlookup : s.context.lookup? token.text = none) :
    (elaborateTerminal token).run s =
      .ok (s.conclude (.refuse ⟨.unboundName token.text, token.span⟩ [])) := by
  unfold elaborateTerminal
  rcases TokenKind.isName_iff.1 hkind with hk | hk | hk <;>
    simp only [hk, run_bind, run_inspect, hlookup, run_fail] <;>
    rfl

theorem run_elaborateTerminal_constant {token : Token} (hkind : token.kind.isName = false)
    (s : Session) : (elaborateTerminal token).run s = .ok (s.conclude token.verdict) := by
  unfold elaborateTerminal Token.verdict
  cases hk : token.kind with
  | identifier | kwBool | kwInt => simp [hk, TokenKind.isName] at hkind
  | kwTrue | kwFalse => simp only [run_build]; rfl
  | literal =>
    simp only
    cases Text.integer? token.text.toList with
    | some value => simp only [run_build]; rfl
    | none => simp only [run_fail]; rfl
  | _ => simp only [run_malformed]

theorem run_elaboratePrefix {op : Token} {span : Span} {operand : Elab Elaboration} {s s' : Session}
    {form : PrefixForm} {e : Elaboration} (hform : PrefixForm.ofToken? op.kind = some form)
    (hoperand : operand.run s = .ok (.ok e, s')) :
    (elaboratePrefix op span operand).run s = .ok (s'.conclude (form.verdict e span)) := by
  simp only [elaboratePrefix, hform, run_bind, hoperand, run_expectType, PrefixForm.verdict,
    Elaboration.faults]
  by_cases hty : e.ty = form.type
  · simp only [if_pos hty, run_build]; rfl
  · simp only [if_neg hty]; rfl

theorem run_buildScaling (op : Scaling) (token : Token) (l r : Elaboration)
    (leftSpan rightSpan : Span) (s : Session) :
    (buildScaling op token l r leftSpan rightSpan).run s = .ok (s.conclude
      (s.context.infixVerdict token l r leftSpan rightSpan
        (match op with | .mul => .product | .div => .quotient))) := by
  cases op with
  | mul =>
    simp only [buildScaling, run_bind, run_inspect, Context.infixVerdict]
    by_cases hl : s.context.isLiteral l.expr = true
    · simp only [if_pos hl, run_build]; rfl
    · by_cases hr : s.context.isLiteral r.expr = true
      · simp only [if_neg hl, if_pos hr, run_build]; rfl
      · simp only [if_neg hl, if_neg hr, run_fail]; rfl
  | div =>
    simp only [buildScaling, run_bind, run_inspect, Context.infixVerdict]
    by_cases hr : s.context.isLiteral r.expr = true
    · simp only [if_pos hr, run_build]; rfl
    · simp only [if_neg hr, run_fail]; rfl

theorem run_buildInfix (form : InfixForm) (token : Token) (l r : Elaboration)
    (leftSpan rightSpan : Span) (s : Session) :
    (buildInfix form token l r leftSpan rightSpan).run s =
      .ok (s.conclude (s.context.infixVerdict token l r leftSpan rightSpan form)) := by
  cases form with
  | product => exact run_buildScaling .mul ..
  | quotient => exact run_buildScaling .div ..
  | _ => simp only [buildInfix, run_build]; rfl

theorem run_elaborateInfix {op : Token} {leftSpan rightSpan : Span} {left right : Elab Elaboration}
    {s s₁ s₂ : Session} {form : InfixForm} {l r : Elaboration}
    (hform : InfixForm.ofToken? op.kind = some form) (hleft : left.run s = .ok (.ok l, s₁))
    (hright : right.run s₁ = .ok (.ok r, s₂)) :
    (elaborateInfix op leftSpan rightSpan left right).run s =
      .ok (s₂.conclude ((s₂.context.infixVerdict op l r leftSpan rightSpan form).unless
        (form.faults l r leftSpan rightSpan))) := by
  simp only [elaborateInfix, hform, run_bind, hleft, hright, run_lift, run_mismatch?,
    InfixForm.faults, Elaboration.faults]
  by_cases hl : l.ty = form.operandType
  · by_cases hr : r.ty = form.operandType
    · simp only [if_pos hl, if_pos hr]
      exact run_buildInfix ..
    · simp only [if_pos hl, if_neg hr]; rfl
  · by_cases hr : r.ty = form.operandType
    · simp only [if_neg hl, if_pos hr]; rfl
    · simp only [if_neg hl, if_neg hr]; rfl

/-! ## running bindings and bodies -/

theorem run_binderName_some {tree : Tree} {token : Token} (h : tree.name? = some token)
    (s : Session) : (binderName tree).run s = .ok (.ok token, s) := by
  unfold Tree.name? at h
  split at h
  · next found =>
    split at h
    · next hname =>
      cases h
      simp only [binderName, if_pos hname, run_pure]
    · cases h
  · cases h

theorem run_binderName_none {tree : Tree} (h : tree.name? = none) (s : Session) :
    (binderName tree).run s =
      .ok (.error (.malformedTree "expected a name to bind"),
        s.report ⟨.malformedTree "expected a name to bind", tree.span⟩) := by
  cases tree with
  | terminal token =>
    have hname : ¬ token.kind.isName = true := fun hname => by simp [Tree.name?, hname] at h
    simp only [binderName, if_neg hname, malformed, run_fail]
  | _ => simp only [binderName, malformed, run_fail]

/-- Finding the type that an expression designates. -/
theorem run_resolveType {s : Session} (hw : s.context.WellFormed) (e : Elaboration) (span : Span) :
    (resolveType e span).run s = match s.context.designation e span with
      | .ok ty => .ok (.ok ty, s)
      | .error fault => .ok (.error fault.error, s.report fault) := by
  simp only [resolveType, run_bind, run_expectType, Context.designation]
  by_cases hty : e.ty = .kind
  · simp only [if_pos hty, run_inspect]
    cases hnode : s.context.node? e.expr with
    | none => simp only [run_fail]
    | some node =>
      cases node with
      | var name d =>
        -- a variable refers to a declaration
        have hname : s.context.declName? d = some name := hw.admits _ _ hnode
        obtain ⟨decl, hdecl, -⟩ := Option.bind_eq_some_iff.1 hname
        have hdeclared : (require fun cx => cx.decl? d).run s = .ok (.ok decl, s) :=
          run_require hdecl
        simp only [run_bind, hdeclared, hdecl, Option.bind_some]
        cases decl.init with
        | none => simp only [run_fail]
        | some init =>
          simp only [run_bind, run_inspect]
          cases s.context.type? init with
          | none => simp only [run_fail]
          | some ty => simp only [run_pure]
      | _ => simp only [run_fail]
  · simp only [if_neg hty]

theorem run_elaborateBinding {name : Tree} {token : Token} {span : Span} {type : Elab Elaboration}
    {s s' : Session} {e : Elaboration} {ty : Ty} (hname : name.name? = some token)
    (htype : type.run s = .ok (.ok e, s')) (hw : s'.context.WellFormed)
    (hty : s'.context.designation e span = .ok ty) :
    (elaborateBinding name span type).run s =
      .ok (.ok ⟨⟨s'.context.size + 1⟩, ⟨s'.context.size⟩, ty⟩, s'.addBinding token.text ty) := by
  simp only [elaborateBinding, run_bind, run_binderName_some hname, htype, run_resolveType hw, hty,
    run_extend, run_add, run_pure, Context.size_addId]
  rfl

/-- A binding that was elaborated is behind its handle. -/
theorem node?_of_run_elaborateBinding {name : Tree} {span : Span} {type : Elab Elaboration}
    {s s' : Session} {b : Binding}
    (h : (elaborateBinding name span type).run s = .ok (.ok b, s')) :
    s'.context.node? b.expr = some (.bind b.name b.ty) := by
  simp only [elaborateBinding, run_bind, run_extend, run_add, run_pure] at h
  split at h
  · cases h
  · cases h
  · split at h
    · cases h
    · cases h
    · split at h
      · cases h
      · cases h
      · cases h
        exact Context.node?_add_self _ _

/-- A body is elaborated between entering a scope and leaving it. -/
theorem run_elaborateBody {b : Binding} {span : Span} {body : Elab Elaboration} {s s₂ : Session}
    {d : DeclRef} {inner outer : Context} {r : Except ElabError Elaboration}
    (hdeclare : s.context.enterScope.declareId b.name b.ty none = .ok (d, inner))
    (hbody : (do let e ← body; expectType e .bool span; return e : Elab Elaboration).run
      (s.moveTo inner (.scopeEntered (s.context.depth + 1))) = .ok (r, s₂))
    (hleave : s₂.context.leaveScope = .ok outer) :
    (elaborateBody b span body).run s = .ok (r, s₂.moveTo outer (.scopeLeft outer.depth)) := by
  have hdeclared : (attempt fun cx => cx.declareId b.name b.ty none).run
      ⟨s.context.enterScope, s.events.push (.scopeEntered (s.context.depth + 1))⟩ =
        .ok (.ok d, s.moveTo inner (.scopeEntered (s.context.depth + 1))) :=
    run_attempt hdeclare
  have hinner : (do
      let _ ← attempt fun cx => cx.declareId b.name b.ty none
      let e ← body
      expectType e .bool span
      return e : Elab Elaboration).run
        ⟨s.context.enterScope, s.events.push (.scopeEntered (s.context.depth + 1))⟩ =
          .ok (r, s₂) := by
    rw [run_bind, hdeclared]
    exact hbody
  have hleft : Action.leaveScope s₂ = .ok ((), s₂.moveTo outer (.scopeLeft outer.depth)) := by
    simp only [Action.leaveScope, Action.attempt, Action.inspect, Action.record, bind,
      StateT.bind, Except.bind, hleave, Except.map]
    rfl
  show Action.inScope _ s = _
  simp only [Action.inScope, bind, StateT.bind, Except.bind, Action.run_enterScope] at hinner ⊢
  rw [hinner]
  simp only [hleft]
  rfl

section Body

variable {b : Binding} (span : Span) {body : Elab Elaboration} {s s₂ : Session} {d : DeclRef}
  {inner outer : Context}

theorem run_elaborateBody_error {error : ElabError}
    (hdeclare : s.context.enterScope.declareId b.name b.ty none = .ok (d, inner))
    (hbody : body.run (s.moveTo inner (.scopeEntered (s.context.depth + 1))) =
      .ok (.error error, s₂))
    (hleave : s₂.context.leaveScope = .ok outer) :
    (elaborateBody b span body).run s =
      .ok (.error error, s₂.moveTo outer (.scopeLeft outer.depth)) := by
  refine run_elaborateBody hdeclare ?_ hleave
  simp only [run_bind, hbody]

theorem run_elaborateBody_mismatch {e : Elaboration}
    (hdeclare : s.context.enterScope.declareId b.name b.ty none = .ok (d, inner))
    (hbody : body.run (s.moveTo inner (.scopeEntered (s.context.depth + 1))) = .ok (.ok e, s₂))
    (hleave : s₂.context.leaveScope = .ok outer) (hty : e.ty ≠ .bool) :
    (elaborateBody b span body).run s = .ok (.error (.typeMismatch .bool e.ty),
      (s₂.report ⟨.typeMismatch .bool e.ty, span⟩).moveTo outer (.scopeLeft outer.depth)) := by
  refine run_elaborateBody hdeclare ?_ hleave
  simp only [run_bind, hbody, run_expectType, if_neg hty]

theorem run_elaborateBody_ok {e : Elaboration}
    (hdeclare : s.context.enterScope.declareId b.name b.ty none = .ok (d, inner))
    (hbody : body.run (s.moveTo inner (.scopeEntered (s.context.depth + 1))) = .ok (.ok e, s₂))
    (hleave : s₂.context.leaveScope = .ok outer) (hty : e.ty = .bool) :
    (elaborateBody b span body).run s =
      .ok (.ok e, s₂.moveTo outer (.scopeLeft outer.depth)) := by
  refine run_elaborateBody hdeclare ?_ hleave
  simp only [run_bind, hbody, run_expectType, if_pos hty, run_pure]

end Body

/-! ## running trees -/

section Shape

variable {op : Token} {left right : Tree}

/-- A node under an infix operator is elaborated as such. -/
theorem elaborate_operation {form : InfixForm} (h : InfixForm.ofToken? op.kind = some form) :
    elaborate (.binary op left right) =
      elaborateInfix op left.span right.span (elaborate left) (elaborate right) := by
  obtain ⟨hcolon, hassign, hq⟩ := InfixForm.kind_of_ofToken? h
  rw [elaborate.eq_def]
  simp only [hq, if_neg hcolon, if_neg hassign]

/-- A node of a token that is no infix operator, no quantifier and no mark is
refused. -/
theorem elaborate_other (hform : InfixForm.ofToken? op.kind = none)
    (hq : Quantifier.ofToken? op.kind = none) (hcolon : op.kind ≠ .colon)
    (hassign : op.kind ≠ .assign) :
    elaborate (.binary op left right) =
      malformed s!"`{op.text}` is not a binary operator" ((left.span.join op.span).join right.span) := by
  rw [elaborate.eq_def]
  simp only [hq, if_neg hcolon, if_neg hassign, elaborateInfix, hform]

theorem elaborate_assign (h : op.kind = .assign) : elaborate (.binary op left right) =
    malformed "definitions are only allowed as statements" (Tree.binary op left right).span := by
  rw [elaborate.eq_def]
  simp only [h, Quantifier.ofToken?, reduceCtorEq, if_false, if_true]

theorem elaborate_colon (h : op.kind = .colon) : elaborate (.binary op left right) = do
    let b ← elaborateBinding left right.span (elaborate right)
    return ⟨b.expr, b.ty⟩ := by
  rw [elaborate.eq_def]
  simp only [h, Quantifier.ofToken?, if_true]

theorem elaborate_quantifier {q : Quantifier} {colon : Token} {name type : Tree}
    (hq : Quantifier.ofToken? op.kind = some q) (hcolon : colon.kind = .colon) :
    elaborate (.binary op (.binary colon name type) right) =
      elaborateQuantified q (elaborateBinding name type.span (elaborate type)) right.span
        (elaborate right) := by
  rw [elaborate.eq_def]
  simp only [hq, if_pos hcolon]

theorem elaborate_noBinding {q : Quantifier} (hq : Quantifier.ofToken? op.kind = some q)
    (hleft : ¬ left.IsBinding) : elaborate (.binary op left right) =
      malformed s!"`{op.text}` expects a binding `name : type`" left.span := by
  rw [elaborate.eq_def]
  cases left with
  | binary colon name type => simp only [hq, if_neg (show ¬ colon.kind = .colon from hleft)]
  | _ => simp only [hq]

end Shape

section Binding

variable {colon : Token} {name type : Tree} {s s' : Session}

/-- A binding that fails as a tree fails in front of a body. -/
theorem run_elaborateBinding_error {error : ElabError} (hcolon : colon.kind = .colon)
    (h : (elaborate (.binary colon name type)).run s = .ok (.error error, s')) :
    (elaborateBinding name type.span (elaborate type)).run s = .ok (.error error, s') := by
  rw [elaborate_colon hcolon, run_bind] at h
  split at h
  · cases h
  · next hrun => cases h; exact hrun
  · cases h

/-- A binding that was elaborated as a tree is the one in front of a body. -/
theorem run_elaborateBinding_ok {b : Elaboration} {id : NodeRef} (hcolon : colon.kind = .colon)
    (h : (elaborate (.binary colon name type)).run s = .ok (.ok b, s'))
    (hnode : s'.context.node? b.expr = some (.bind id b.ty)) :
    (elaborateBinding name type.span (elaborate type)).run s =
      .ok (.ok ⟨b.expr, id, b.ty⟩, s') := by
  rw [elaborate_colon hcolon, run_bind] at h
  split at h
  · cases h
  · cases h
  · next binding _ hrun =>
    cases h
    have hfound := node?_of_run_elaborateBinding hrun
    rw [hnode] at hfound
    cases binding
    cases hfound
    exact hrun

end Binding

/-! ## agreement -/

/-- What a course comes to is what the program returns. -/
theorem Elaborates.run {tree : Tree} {s : Session} {out : Conclusion} (h : Elaborates tree s out)
    (hw : s.context.WellFormed) : (elaborate tree).run s = .ok out := by
  induction h with
  | enclosed _ ih => exact ih hw
  | named hkind hlookup hdecl hname => exact run_elaborateTerminal_named hkind hlookup hdecl hname
  | unbound hkind hlookup => exact run_elaborateTerminal_unbound hkind hlookup
  | constant hkind => exact run_elaborateTerminal_constant hkind _
  | noPrefix hform =>
    rw [elaborate, elaboratePrefix, hform]
    exact run_malformed ..
  | operandFailed hform _ ih =>
    rw [elaborate, elaboratePrefix, hform]
    simp only [run_bind, ih hw]
  | prefixed hform _ ih => exact run_elaboratePrefix hform (ih hw)
  | noInfix hform hq hcolon hassign =>
    rw [elaborate_other hform hq hcolon hassign]
    exact run_malformed ..
  | leftFailed hform _ ih =>
    rw [elaborate_operation hform, elaborateInfix, hform]
    simp only [run_bind, ih hw]
  | rightFailed hform hl _ ihl ihr =>
    rw [elaborate_operation hform, elaborateInfix, hform]
    simp only [run_bind, ihl hw, ihr (hl.kept hw).wellFormed]
  | infixed hform hl _ ihl ihr =>
    rw [elaborate_operation hform]
    exact run_elaborateInfix hform (ihl hw) (ihr (hl.kept hw).wellFormed)
  | definition hop =>
    rw [elaborate_assign hop]
    exact run_malformed ..
  | noName hop hname =>
    rw [elaborate_colon hop, elaborateBinding]
    simp only [run_bind, run_binderName_none hname]
    rfl
  | typeFailed hop hname _ ih =>
    rw [elaborate_colon hop, elaborateBinding]
    simp only [run_bind, run_binderName_some hname, ih hw]
  | noType hop hname htype hty ih =>
    rw [elaborate_colon hop, elaborateBinding]
    simp only [run_bind, run_binderName_some hname, ih hw, run_resolveType (htype.kept hw).wellFormed,
      hty]
    rfl
  | bound hop hname htype hty ih =>
    rw [elaborate_colon hop, run_bind,
      run_elaborateBinding hname (ih hw) (htype.kept hw).wellFormed hty]
    rfl
  | noBinding hq hleft =>
    rw [elaborate_noBinding hq hleft]
    exact run_malformed ..
  | @bindingFailed op left right _ _ q _ hq hleft _ ih =>
    cases left with
    | binary colon name type =>
      rw [elaborate_quantifier hq hleft, elaborateQuantified, run_bind,
        run_elaborateBinding_error hleft (ih hw)]
    | _ => exact hleft.elim
  | @bodyFailed op left right _ _ _ q b id _ _ _ _ hq hleft hb hnode hdeclare _ hleave ihb ih =>
    cases left with
    | binary colon name type =>
      have hinner := (hb.kept hw).wellFormed.enterScope.declareVar hdeclare
      have hbody := run_elaborateBody_error (b := ⟨b.expr, id, b.ty⟩) right.span hdeclare
        (ih hinner) hleave
      rw [elaborate_quantifier hq hleft, elaborateQuantified, run_bind,
        run_elaborateBinding_ok hleft (ihb hw) hnode]
      simp only [run_bind, hbody]
    | _ => exact hleft.elim
  | @bodyRefused op left right _ _ _ q b e id _ _ _ hq hleft hb hnode hdeclare _ hleave hty ihb ih =>
    cases left with
    | binary colon name type =>
      have hinner := (hb.kept hw).wellFormed.enterScope.declareVar hdeclare
      have hbody := run_elaborateBody_mismatch (b := ⟨b.expr, id, b.ty⟩) right.span hdeclare
        (ih hinner) hleave hty
      rw [elaborate_quantifier hq hleft, elaborateQuantified, run_bind,
        run_elaborateBinding_ok hleft (ihb hw) hnode]
      simp only [run_bind, hbody]
    | _ => exact hleft.elim
  | @quantified op left right _ _ _ q b e id _ _ _ hq hleft hb hnode hdeclare _ hleave hty ihb ih =>
    cases left with
    | binary colon name type =>
      have hinner := (hb.kept hw).wellFormed.enterScope.declareVar hdeclare
      have hbody := run_elaborateBody_ok (b := ⟨b.expr, id, b.ty⟩) right.span hdeclare
        (ih hinner) hleave hty
      rw [elaborate_quantifier hq hleft, elaborateQuantified, run_bind,
        run_elaborateBinding_ok hleft (ihb hw) hnode]
      simp only [run_bind, hbody, run_build]
      rfl
    | _ => exact hleft.elim

/-- The parts of a binding that was elaborated. -/
theorem Elaborates.binding_parts {colon : Token} {left right : Tree} {s s' : Session}
    {b : Elaboration} (h : Elaborates (.binary colon left right) s (.ok b, s'))
    (hcolon : colon.kind = .colon) : ∃ name e s₀ ty, left.name? = some name ∧
      Elaborates right s (.ok e, s₀) ∧ s₀.context.designation e right.span = .ok ty ∧
      b = ⟨⟨s₀.context.size + 1⟩, ty⟩ ∧ s' = s₀.addBinding name.text ty := by
  generalize hout : (Except.ok b, s') = out at h
  cases h with
  | bound _ hname htype hty =>
    cases hout
    exact ⟨_, _, _, _, hname, htype, hty, rfl, rfl⟩
  | infixed hform => exact absurd hcolon (InfixForm.kind_of_ofToken? hform).1
  | quantified hq => exact absurd hcolon (Quantifier.kind_of_ofToken? hq).1
  | noInfix _ _ hother => exact absurd hcolon hother
  | definition hassign => simp [hcolon] at hassign
  | _ => cases hout

/-- The body of a quantifier has a scope in which to be elaborated. -/
theorem Elaborates.exists_scope {left : Tree} {s s₁ : Session} {b : Elaboration}
    (h : Elaborates left s (.ok b, s₁)) (hleft : left.IsBinding) : ∃ id d inner,
      s₁.context.node? b.expr = some (.bind id b.ty) ∧
      s₁.context.enterScope.declareId id b.ty none = .ok (d, inner) := by
  cases left with
  | binary colon left right =>
    obtain ⟨name, e, s₀, ty, -, -, -, rfl, rfl⟩ := h.binding_parts hleft
    obtain ⟨hnode, hsymbol⟩ := s₀.node?_addBinding name.text ty
    obtain ⟨inner, hdeclare, -⟩ := Context.exists_declareId_enterScope hsymbol ty none
    exact ⟨_, _, inner, hnode, hdeclare⟩
  | _ => exact hleft.elim

/-- The scope in which a body was elaborated can be left again. -/
theorem Elaborates.exists_leaveScope {body : Tree} {s : Session} {id : NodeRef} {ty : Ty}
    {d : DeclRef} {inner : Context} {event : Event} {out : Conclusion}
    (h : Elaborates body (s.moveTo inner event) out) (hw : s.context.WellFormed)
    (hdeclare : s.context.enterScope.declareId id ty none = .ok (d, inner)) :
    ∃ outer, out.2.context.leaveScope = .ok outer := by
  have hinner := hw.enterScope.declareVar hdeclare
  have hscopes := (h.kept hinner).scopes
  obtain ⟨name, scopes, -, hinsert, -, rfl⟩ := Context.declareId_eq_ok_iff.1 hdeclare
  obtain ⟨env, around, hcons, -, rfl⟩ := ScopeStack.insert_eq_ok_iff.1 hinsert
  cases hcons
  exact ⟨_, Context.leaveScope_of_push hw.depth_pos hscopes⟩

/-- Every name that is looked up has a declaration of that name. -/
theorem Context.WellFormed.exists_decl {cx : Context} (h : cx.WellFormed) {text : String}
    {d : DeclRef} (hd : cx.lookup? text = some d) :
    ∃ name decl, cx.interner.find? text = some name ∧ cx.decl? d = some decl ∧
      cx.declName? d = some name := by
  obtain ⟨name, hname, hfind⟩ := Option.bind_eq_some_iff.1 hd
  have hdeclName := h.declName?_of_find? hfind
  obtain ⟨decl, hdecl, -⟩ := Option.bind_eq_some_iff.1 hdeclName
  exact ⟨name, decl, hname, hdecl, hdeclName⟩

/-- Every tree has a course in every well formed context. -/
theorem exists_elaborates (tree : Tree) {s : Session} (hw : s.context.WellFormed) :
    ∃ out, Elaborates tree s out := by
  induction tree generalizing s with
  | enclosed opening body closing ih =>
    obtain ⟨out, hout⟩ := ih hw
    exact ⟨out, .enclosed hout⟩
  | terminal token =>
    by_cases hkind : token.kind.isName = true
    · cases hlookup : s.context.lookup? token.text with
      | none => exact ⟨_, .unbound hkind hlookup⟩
      | some d =>
        obtain ⟨name, decl, -, hdecl, hname⟩ := hw.exists_decl hlookup
        exact ⟨_, .named hkind hlookup hdecl hname⟩
    · exact ⟨_, .constant (by simpa using hkind)⟩
  | unary op operand ih =>
    cases hform : PrefixForm.ofToken? op.kind with
    | none => exact ⟨_, .noPrefix hform⟩
    | some form =>
      obtain ⟨⟨_ | e, s'⟩, hoperand⟩ := ih hw
      · exact ⟨_, .operandFailed hform hoperand⟩
      · exact ⟨_, .prefixed hform hoperand⟩
  | binary op left right ihl ihr =>
    cases hform : InfixForm.ofToken? op.kind with
    | some form =>
      obtain ⟨⟨_ | l, s₁⟩, hl⟩ := ihl hw
      · exact ⟨_, .leftFailed hform hl⟩
      · obtain ⟨⟨_ | r, s₂⟩, hr⟩ := ihr (hl.kept hw).wellFormed
        · exact ⟨_, .rightFailed hform hl hr⟩
        · exact ⟨_, .infixed hform hl hr⟩
    | none =>
      cases hq : Quantifier.ofToken? op.kind with
      | some q =>
        by_cases hleft : left.IsBinding
        · obtain ⟨⟨_ | b, s₁⟩, hb⟩ := ihl hw
          · exact ⟨_, .bindingFailed hq hleft hb⟩
          · have hw₁ := (hb.kept hw).wellFormed
            obtain ⟨id, d, inner, hnode, hdeclare⟩ := hb.exists_scope hleft
            have hinner := hw₁.enterScope.declareVar hdeclare
            obtain ⟨⟨r, s₂⟩, hbody⟩ :=
              ihr (s := s₁.moveTo inner (.scopeEntered (s₁.context.depth + 1))) hinner
            -- the body keeps the scopes, so the one that was entered is left
            obtain ⟨_, hleave⟩ := hbody.exists_leaveScope hw₁ hdeclare
            cases r with
            | error error => exact ⟨_, .bodyFailed hq hleft hb hnode hdeclare hbody hleave⟩
            | ok e =>
              by_cases hty : e.ty = .bool
              · exact ⟨_, .quantified hq hleft hb hnode hdeclare hbody hleave hty⟩
              · exact ⟨_, .bodyRefused hq hleft hb hnode hdeclare hbody hleave hty⟩
        · exact ⟨_, .noBinding hq hleft⟩
      | none =>
        by_cases hcolon : op.kind = .colon
        · cases hname : left.name? with
          | none => exact ⟨_, .noName hcolon hname⟩
          | some name =>
            obtain ⟨⟨_ | e, s'⟩, htype⟩ := ihr hw
            · exact ⟨_, .typeFailed hcolon hname htype⟩
            · cases hty : s'.context.designation e right.span with
              | error fault => exact ⟨_, .noType hcolon hname htype hty⟩
              | ok ty => exact ⟨_, .bound hcolon hname htype hty⟩
        · by_cases hassign : op.kind = .assign
          · exact ⟨_, .definition hassign⟩
          · exact ⟨_, .noInfix hform hq hcolon hassign⟩

/-- In a well formed context the program takes exactly the courses of
`Elaborates`. -/
theorem run_elaborate_iff {tree : Tree} {s : Session} {out : Conclusion}
    (hw : s.context.WellFormed) : (elaborate tree).run s = .ok out ↔ Elaborates tree s out := by
  obtain ⟨other, hother⟩ := exists_elaborates tree hw
  constructor
  · intro hrun
    cases hrun.symm.trans (hother.run hw)
    exact hother
  · intro h
    exact h.run hw

end ArithLogic
