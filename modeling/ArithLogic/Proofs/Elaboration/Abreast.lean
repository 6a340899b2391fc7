import ArithLogic.Proofs.Context.Renumbering
import ArithLogic.Proofs.Elaboration.Statements

/-!
# ArithLogic.Proofs.Elaboration.Abreast

Elaborating the same tree in two sessions.  The context of the one is embedded
in that of the other by a renumbering; every step of the one is a step of the
other as well, with the handles renumbered, and the two record the same
events.  So both come to the same conclusion (`Elaborates.matched`), and to
contexts of which again one is embedded in the other, by the same renumbering.
-/

namespace ArithLogic

variable {ρ : Renumbering} {past bigPast : Array Event}

/-- The context of the one session is embedded in that of the other, and both
have recorded the same events since they had recorded those of the past. -/
structure Abreast (ρ : Renumbering) (past bigPast : Array Event) (s big : Session) : Prop where
  context : s.context.Embeds ρ big.context
  events : ∃ new, s.events = past ++ new ∧ big.events = bigPast ++ new

/-- The conclusion is one of the other session too, in which it has come to
`course`, but for the handles. -/
def Matched (ρ : Renumbering) (past bigPast : Array Event) (course : Conclusion → Prop)
    (out : Conclusion) : Prop :=
  ∃ big, course (out.1.map (Elaboration.renumber ρ), big) ∧ Abreast ρ past bigPast out.2 big

/-! ## verdicts -/

/-- The verdict with the handles renumbered. -/
def Verdict.renumber (ρ : Renumbering) : Verdict → Verdict
  | build node ty => .build (node.renumber ρ) ty
  | refuse first others => .refuse first others

theorem Verdict.renumber_unless (verdict : Verdict) (faults : List Fault) :
    (verdict.unless faults).renumber ρ = (verdict.renumber ρ).unless faults := by
  cases faults <;> rfl

theorem Token.verdict_renumber (token : Token) : token.verdict.renumber ρ = token.verdict := by
  unfold verdict
  split
  · rfl
  · rfl
  · split <;> rfl
  · rfl

theorem PrefixForm.verdict_renumber (form : PrefixForm) (e : Elaboration) (span : Span) :
    (form.verdict e span).renumber ρ = form.verdict (e.renumber ρ) span := by
  rw [verdict, Verdict.renumber_unless]
  cases form <;> rfl

section Embeds

variable {cx big : Context} (h : cx.Embeds ρ big)
include h

theorem Context.Embeds.infixVerdict_eq (op : Token) (l r : Elaboration) (leftSpan rightSpan : Span)
    (form : InfixForm) :
    big.infixVerdict op (l.renumber ρ) (r.renumber ρ) leftSpan rightSpan form =
      (cx.infixVerdict op l r leftSpan rightSpan form).renumber ρ := by
  cases form with
  | additive | relation | connective => rfl
  | product =>
    simp only [infixVerdict, Elaboration.renumber, h.isLiteral_eq]
    split
    · rfl
    · split <;> rfl
  | quotient =>
    simp only [infixVerdict, Elaboration.renumber, h.isLiteral_eq]
    split <;> rfl

/-- An expression designates the same type in both contexts. -/
theorem Context.Embeds.designation_eq (e : Elaboration) (span : Span) :
    big.designation (e.renumber ρ) span = cx.designation e span := by
  simp only [designation, Elaboration.renumber, h.node]
  cases cx.node? e.expr with
  | none => rfl
  | some node =>
    cases node with
    | var name d =>
      simp only [Option.map_some, Node.renumber, h.decl]
      cases cx.decl? d with
      | none => rfl
      | some decl =>
        obtain ⟨id, ty, init⟩ := decl
        cases init with
        | none => rfl
        | some init =>
          simp only [Option.map_some, Option.bind_some, Decl.renumber, h.type?_eq]
    | _ => rfl

/-- A definition gets corresponding initial values in both contexts. -/
theorem Context.Embeds.initialOf_eq (hw : cx.WellFormed) (hbig : big.WellFormed) (e : Elaboration)
    (span : Span) :
    big.initialOf (e.renumber ρ) span = (cx.initialOf e span).map ρ.node := by
  rw [initialOf, h.designation_eq, initialOf]
  show (if e.ty = .kind then _ else _) = _
  by_cases hty : e.ty = .kind
  · rw [if_pos hty, if_pos hty]
    cases cx.designation e span with
    | error fault => rfl
    | ok ty => exact congrArg Except.ok (h.node_ref hw hbig ty).symm
  · rw [if_neg hty, if_neg hty]
    rfl

end Embeds

/-! ## steps in both sessions -/

namespace Abreast

variable {s big : Session} {course : Conclusion → Prop}

theorem start (h : s.context.Embeds ρ big.context) : Abreast ρ s.events big.events s big :=
  ⟨h, #[], by simp, by simp⟩

/-- Nothing is recorded. -/
theorem withContext (h : Abreast ρ past bigPast s big) {cx bigCx : Context} (hcx : cx.Embeds ρ bigCx) :
    Abreast ρ past bigPast ⟨cx, s.events⟩ ⟨bigCx, big.events⟩ :=
  ⟨hcx, h.events⟩

/-- Both record the same event. -/
theorem moveTo (h : Abreast ρ past bigPast s big) {cx bigCx : Context} (hcx : cx.Embeds ρ bigCx)
    (event : Event) : Abreast ρ past bigPast (s.moveTo cx event) (big.moveTo bigCx event) := by
  obtain ⟨new, hs, hbig⟩ := h.events
  refine ⟨hcx, new.push event, ?_, ?_⟩
  · rw [Session.moveTo, hs, Array.push_append]
  · rw [Session.moveTo, hbig, Array.push_append]

theorem report (h : Abreast ρ past bigPast s big) (fault : Fault) :
    Abreast ρ past bigPast (s.report fault) (big.report fault) :=
  h.moveTo h.context _

theorem foldl_report (h : Abreast ρ past bigPast s big) (faults : List Fault) :
    Abreast ρ past bigPast (faults.foldl Session.report s) (faults.foldl Session.report big) := by
  induction faults generalizing s big with
  | nil => exact h
  | cons fault faults ih => exact ih (h.report fault)

/-- The same verdict, but for the handles, leads to matching conclusions. -/
theorem conclude (h : Abreast ρ past bigPast s big) {verdict : Verdict}
    (hcourse : course (big.conclude (verdict.renumber ρ))) :
    Matched ρ past bigPast course (s.conclude verdict) := by
  cases verdict with
  | build node ty =>
    refine ⟨_, ?_, h.withContext (h.context.add node)⟩
    show course (.ok ⟨ρ.node ⟨s.context.size⟩, ty⟩, _)
    rw [h.context.node_size]
    exact hcourse
  | refuse first others => exact ⟨_, hcourse, h.foldl_report (first :: others)⟩

theorem addBinding (h : Abreast ρ past bigPast s big) (text : String) (ty : Ty) :
    Abreast ρ past bigPast (s.addBinding text ty) (big.addBinding text ty) := by
  have hbind : Node.renumber ρ (.bind ⟨s.context.size⟩ ty) = .bind ⟨big.context.size⟩ ty :=
    congrArg (Node.bind · ty) h.context.node_size
  have hadded := (h.context.addId text).add (.bind ⟨s.context.size⟩ ty)
  rw [hbind] at hadded
  exact h.withContext hadded

/-- The scope of a quantifier's body is entered. -/
theorem enter (h : Abreast ρ past bigPast s big) {id : NodeRef} {ty : Ty} {d : DeclRef}
    {inner : Context} (hdeclare : s.context.enterScope.declareId id ty none = .ok (d, inner)) :
    ∃ bigInner, big.context.enterScope.declareId (ρ.node id) ty none = .ok (ρ.decl d, bigInner) ∧
      Abreast ρ past bigPast (s.moveTo inner (.scopeEntered (s.context.depth + 1)))
        (big.moveTo bigInner (.scopeEntered (big.context.depth + 1))) := by
  obtain ⟨bigInner, hbigDeclare, hinner⟩ := h.context.enterScope.declareId hdeclare
  rw [h.context.depth_eq]
  exact ⟨bigInner, hbigDeclare, h.moveTo hinner _⟩

/-- The scope of a quantifier's body is left. -/
theorem leave (h : Abreast ρ past bigPast s big) {outer : Context}
    (hleave : s.context.leaveScope = .ok outer) :
    ∃ bigOuter, big.context.leaveScope = .ok bigOuter ∧
      Abreast ρ past bigPast (s.moveTo outer (.scopeLeft outer.depth))
        (big.moveTo bigOuter (.scopeLeft bigOuter.depth)) := by
  obtain ⟨bigOuter, hbigLeave, houter⟩ := h.context.leaveScope hleave
  refine ⟨bigOuter, hbigLeave, ?_⟩
  rw [houter.depth_eq]
  exact h.moveTo houter _

/-- The body of a quantifier is elaborated in the scope that was entered. -/
theorem body (h : Abreast ρ past bigPast s big) (hbig : big.context.WellFormed) {tree : Tree}
    {id : NodeRef} {ty : Ty} {d : DeclRef} {inner : Context} {out : Conclusion}
    (hdeclare : s.context.enterScope.declareId id ty none = .ok (d, inner))
    (hbody : ∀ {big' : Session},
      Abreast ρ past bigPast (s.moveTo inner (.scopeEntered (s.context.depth + 1))) big' →
      big'.context.WellFormed → Matched ρ past bigPast (Elaborates tree big') out) :
    ∃ bigInner big', big.context.enterScope.declareId (ρ.node id) ty none = .ok (ρ.decl d, bigInner) ∧
      Elaborates tree (big.moveTo bigInner (.scopeEntered (big.context.depth + 1)))
        (out.1.map (Elaboration.renumber ρ), big') ∧ Abreast ρ past bigPast out.2 big' := by
  obtain ⟨bigInner, hbigDeclare, hinner⟩ := h.enter hdeclare
  obtain ⟨big', hcourse, h'⟩ := hbody hinner (hbig.enterScope.declareVar hbigDeclare)
  exact ⟨bigInner, big', hbigDeclare, hcourse, h'⟩

end Abreast

/-! ## expressions -/

/-- Elaborated in both sessions, a tree comes to matching conclusions. -/
theorem Elaborates.matched {tree : Tree} {s big : Session} {out : Conclusion}
    (h : Elaborates tree s out) (hs : Abreast ρ past bigPast s big) (hw : s.context.WellFormed)
    (hbig : big.context.WellFormed) : Matched ρ past bigPast (Elaborates tree big) out := by
  induction h generalizing big with
  | enclosed _ ih =>
    obtain ⟨big', hcourse, hs'⟩ := ih hs hw hbig
    exact ⟨big', .enclosed hcourse, hs'⟩
  | named hkind hlookup hdecl hname =>
    have hbigLookup :=
      (hs.context.lookup?_eq hw hbig _).trans (congrArg (Option.map ρ.decl) hlookup)
    have hnamed := Elaborates.named hkind hbigLookup (hs.context.decl_some hdecl)
      ((hs.context.declName?_eq _).trans hname)
    exact hs.conclude hnamed
  | unbound hkind hlookup =>
    have hbigLookup :=
      (hs.context.lookup?_eq hw hbig _).trans (congrArg (Option.map ρ.decl) hlookup)
    exact hs.conclude (.unbound hkind hbigLookup)
  | constant hkind =>
    exact hs.conclude (by rw [Token.verdict_renumber]; exact .constant hkind)
  | noPrefix hform => exact hs.conclude (.noPrefix hform)
  | operandFailed hform _ ih =>
    obtain ⟨big', hcourse, hs'⟩ := ih hs hw hbig
    exact ⟨big', .operandFailed hform hcourse, hs'⟩
  | prefixed hform _ ih =>
    obtain ⟨big', hcourse, hs'⟩ := ih hs hw hbig
    exact hs'.conclude (by rw [PrefixForm.verdict_renumber]; exact .prefixed hform hcourse)
  | noInfix hform hq hcolon hassign => exact hs.conclude (.noInfix hform hq hcolon hassign)
  | leftFailed hform _ ih =>
    obtain ⟨big', hcourse, hs'⟩ := ih hs hw hbig
    exact ⟨big', .leftFailed hform hcourse, hs'⟩
  | rightFailed hform hl _ ihl ihr =>
    obtain ⟨big₁, hbl, hs₁⟩ := ihl hs hw hbig
    obtain ⟨big₂, hbr, hs₂⟩ := ihr hs₁ (hl.kept hw).wellFormed (hbl.kept hbig).wellFormed
    exact ⟨big₂, .rightFailed hform hbl hbr, hs₂⟩
  | infixed hform hl _ ihl ihr =>
    obtain ⟨big₁, hbl, hs₁⟩ := ihl hs hw hbig
    obtain ⟨big₂, hbr, hs₂⟩ := ihr hs₁ (hl.kept hw).wellFormed (hbl.kept hbig).wellFormed
    refine hs₂.conclude ?_
    rw [Verdict.renumber_unless, ← hs₂.context.infixVerdict_eq]
    exact .infixed hform hbl hbr
  | definition hop => exact hs.conclude (.definition hop)
  | noName hop hname => exact hs.conclude (.noName hop hname)
  | typeFailed hop hname _ ih =>
    obtain ⟨big', hcourse, hs'⟩ := ih hs hw hbig
    exact ⟨big', .typeFailed hop hname hcourse, hs'⟩
  | noType hop hname _ hty ih =>
    obtain ⟨big', hcourse, hs'⟩ := ih hs hw hbig
    exact hs'.conclude (.noType hop hname hcourse ((hs'.context.designation_eq _ _).trans hty))
  | @bound op name left right s s' e ty hop hname _ hty ih =>
    obtain ⟨big', hcourse, hs'⟩ := ih hs hw hbig
    have hbound := Elaborates.bound hop hname hcourse ((hs'.context.designation_eq _ _).trans hty)
    rw [← hs'.context.node_size_add 1] at hbound
    exact ⟨_, hbound, hs'.addBinding name.text ty⟩
  | noBinding hq hleft => exact hs.conclude (.noBinding hq hleft)
  | bindingFailed hq hleft _ ih =>
    obtain ⟨big', hcourse, hs'⟩ := ih hs hw hbig
    exact ⟨big', .bindingFailed hq hleft hcourse, hs'⟩
  | bodyFailed hq hleft hb hnode hdeclare _ hleave ihb ih =>
    obtain ⟨big₁, hbb, hs₁⟩ := ihb hs hw hbig
    have hw₁ := (hb.kept hw).wellFormed.enterScope.declareVar hdeclare
    obtain ⟨bigInner, big₂, hbigDeclare, hbody, hs₂⟩ :=
      hs₁.body (hbb.kept hbig).wellFormed hdeclare (ih · hw₁)
    obtain ⟨bigOuter, hbigLeave, hs₃⟩ := hs₂.leave hleave
    exact ⟨_, .bodyFailed hq hleft hbb (hs₁.context.node_some hnode) hbigDeclare hbody hbigLeave, hs₃⟩
  | bodyRefused hq hleft hb hnode hdeclare _ hleave hty ihb ih =>
    obtain ⟨big₁, hbb, hs₁⟩ := ihb hs hw hbig
    have hw₁ := (hb.kept hw).wellFormed.enterScope.declareVar hdeclare
    obtain ⟨bigInner, big₂, hbigDeclare, hbody, hs₂⟩ :=
      hs₁.body (hbb.kept hbig).wellFormed hdeclare (ih · hw₁)
    obtain ⟨bigOuter, hbigLeave, hs₃⟩ := (hs₂.report ⟨_, _⟩).leave hleave
    have hrefused := Elaborates.bodyRefused hq hleft hbb (hs₁.context.node_some hnode) hbigDeclare
      hbody hbigLeave hty
    exact ⟨_, hrefused, hs₃⟩
  | quantified hq hleft hb hnode hdeclare _ hleave hty ihb ih =>
    obtain ⟨big₁, hbb, hs₁⟩ := ihb hs hw hbig
    have hw₁ := (hb.kept hw).wellFormed.enterScope.declareVar hdeclare
    obtain ⟨bigInner, big₂, hbigDeclare, hbody, hs₂⟩ :=
      hs₁.body (hbb.kept hbig).wellFormed hdeclare (ih · hw₁)
    obtain ⟨bigOuter, hbigLeave, hs₃⟩ := hs₂.leave hleave
    exact hs₃.conclude
      (.quantified hq hleft hbb (hs₁.context.node_some hnode) hbigDeclare hbody hbigLeave hty)

/-! ## statements -/

/-- So does a statement. -/
theorem ElaboratesForm.matched {tree : Tree} {s big : Session} {out : Conclusion}
    (h : ElaboratesForm tree s out) (hs : Abreast ρ past bigPast s big) (hw : s.context.WellFormed)
    (hbig : big.context.WellFormed) : Matched ρ past bigPast (ElaboratesForm tree big) out := by
  have hlocal := hs.context.isLocal_eq hw hbig
  cases h with
  | expression hcolon hassign hcourse =>
    obtain ⟨big', hbigCourse, hs'⟩ := hcourse.matched hs hw hbig
    exact ⟨big', .expression hcolon hassign hbigCourse, hs'⟩
  | noName hop hname => exact hs.conclude (.noName hop hname)
  | redeclared hop hname hbound => exact hs.conclude (.redeclared hop hname ((hlocal _).trans hbound))
  | bindingFailed hop hname hfree hcourse =>
    obtain ⟨big', hbigCourse, hs'⟩ := hcourse.matched hs hw hbig
    exact ⟨big', .bindingFailed hop hname ((hlocal _).trans hfree) hbigCourse, hs'⟩
  | declared hop hname hfree hcourse hnode hdeclare =>
    obtain ⟨big', hbigCourse, hs'⟩ := hcourse.matched hs hw hbig
    obtain ⟨bigCx, hbigDeclare, hcx⟩ := hs'.context.declareId hdeclare
    exact ⟨_, .declared hop hname ((hlocal _).trans hfree) hbigCourse (hs'.context.node_some hnode)
      hbigDeclare, hs'.withContext hcx⟩
  | valueFailed hop hname hfree hcourse =>
    obtain ⟨big', hbigCourse, hs'⟩ := hcourse.matched hs hw hbig
    exact ⟨big', .valueFailed hop hname ((hlocal _).trans hfree) hbigCourse, hs'⟩
  | noInitial hop hname hfree hcourse hinit =>
    obtain ⟨big', hbigCourse, hs'⟩ := hcourse.matched hs hw hbig
    have hbigInit := (hs'.context.initialOf_eq (hcourse.kept hw).wellFormed
      (hbigCourse.kept hbig).wellFormed _ _).trans (congrArg (Except.map ρ.node) hinit)
    exact hs'.conclude (.noInitial hop hname ((hlocal _).trans hfree) hbigCourse hbigInit)
  | @defined op name left right _ s₁ e init d cx hop hname hfree hcourse hinit hdeclare =>
    obtain ⟨big', hbigCourse, hs'⟩ := hcourse.matched hs hw hbig
    have hbigInit := (hs'.context.initialOf_eq (hcourse.kept hw).wellFormed
      (hbigCourse.kept hbig).wellFormed _ _).trans (congrArg (Except.map ρ.node) hinit)
    obtain ⟨bigCx, hbigDeclare, hcx⟩ := (hs'.context.addId name.text).declareId hdeclare
    rw [hs'.context.node_size] at hbigDeclare
    exact ⟨_, .defined hop hname ((hlocal _).trans hfree) hbigCourse hbigInit hbigDeclare,
      hs'.withContext hcx⟩

/-- The record of an outcome is the same in both contexts. -/
theorem Context.Embeds.outcomeEvent?_eq {cx big : Context} (h : cx.Embeds ρ big) (span : Span)
    (outcome : Except ElabError Elaboration) :
    big.outcomeEvent? span (outcome.map (Elaboration.renumber ρ)) = cx.outcomeEvent? span outcome := by
  cases outcome with
  | error error => rfl
  | ok e =>
    show ((big.node? (ρ.node e.expr)).map _) = _
    rw [h.node, outcomeEvent?, Option.map_map]
    congr 1
    funext node
    exact congrArg (Event.statementElaborated span · e.ty) node.kind_renumber

/-- Run in both sessions, a statement has the same outcome but for the handle,
and leaves the one context embedded in the other. -/
theorem Abreast.statement {s big : Session} (h : Abreast ρ past bigPast s big)
    (hw : s.context.WellFormed) (hbig : big.context.WellFormed) (tree : Tree) :
    ∃ outcome s' big', elaborateStatement tree s = .ok (outcome, s') ∧
      elaborateStatement tree big = .ok (outcome.map (Elaboration.renumber ρ), big') ∧
      Abreast ρ past bigPast s' big' := by
  obtain ⟨⟨outcome, s₁⟩, hcourse, -⟩ := exists_course_form tree hw
  obtain ⟨big₁, hbigCourse, h₁⟩ := hcourse.matched h hw hbig
  obtain ⟨event, hevent⟩ := hcourse.exists_event hw
  have hbigEvent := (h₁.context.outcomeEvent?_eq tree.span outcome).trans hevent
  exact ⟨outcome, _, _, hcourse.run_statement hw hevent, hbigCourse.run_statement hbig hbigEvent,
    h₁.moveTo h₁.context event⟩

end ArithLogic
