import ArithLogic.Proofs.Elaboration.Respelling

/-!
# ArithLogic.Proofs.Elaboration.BoundNames

The names of bound variables do not matter.  A statement in which one quantifier
binds another name, and the places that refer to it are changed with it, is
elaborated to the same outcome with the same diagnostics, and to a context that
differs in the spelling of this one variable (`Chronicle.renameBound`).

Until the quantifier is reached the two elaborations are one.  From its body on
they are the two runs of `Elaborates.respelled`: under a change of spellings in
the body, and under none after it.
-/

namespace ArithLogic

variable {x z : String} {tree tree' : Tree}

/-! ## renaming what a quantifier binds -/

namespace Tree

/-- Somewhere in the tree a quantifier binds `x`, and in the other tree it binds
`z` there, and what refers to it in its body is called `z`. -/
inductive RenamesBound (x z : String) : Tree → Tree → Prop
  | here {op colon name : Token} {type body : Tree} {q : Quantifier} :
      Quantifier.ofToken? op.kind = some q → colon.kind = .colon → name.kind.isName = true →
      name.text = x →
      RenamesBound x z (binary op (binary colon (terminal name) type) body)
        (binary op (binary colon (terminal ⟨.identifier, z, name.span⟩) type)
          (body.respell (Function.update id x z)))
  | enclosed {opening closing : Token} {body body' : Tree} :
      RenamesBound x z body body' →
      RenamesBound x z (enclosed opening body closing) (enclosed opening body' closing)
  | unary {op : Token} {operand operand' : Tree} :
      RenamesBound x z operand operand' → RenamesBound x z (unary op operand) (unary op operand')
  | left {op : Token} {left left' right : Tree} :
      RenamesBound x z left left' → RenamesBound x z (binary op left right) (binary op left' right)
  | right {op : Token} {left right right' : Tree} :
      RenamesBound x z right right' →
      RenamesBound x z (binary op left right) (binary op left right')

namespace RenamesBound

theorem span_eq (h : tree.RenamesBound x z tree') : tree'.span = tree.span := by
  induction h with
  | here => simp only [span, span_respell]
  | enclosed => rfl
  | unary _ ih | left _ ih | right _ ih => simp only [span, ih]

theorem isBinding_iff (h : tree.RenamesBound x z tree') : tree'.IsBinding ↔ tree.IsBinding := by
  cases h <;> rfl

theorem isDefinition_iff (h : tree.RenamesBound x z tree') :
    tree'.IsDefinition ↔ tree.IsDefinition := by
  cases h <;> rfl

/-- A tree with a quantifier in it is no name. -/
theorem name?_eq_none (h : tree.RenamesBound x z tree') :
    tree.name? = none ∧ tree'.name? = none := by
  cases h <;> exact ⟨rfl, rfl⟩

theorem unparenthesized_ne (h : tree.RenamesBound x z tree') (token : Token) :
    tree.unparenthesized ≠ terminal token := by
  induction h with
  | enclosed _ ih => exact ih
  | _ => simp [unparenthesized]

/-- Nor does it designate a type. -/
theorem designation_ne {s s' : Session} {e : Elaboration} (h : tree.RenamesBound x z tree')
    (hcourse : Elaborates tree s (.ok e, s')) (hw : s.context.WellFormed) (span : Span) (ty : Ty) :
    s'.context.designation e span ≠ .ok ty := by
  intro hty
  have hk := hcourse.kept hw
  obtain ⟨t, htypes, ht⟩ := hcourse.types hw e rfl
  obtain ⟨⟨token, -, hname, -⟩, -⟩ :=
    designates_of_designation hw hk.wellFormed hk.within htypes ht hty
  exact h.unparenthesized_ne token hname

/-- So there is no such tree in a binding that was elaborated. -/
theorem not_isBinding {s s' : Session} {b : Elaboration} (h : tree.RenamesBound x z tree')
    (hcourse : Elaborates tree s (.ok b, s')) (hw : s.context.WellFormed) : ¬ tree.IsBinding := by
  intro hbinding
  cases h with
  | here hq => exact (Quantifier.kind_of_ofToken? hq).1 hbinding
  | left h =>
    obtain ⟨name, _, _, _, hname, -⟩ := hcourse.binding_parts hbinding
    cases h.name?_eq_none.1.symm.trans hname
  | right h =>
    obtain ⟨_, e, s₀, ty, -, htype, hty, -⟩ := hcourse.binding_parts hbinding
    exact h.designation_ne htype hw _ ty hty
  | _ => exact hbinding

/-- In a statement that binds a name, it is in the value that something is
renamed. -/
theorem exists_right {op name : Token} {left right : Tree}
    (h : (binary op left right).RenamesBound x z tree') (hop : op.kind = .colon ∨ op.kind = .assign)
    (hname : left.name? = some name) :
    ∃ right', right.RenamesBound x z right' ∧ tree' = binary op left right' := by
  cases h with
  | here hq =>
    obtain ⟨hcolon, hassign⟩ := Quantifier.kind_of_ofToken? hq
    exact (hop.elim hcolon hassign).elim
  | left h => cases h.name?_eq_none.1.symm.trans hname
  | right h => exact ⟨_, h, rfl⟩

end RenamesBound

end Tree

/-! ## sessions -/

/-- The sessions are the same, or they are the same but for the spelling of a
variable that was declared since the context was `cx`. -/
inductive Session.Renamed (x z : String) (cx : Context) : Session → Session → Prop
  | refl (s : Session) : Renamed x z cx s s
  | spelled {d : DeclRef} {i : NodeRef} {s s' : Session} :
      cx.decls.size ≤ d.index → cx.size ≤ i.index → s.Respells d i x z s' → Renamed x z cx s s'

namespace Session.Renamed

variable {cx : Context} {s s' : Session}

/-- What was declared later was declared since. -/
theorem since {later : Context} (h : Renamed x z later s s') (hwithin : cx.Within later) :
    Renamed x z cx s s' := by
  cases h with
  | refl => exact .refl s
  | spelled hd hi hs =>
    exact .spelled (Nat.le_trans hwithin.decls_size_le hd) (Nat.le_trans hwithin.size_le hi) hs

theorem events_eq (h : Renamed x z cx s s') : s'.events = s.events := by
  cases h with
  | refl => rfl
  | spelled _ _ hs => exact hs.events

theorem report (h : Renamed x z cx s s') (fault : Fault) :
    Renamed x z cx (s.report fault) (s'.report fault) := by
  cases h with
  | refl => exact .refl _
  | spelled hd hi hs => exact .spelled hd hi (hs.report fault)

/-- Both come to the same conclusion, if the verdict is the same but for the
spelling. -/
theorem conclude (h : Renamed x z cx s s') (verdict : Context → Verdict)
    (hverdict : ∀ {d i} {later later' : Context}, later.Respells d i x z later' →
      verdict later' = (verdict later).respell d z)
    {course : Conclusion → Prop} (hcourse : course (s'.conclude (verdict s'.context))) :
    ∃ s'', course ((s.conclude (verdict s.context)).1, s'') ∧
      Renamed x z cx (s.conclude (verdict s.context)).2 s'' := by
  cases h with
  | refl => exact ⟨_, hcourse, .refl _⟩
  | spelled hd hi hs =>
    rw [hverdict hs.context] at hcourse
    obtain ⟨s'', hcourse', hs''⟩ := hs.respelled hcourse
    exact ⟨s'', hcourse', .spelled hd hi hs''⟩

/-- So they do if no variable is spelled in it. -/
theorem conclude_same (h : Renamed x z cx s s') {verdict : Verdict}
    (hverdict : ∀ {d}, verdict.respell d z = verdict) {course : Conclusion → Prop}
    (hcourse : course (s'.conclude verdict)) : ∃ s'', course ((s.conclude verdict).1, s'') ∧
      Renamed x z cx (s.conclude verdict).2 s'' :=
  have hsame : ∀ {d i} {later later' : Context}, later.Respells d i x z later' →
      verdict = verdict.respell d z := fun _ => hverdict.symm
  h.conclude (fun _ => verdict) hsame hcourse

/-- And after the operands of an infix operator. -/
theorem conclude_operation (h : Renamed x z cx s s') {op : Token} {l r : Elaboration}
    {leftSpan rightSpan : Span} {form : InfixForm} {course : Conclusion → Prop}
    (hcourse : course (s'.conclude ((s'.context.infixVerdict op l r leftSpan rightSpan form).unless
      (form.faults l r leftSpan rightSpan)))) :
    ∃ s'', course ((s.conclude ((s.context.infixVerdict op l r leftSpan rightSpan form).unless
        (form.faults l r leftSpan rightSpan))).1, s'') ∧
      Renamed x z cx (s.conclude ((s.context.infixVerdict op l r leftSpan rightSpan form).unless
        (form.faults l r leftSpan rightSpan))).2 s'' := by
  refine h.conclude (fun later => (later.infixVerdict op l r leftSpan rightSpan form).unless
    (form.faults l r leftSpan rightSpan)) ?_ hcourse
  intro d i later later' hlater
  rw [hlater.infixVerdict_eq, Verdict.respell_unless]

theorem leave (h : Renamed x z cx s s') {outer : Context}
    (hleave : s.context.leaveScope = .ok outer) : ∃ outer', s'.context.leaveScope = .ok outer' ∧
      Renamed x z cx (s.moveTo outer (.scopeLeft outer.depth))
        (s'.moveTo outer' (.scopeLeft outer'.depth)) := by
  cases h with
  | refl => exact ⟨outer, hleave, .refl _⟩
  | spelled hd hi hs =>
    obtain ⟨outer', hleave', hs'⟩ := hs.leave hleave
    exact ⟨outer', hleave', .spelled hd hi hs'⟩

/-- What follows is elaborated to the same in both. -/
theorem elaborates (h : Renamed x z cx s s') {s₀ : Session} {out : Conclusion}
    {outcome : Except ElabError Elaboration} (hcourse : Elaborates tree s out)
    (hk : Kept s₀ (outcome, s)) (hk' : Kept s₀ (outcome, s')) (hz : tree.Avoids z) :
    ∃ s'', Elaborates tree s' (out.1, s'') ∧ Renamed x z cx out.2 s'' := by
  cases h with
  | refl => exact ⟨_, hcourse, .refl _⟩
  | @spelled d i _ _ hd hi hs =>
    have hnames : s.context.Renames id d z s'.context := by
      rw [Context.Renames, hk.scopes.trans hk'.scopes.symm]
      exact .refl _
    obtain ⟨s'', hcourse', hs''⟩ := hcourse.respelled hs hnames hk.wellFormed hk'.wellFormed hz
    rw [Tree.respell_id] at hcourse'
    exact ⟨s'', hcourse', .spelled hd hi hs''⟩

/-- The same type is designated in both, or none for the same reason. -/
theorem designation_eq (h : Renamed x z cx s s') {s₀ : Session} {e : Elaboration}
    (hcourse : Elaborates tree s₀ (.ok e, s)) (hw : s₀.context.WellFormed) (span : Span) :
    s'.context.designation e span = s.context.designation e span := by
  cases h with
  | refl => rfl
  | spelled _ _ hs => exact hs.context.designation_eq (hcourse.decl_ty hw) span

theorem initialOf_eq (h : Renamed x z cx s s') {s₀ : Session} {e : Elaboration}
    (hcourse : Elaborates tree s₀ (.ok e, s)) (hw : s₀.context.WellFormed) (span : Span) :
    s'.context.initialOf e span = s.context.initialOf e span := by
  rw [Context.initialOf, h.designation_eq hcourse hw, Context.initialOf]

/-- The same name is defined in both. -/
theorem define (h : Renamed x z cx s s') (hscopes : s'.context.scopes = s.context.scopes)
    {text : String} {ty : Ty} {init : NodeRef} {d : DeclRef} {next : Context}
    (hok : (s.context.addId text).2.declareId ⟨s.context.size⟩ ty (some init) = .ok (d, next)) :
    ∃ next', (s'.context.addId text).2.declareId ⟨s'.context.size⟩ ty (some init) = .ok (d, next') ∧
      Renamed x z cx ⟨next, s.events⟩ ⟨next', s'.events⟩ ∧ next'.scopes = next.scopes := by
  cases h with
  | refl => exact ⟨next, hok, .refl _, rfl⟩
  | @spelled d' i _ _ hd hi hs =>
    have hid : (⟨s.context.size⟩ : NodeRef) ≠ i := by
      rintro rfl
      exact Nat.lt_irrefl _ hs.context.index_lt
    obtain ⟨name, scopes, hname, hinsert, -, rfl⟩ := Context.declareId_eq_ok_iff.1 hok
    have hinsert' : (s'.context.addId text).2.scopes.insert name
        ⟨(s.context.addId text).2.decls.size⟩ = .ok scopes := by
      rw [Context.scopes_addId, hscopes]
      exact hinsert
    obtain ⟨next', hok', hscopes', hnext⟩ :=
      (hs.context.addId text).declareId hid hname hok hinsert'
    rw [← hs.context.size_eq] at hok'
    exact ⟨next', hok', .spelled hd hi ⟨hnext, hs.events⟩, hscopes'⟩

/-- The record of an outcome is the same in both. -/
theorem outcomeEvent?_eq (h : Renamed x z cx s s') (span : Span)
    (outcome : Except ElabError Elaboration) :
    s'.context.outcomeEvent? span outcome = s.context.outcomeEvent? span outcome := by
  cases h with
  | refl => rfl
  | spelled _ _ hs =>
    cases outcome with
    | error error => rfl
    | ok e =>
      have hevent := congrArg (Option.map fun kind => Event.statementElaborated span kind e.ty)
        (hs.context.kind_eq e.expr)
      rwa [Option.map_map, Option.map_map] at hevent

end Session.Renamed

/-! ## expressions -/

/-- The binding that is renamed, and the body in its scope.  Here the two
elaborations part. -/
theorem Elaborates.renamed_body {colon name : Token} {type body : Tree} {s s₁ : Session}
    {b : Elaboration} {i : NodeRef} {d : DeclRef} {inner : Context} {out : Conclusion}
    (hcolon : colon.kind = .colon) (hname : name.kind.isName = true)
    (hb : Elaborates (.binary colon (.terminal name) type) s (.ok b, s₁))
    (hw : s.context.WellFormed) (hkind : s.context.NoKind)
    (hnode : s₁.context.node? b.expr = some (.bind i b.ty))
    (hdeclare : s₁.context.enterScope.declareId i b.ty none = .ok (d, inner))
    (hbody : Elaborates body (s₁.moveTo inner (.scopeEntered (s₁.context.depth + 1))) out)
    (hz : body.Avoids z) : ∃ s₁' inner' s₂',
      Elaborates (.binary colon (.terminal ⟨.identifier, z, name.span⟩) type) s (.ok b, s₁') ∧
      s₁'.context.node? b.expr = some (.bind i b.ty) ∧
      s₁'.context.enterScope.declareId i b.ty none = .ok (d, inner') ∧
      Elaborates (body.respell (Function.update id name.text z))
        (s₁'.moveTo inner' (.scopeEntered (s₁'.context.depth + 1))) (out.1, s₂') ∧
      Session.Renamed name.text z s.context out.2 s₂' := by
  have hty : b.ty ≠ .kind := hb.binding_ne_kind hcolon hw hkind
  obtain ⟨found, e, s₀, ty, hfound, htype, hdesignation, rfl, rfl⟩ := hb.binding_parts hcolon
  cases hfound.symm.trans (Tree.name?_eq_some_iff.2 ⟨rfl, hname⟩)
  have hk := htype.kept hw
  have hw₀ := hk.wellFormed
  obtain ⟨hbind, hsymbol⟩ := s₀.node?_addBinding name.text ty
  obtain ⟨hbind', hsymbol'⟩ := s₀.node?_addBinding z ty
  cases hbind.symm.trans hnode
  obtain ⟨inner', hdeclare', hinner⟩ := hw₀.respells_declareId hty z hdeclare
  have hs : Session.Respells d ⟨s₀.context.size⟩ name.text z
      ((s₀.addBinding name.text ty).moveTo inner (.scopeEntered (s₀.context.depth + 1)))
      ((s₀.addBinding z ty).moveTo inner' (.scopeEntered (s₀.context.depth + 1))) := ⟨hinner, rfl⟩
  have horigin : inner.interner.origin = s₀.context.interner.origin :=
    (Context.Within.declareId hdeclare).origin.trans (s₀.within_addBinding name.text ty).origin
  have hnames : inner.Renames (Function.update id name.text z) d z inner' := by
    rw [Context.Renames, Context.find?_inner hsymbol hdeclare,
      Context.find?_inner hsymbol' hdeclare', horigin]
    exact .start _
  have hwx := (s₀.wellFormed_addBinding hw₀ name.text ty).enterScope.declareVar hdeclare
  have hwz := (s₀.wellFormed_addBinding hw₀ z ty).enterScope.declareVar hdeclare'
  obtain ⟨s₂', hbody', hs₂⟩ := hbody.respelled hs hnames hwx hwz hz
  refine ⟨_, inner', s₂', .bound hcolon rfl htype hdesignation, hbind', hdeclare', hbody',
    .spelled ?_ hk.within.size_le hs₂⟩
  rw [(Context.decls_of_declareId hdeclare).1]
  exact hk.within.decls_size_le

/-- A binding of one name fails as that of another name does. -/
theorem Elaborates.binding_error {colon name name' : Token} {type : Tree} {s s' : Session}
    {error : ElabError} (h : Elaborates (.binary colon (.terminal name) type) s (.error error, s'))
    (hcolon : colon.kind = .colon) (hname : name.kind.isName = true)
    (hname' : name'.kind.isName = true) :
    Elaborates (.binary colon (.terminal name') type) s (.error error, s') := by
  have hsome : ∀ {token : Token}, token.kind.isName = true →
      (Tree.terminal token).name? = some token := fun htoken =>
    Tree.name?_eq_some_iff.2 ⟨rfl, htoken⟩
  generalize hout : (Except.error error, s') = out at h
  cases h with
  | typeFailed hop _ htype => exact .typeFailed hop (hsome hname') htype
  | noType hop _ htype hfault => exact .noType hop (hsome hname') htype hfault
  | bound => cases hout
  | noName _ hnone => cases (hsome hname).symm.trans hnone
  | noInfix _ _ hother => exact absurd hcolon hother
  | definition hassign => simp [hcolon] at hassign
  | leftFailed hform | rightFailed hform | infixed hform =>
    exact absurd hcolon (InfixForm.kind_of_ofToken? hform).1
  | noBinding hq | bindingFailed hq | bodyFailed hq | bodyRefused hq | quantified hq =>
    exact absurd hcolon (Quantifier.kind_of_ofToken? hq).1

/-- Renaming what a quantifier binds changes the elaboration of a tree in the
spelling of one variable only.  The induction is on the way to the quantifier. -/
theorem Tree.RenamesBound.elaborates (h : tree.RenamesBound x z tree') {s : Session}
    {out : Conclusion} (hcourse : Elaborates tree s out) (hw : s.context.WellFormed)
    (hkind : s.context.NoKind) (hz : tree.Avoids z) :
    ∃ s', Elaborates tree' s (out.1, s') ∧ Session.Renamed x z s.context out.2 s' := by
  induction h generalizing s out with
  | @here op colon name type body q hq hcolon hname hx =>
    subst hx
    obtain ⟨hnotColon, hnotAssign⟩ := Quantifier.kind_of_ofToken? hq
    have hleft : (binary colon (terminal ⟨.identifier, z, name.span⟩) type).IsBinding := hcolon
    cases hcourse with
    | noBinding _ hother => exact absurd hcolon hother
    | bindingFailed _ _ hb =>
      exact ⟨_, .bindingFailed hq hleft (hb.binding_error hcolon hname rfl), .refl _⟩
    | bodyFailed _ _ hb hnode hdeclare hbody hleave =>
      obtain ⟨s₁', inner', s₂', hb', hnode', hdeclare', hbody', hs₂⟩ :=
        hb.renamed_body hcolon hname hw hkind hnode hdeclare hbody hz.2
      obtain ⟨outer', hleave', hs₃⟩ := hs₂.leave hleave
      exact ⟨_, .bodyFailed hq hleft hb' hnode' hdeclare' hbody' hleave', hs₃⟩
    | bodyRefused _ _ hb hnode hdeclare hbody hleave hty =>
      obtain ⟨s₁', inner', s₂', hb', hnode', hdeclare', hbody', hs₂⟩ :=
        hb.renamed_body hcolon hname hw hkind hnode hdeclare hbody hz.2
      obtain ⟨outer', hleave', hs₃⟩ := (hs₂.report ⟨_, _⟩).leave hleave
      have hrefused := Elaborates.bodyRefused hq hleft hb' hnode' hdeclare' hbody' hleave' hty
      rw [span_respell] at hrefused
      exact ⟨_, hrefused, hs₃⟩
    | @quantified _ _ _ _ _ _ q' b e _ _ _ _ hq' _ hb hnode hdeclare hbody hleave hty =>
      obtain ⟨s₁', inner', s₂', hb', hnode', hdeclare', hbody', hs₂⟩ :=
        hb.renamed_body hcolon hname hw hkind hnode hdeclare hbody hz.2
      obtain ⟨outer', hleave', hs₃⟩ := hs₂.leave hleave
      exact hs₃.conclude_same rfl
        (.quantified hq' hleft hb' hnode' hdeclare' hbody' hleave' hty)
    | noInfix _ hnone => cases hq.symm.trans hnone
    | definition hop => exact absurd hop hnotAssign
    | noName hop | typeFailed hop | noType hop | bound hop => exact absurd hop hnotColon
    | leftFailed hform | rightFailed hform | infixed hform =>
      cases hq.symm.trans (InfixForm.kind_of_ofToken? hform).2.2
  | enclosed _ ih =>
    cases hcourse with
    | enclosed hbody =>
      obtain ⟨s', hbody', hs⟩ := ih hbody hw hkind hz
      exact ⟨s', .enclosed hbody', hs⟩
  | unary h ih =>
    cases hcourse with
    | noPrefix hform =>
      refine ⟨_, ?_, .refl _⟩
      rw [← h.span_eq]
      exact .noPrefix hform
    | operandFailed hform hoperand =>
      obtain ⟨s', hoperand', hs⟩ := ih hoperand hw hkind hz
      exact ⟨s', .operandFailed hform hoperand', hs⟩
    | prefixed hform hoperand =>
      obtain ⟨s', hoperand', hs⟩ := ih hoperand hw hkind hz
      refine hs.conclude_same (PrefixForm.verdict_respell ..) ?_
      rw [← h.span_eq]
      exact .prefixed hform hoperand'
  | @left op left left' right h ih =>
    cases hcourse with
    | noInfix hform hq hcolon hassign =>
      refine ⟨_, ?_, .refl _⟩
      rw [← h.span_eq]
      exact .noInfix hform hq hcolon hassign
    | leftFailed hform hl =>
      obtain ⟨s', hl', hs⟩ := ih hl hw hkind hz.1
      exact ⟨s', .leftFailed hform hl', hs⟩
    | rightFailed hform hl hr =>
      obtain ⟨s₁', hl', hs₁⟩ := ih hl hw hkind hz.1
      obtain ⟨s₂', hr', hs₂⟩ := hs₁.elaborates hr (hl.kept hw) (hl'.kept hw) hz.2
      exact ⟨s₂', .rightFailed hform hl' hr', hs₂⟩
    | infixed hform hl hr =>
      obtain ⟨s₁', hl', hs₁⟩ := ih hl hw hkind hz.1
      obtain ⟨s₂', hr', hs₂⟩ := hs₁.elaborates hr (hl.kept hw) (hl'.kept hw) hz.2
      refine hs₂.conclude_operation ?_
      rw [← h.span_eq]
      exact .infixed hform hl' hr'
    | definition hop =>
      refine ⟨_, ?_, .refl _⟩
      rw [← (RenamesBound.left h).span_eq]
      exact .definition hop
    | noName hop =>
      refine ⟨_, ?_, .refl _⟩
      rw [← h.span_eq]
      exact .noName hop h.name?_eq_none.2
    | typeFailed _ hname | noType _ hname | bound _ hname =>
      cases h.name?_eq_none.1.symm.trans hname
    | noBinding hq hleft =>
      refine ⟨_, ?_, .refl _⟩
      rw [← h.span_eq]
      exact .noBinding hq (mt h.isBinding_iff.1 hleft)
    | bindingFailed hq hleft hb =>
      obtain ⟨s', hb', hs⟩ := ih hb hw hkind hz.1
      exact ⟨s', .bindingFailed hq (h.isBinding_iff.2 hleft) hb', hs⟩
    | bodyFailed _ hleft hb | bodyRefused _ hleft hb | quantified _ hleft hb =>
      exact absurd hleft (h.not_isBinding hb hw)
  | @right op left right right' h ih =>
    cases hcourse with
    | noInfix hform hq hcolon hassign =>
      refine ⟨_, ?_, .refl _⟩
      rw [← h.span_eq]
      exact .noInfix hform hq hcolon hassign
    | leftFailed hform hl => exact ⟨_, .leftFailed hform hl, .refl _⟩
    | rightFailed hform hl hr =>
      have hk := hl.kept hw
      obtain ⟨s₂', hr', hs₂⟩ := ih hr hk.wellFormed (hk.noKind hkind) hz.2
      exact ⟨s₂', .rightFailed hform hl hr', hs₂.since hk.within⟩
    | infixed hform hl hr =>
      have hk := hl.kept hw
      obtain ⟨s₂', hr', hs₂⟩ := ih hr hk.wellFormed (hk.noKind hkind) hz.2
      refine (hs₂.since hk.within).conclude_operation ?_
      rw [← h.span_eq]
      exact .infixed hform hl hr'
    | definition hop =>
      refine ⟨_, ?_, .refl _⟩
      rw [← (RenamesBound.right h).span_eq]
      exact .definition hop
    | noName hop hname => exact ⟨_, .noName hop hname, .refl _⟩
    | typeFailed hop hname htype =>
      obtain ⟨s', htype', hs⟩ := ih htype hw hkind hz.2
      exact ⟨s', .typeFailed hop hname htype', hs⟩
    | noType hop hname htype hty =>
      obtain ⟨s', htype', hs⟩ := ih htype hw hkind hz.2
      refine hs.conclude_same rfl (.noType hop hname htype' ?_)
      rw [h.span_eq, hs.designation_eq htype hw, hty]
    | bound _ _ htype hty => exact absurd hty (h.designation_ne htype hw _ _)
    | noBinding hq hleft => exact ⟨_, .noBinding hq hleft, .refl _⟩
    | bindingFailed hq hleft hb => exact ⟨_, .bindingFailed hq hleft hb, .refl _⟩
    | bodyFailed hq hleft hb hnode hdeclare hbody hleave =>
      obtain ⟨hw', hkind', hwithin⟩ := hb.inner hw hkind hdeclare
      obtain ⟨s₂', hbody', hs₂⟩ := ih hbody hw' hkind' hz.2
      obtain ⟨outer', hleave', hs₃⟩ := (hs₂.since hwithin).leave hleave
      exact ⟨_, .bodyFailed hq hleft hb hnode hdeclare hbody' hleave', hs₃⟩
    | bodyRefused hq hleft hb hnode hdeclare hbody hleave hty =>
      obtain ⟨hw', hkind', hwithin⟩ := hb.inner hw hkind hdeclare
      obtain ⟨s₂', hbody', hs₂⟩ := ih hbody hw' hkind' hz.2
      obtain ⟨outer', hleave', hs₃⟩ := ((hs₂.since hwithin).report ⟨_, _⟩).leave hleave
      have hrefused := Elaborates.bodyRefused hq hleft hb hnode hdeclare hbody' hleave' hty
      rw [h.span_eq] at hrefused
      exact ⟨_, hrefused, hs₃⟩
    | quantified hq hleft hb hnode hdeclare hbody hleave hty =>
      obtain ⟨hw', hkind', hwithin⟩ := hb.inner hw hkind hdeclare
      obtain ⟨s₂', hbody', hs₂⟩ := ih hbody hw' hkind' hz.2
      obtain ⟨outer', hleave', hs₃⟩ := (hs₂.since hwithin).leave hleave
      exact hs₃.conclude_same rfl
        (.quantified hq hleft hb hnode hdeclare hbody' hleave' hty)

/-! ## statements -/

/-- So it is with a statement. -/
theorem Tree.RenamesBound.elaboratesForm (h : tree.RenamesBound x z tree') {s : Session}
    {out : Conclusion} (hcourse : ElaboratesForm tree s out) (hw : s.context.WellFormed)
    (hkind : s.context.NoKind) (hz : tree.Avoids z) :
    ∃ s', ElaboratesForm tree' s (out.1, s') ∧ Session.Renamed x z s.context out.2 s' ∧
      s'.context.scopes = out.2.context.scopes := by
  cases hcourse with
  | expression hbinding hdefinition hcourse =>
    obtain ⟨s', hcourse', hs⟩ := h.elaborates hcourse hw hkind hz
    exact ⟨s', .expression (mt h.isBinding_iff.1 hbinding) (mt h.isDefinition_iff.1 hdefinition)
      hcourse', hs, (hcourse'.kept hw).scopes.trans (hcourse.kept hw).scopes.symm⟩
  | noName hop hname =>
    cases h with
    | here hq =>
      obtain ⟨hcolon, hassign⟩ := Quantifier.kind_of_ofToken? hq
      exact (hop.elim hcolon hassign).elim
    | left h =>
      refine ⟨_, ?_, .refl _, rfl⟩
      rw [← h.span_eq]
      exact .noName hop h.name?_eq_none.2
    | right h => exact ⟨_, .noName hop hname, .refl _, rfl⟩
  | redeclared hop hname hlocal =>
    obtain ⟨right', -, rfl⟩ := h.exists_right hop hname
    exact ⟨_, .redeclared hop hname hlocal, .refl _, rfl⟩
  | bindingFailed hop hname hfree hcourse =>
    obtain ⟨s', hcourse', hs⟩ := h.elaborates hcourse hw hkind hz
    obtain ⟨right', -, rfl⟩ := h.exists_right (.inl hop) hname
    exact ⟨s', .bindingFailed hop hname hfree hcourse', hs,
      (hcourse'.kept hw).scopes.trans (hcourse.kept hw).scopes.symm⟩
  | declared hop _ _ hcourse => exact absurd hop (h.not_isBinding hcourse hw)
  | valueFailed hop hname hfree hcourse =>
    obtain ⟨right', hright, rfl⟩ := h.exists_right (.inr hop) hname
    obtain ⟨s', hcourse', hs⟩ := hright.elaborates hcourse hw hkind hz.2
    exact ⟨s', .valueFailed hop hname hfree hcourse', hs,
      (hcourse'.kept hw).scopes.trans (hcourse.kept hw).scopes.symm⟩
  | noInitial hop hname hfree hcourse hfault =>
    obtain ⟨right', hright, rfl⟩ := h.exists_right (.inr hop) hname
    obtain ⟨s', hcourse', hs⟩ := hright.elaborates hcourse hw hkind hz.2
    have hfault' := (hs.initialOf_eq hcourse hw _).trans hfault
    rw [← hright.span_eq] at hfault'
    exact ⟨_, .noInitial hop hname hfree hcourse' hfault', hs.report _,
      (hcourse'.kept hw).scopes.trans (hcourse.kept hw).scopes.symm⟩
  | defined hop hname hfree hcourse hinit hdeclare =>
    obtain ⟨right', hright, rfl⟩ := h.exists_right (.inr hop) hname
    obtain ⟨s', hcourse', hs⟩ := hright.elaborates hcourse hw hkind hz.2
    have hscopes := (hcourse'.kept hw).scopes.trans (hcourse.kept hw).scopes.symm
    have hinit' := (hs.initialOf_eq hcourse hw _).trans hinit
    rw [← hright.span_eq] at hinit'
    obtain ⟨next', hdeclare', hs', hscopes'⟩ := hs.define hscopes hdeclare
    exact ⟨_, .defined hop hname hfree hcourse' hinit' hdeclare', hs', hscopes'⟩

/-! ## chronicles -/

namespace Chronicle

variable {s : Session} {findings : List Finding} {forms : List NodeRef}

/-- The name that a quantifier binds does not matter.  In every session that
programs lead to, a statement and the same statement with `z` for the `x` that
one of its quantifiers binds, `z` being a name that does not occur in it, are
elaborated to the same outcome: the same error, or the same type and handle.  The
same is recorded, so the diagnostics are the same, and the names at the top mean
the same.  The two contexts are equal if the quantifier's body was not reached;
otherwise they are equal in every place, except that one variable, which was
declared then, is spelled `x` in the one and `z` in the other: in the node of its
name, in the references to it, and among the interned spellings. -/
theorem renameBound (h : Chronicle s findings forms) (hrename : tree.RenamesBound x z tree')
    (hz : tree.Avoids z) : ∃ outcome s₁ s₁',
      elaborateStatement tree s = .ok (outcome, s₁) ∧
      elaborateStatement tree' s = .ok (outcome, s₁') ∧
      s₁'.events = s₁.events ∧ s₁'.context.scopes = s₁.context.scopes ∧
      (s₁'.context = s₁.context ∨
        ∃ d i, s.context.decls.size ≤ d.index ∧ s.context.size ≤ i.index ∧
          s₁.context.Respells d i x z s₁'.context ∧
          ∀ e name, s₁.context.node? e = some (.var name d) →
            name = ⟨s₁.context.interner.origin, x⟩ ∧
              s₁'.context.node? e = some (.var ⟨s₁.context.interner.origin, z⟩ d)) := by
  have hsettled := h.recorded.settled
  have hw := hsettled.wellFormed
  obtain ⟨⟨outcome, s₁⟩, hcourse, -⟩ := exists_course_form tree hw
  obtain ⟨s₁', hcourse', hs, hscopes⟩ := hrename.elaboratesForm hcourse hw hsettled.noKind hz
  obtain ⟨event, hevent⟩ := hcourse.exists_event hw
  have hevent' := (hs.outcomeEvent?_eq tree.span outcome).trans hevent
  rw [← hrename.span_eq] at hevent'
  refine ⟨outcome, _, _, hcourse.run_statement hw hevent, hcourse'.run_statement hw hevent', ?_,
    hscopes, ?_⟩
  · exact congrArg (Array.push · event) hs.events_eq
  · cases hs with
    | refl => exact .inl rfl
    | spelled hd hi hs =>
      exact .inr ⟨_, _, hd, hi, hs.context, fun _ _ =>
        hs.context.var (hcourse.kept hw).wellFormed⟩

/-- A quantifier may bind `int` or `num`: in its body the name is that of the
variable. -/
theorem renameBound_int : ∃ tree tree', Chronicle ⟨.initial, #[]⟩ [] [] ∧
    parseProgram "forall int : int . int > 0" = .ok [tree] ∧
    parseProgram "forall num : int . num > 0" = .ok [tree'] ∧
    tree.RenamesBound "int" "num" tree' ∧ tree.Avoids "num" ∧
    ∃ outcome s₁ s₁',
      elaborateStatement tree ⟨.initial, #[]⟩ = .ok (outcome, s₁) ∧
      elaborateStatement tree' ⟨.initial, #[]⟩ = .ok (outcome, s₁') ∧
      s₁'.events = s₁.events ∧ s₁'.context.scopes = s₁.context.scopes ∧
      (s₁'.context = s₁.context ∨
        ∃ d i, Context.initial.decls.size ≤ d.index ∧ Context.initial.size ≤ i.index ∧
          s₁.context.Respells d i "int" "num" s₁'.context ∧
          ∀ e name, s₁.context.node? e = some (.var name d) →
            name = ⟨s₁.context.interner.origin, "int"⟩ ∧
              s₁'.context.node? e = some (.var ⟨s₁.context.interner.origin, "num"⟩ d)) := by
  let quantified (name : Token) (use : Token) : Tree := .binary ⟨.kwForall, "forall", ⟨0, 6⟩⟩
    (.binary ⟨.colon, ":", ⟨11, 12⟩⟩ (.terminal name) (.terminal ⟨.kwInt, "int", ⟨13, 16⟩⟩))
    (.binary ⟨.greater, ">", ⟨23, 24⟩⟩ (.terminal use) (.terminal ⟨.literal, "0", ⟨25, 26⟩⟩))
  let tree := quantified ⟨.kwInt, "int", ⟨7, 10⟩⟩ ⟨.kwInt, "int", ⟨19, 22⟩⟩
  let tree' := quantified ⟨.identifier, "num", ⟨7, 10⟩⟩ ⟨.identifier, "num", ⟨19, 22⟩⟩
  have hparse : parseProgram "forall int : int . int > 0" = .ok [tree] :=
    eq_ok_of_toOption (by decide +kernel)
  have hparse' : parseProgram "forall num : int . num > 0" = .ok [tree'] :=
    eq_ok_of_toOption (by decide +kernel)
  have hrename : tree.RenamesBound "int" "num" tree' :=
    .here rfl rfl rfl rfl
  have hz : tree.Avoids "num" := by simp [tree, quantified, Tree.Avoids, TokenKind.isName]
  exact ⟨tree, tree', .start, hparse, hparse', hrename, hz, Chronicle.start.renameBound hrename hz⟩

end Chronicle

end ArithLogic
