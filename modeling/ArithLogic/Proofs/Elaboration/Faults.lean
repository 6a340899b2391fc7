import ArithLogic.Proofs.Chronicle

/-!
# ArithLogic.Proofs.Elaboration.Faults

How a text that was read can fail to mean anything.  Half of the errors that
elaboration knows of lie in what a text says; the others blame a tree of a
shape that no text is read as, or a declaration that no program makes.  That
the latter do not occur rests on two things: the shapes of the trees that were
read, and that whatever a program declares to be a type is the definition of
one that has a name (`Context.TypesDefined`).
-/

namespace ArithLogic

/-- The error lies in what a text says, not in the shape of a tree or in how a
type was declared. -/
def ElabError.IsOfText : ElabError → Prop
  | unboundName _ | typeMismatch _ _ | nonLiteralFactor _ | redeclaration _ => True
  | notAType _ | incompleteType _ | malformedLiteral _ | malformedTree _ => False

/-- A verdict blames at most what the text says. -/
def Verdict.IsOfText : Verdict → Prop
  | build _ _ => True
  | refuse first _ => first.error.IsOfText

/-- What is declared to be a type is the definition of `bool` or of `int`. -/
def Context.TypesDefined (cx : Context) : Prop :=
  ∀ d decl, cx.decl? d = some decl → decl.ty = .kind →
    decl.init = some Ty.bool.ref ∨ decl.init = some Ty.int.ref

/-! ## declarations of types -/

namespace Context.TypesDefined

variable {cx later : Context} {id : NodeRef} {ty : Ty} {init : Option NodeRef} {d : DeclRef}

theorem initial : Context.initial.TypesDefined := by
  intro d decl hd _
  rcases decl?_initial hd with ⟨-, rfl⟩ | ⟨-, rfl⟩
  · exact .inl rfl
  · exact .inr rfl

theorem of_decls (h : cx.TypesDefined) (hdecls : later.decls = cx.decls) : later.TypesDefined := by
  intro d decl hd
  rw [decl?, hdecls] at hd
  exact h d decl hd

theorem declareId (h : cx.TypesDefined)
    (hinit : ty = .kind → init = some Ty.bool.ref ∨ init = some Ty.int.ref)
    (hok : cx.declareId id ty init = .ok (d, later)) : later.TypesDefined := by
  intro d' decl hd
  rcases decl?_of_declareId_cases hok hd with ⟨-, rfl⟩ | hold
  · exact hinit
  · exact h d' decl hold

/-- A type is designated wherever an expression of the type of types stands. -/
theorem designation_error {names : Resolution} {e : Elaboration} {span : Span} {fault : Fault}
    (h : cx.TypesDefined) (hw : cx.WellFormed) (he : cx.Scoped names e.expr e.ty)
    (hfault : cx.designation e span = .error fault) : fault = ⟨.typeMismatch .kind e.ty, span⟩ := by
  obtain ⟨expr, ty⟩ := e
  cases he with
  | @var _ _ name d decl hnode _ hdecl =>
    by_cases hkind : decl.ty = .kind
    · -- the declaration is a definition, and its value is a type
      have htype : ∃ ty, decl.init = some (Ty.ref ty) := by
        rcases h d decl hdecl hkind with hinit | hinit
        · exact ⟨.bool, hinit⟩
        · exact ⟨.int, hinit⟩
      obtain ⟨ty, hinit⟩ := htype
      simp only [designation, if_pos hkind, hnode, hdecl, Option.bind_some, hinit,
        (hw.type_iff ty.ref ty).2 rfl, reduceCtorEq] at hfault
    · simp only [designation, if_neg hkind, Except.error.injEq] at hfault
      exact hfault.symm
  | _ =>
    simp only [designation, reduceCtorEq, if_false, Except.error.injEq] at hfault
    exact hfault.symm

end Context.TypesDefined

/-- A quantifier declares its name at a type other than the type of types. -/
theorem Elaborates.binding_ne_kind {left : Tree} {s s₁ : Session} {b : Elaboration}
    (h : Elaborates left s (.ok b, s₁)) (hleft : left.IsBinding) (hw : s.context.WellFormed)
    (hkind : s.context.NoKind) : b.ty ≠ .kind := by
  cases left with
  | binary colon left right =>
    obtain ⟨name, e, s₀, ty, -, htype, hty, rfl, -⟩ := h.binding_parts hleft
    have hk := htype.kept hw
    exact (hk.noKind hkind).designation_ne hk.wellFormed hty
  | _ => exact hleft.elim

/-- The scope of a quantifier's body, in which still no definition is of the type
of types. -/
theorem Elaborates.inner {left : Tree} {s s₁ : Session} {b : Elaboration} {id : NodeRef}
    {d : DeclRef} {inner : Context} (h : Elaborates left s (.ok b, s₁)) (hw : s.context.WellFormed)
    (hkind : s.context.NoKind)
    (hdeclare : s₁.context.enterScope.declareId id b.ty none = .ok (d, inner)) :
    inner.WellFormed ∧ inner.NoKind ∧ s.context.Within inner := by
  have hk := h.kept hw
  have hbefore : s₁.context.enterScope.NoKind := hk.noKind hkind
  exact ⟨hk.wellFormed.enterScope.declareVar hdeclare,
    hbefore.declareId (Option.some_ne_none _).symm hdeclare,
    hk.within.trans ((Context.Within.enterScope _).trans (.declareId hdeclare))⟩

/-- It is one more in which types are defined. -/
theorem Context.TypesDefined.inner {left : Tree} {s s₁ : Session} {b : Elaboration} {id : NodeRef}
    {d : DeclRef} {inner : Context} (ht : s₁.context.TypesDefined)
    (h : Elaborates left s (.ok b, s₁)) (hleft : left.IsBinding) (hw : s.context.WellFormed)
    (hkind : s.context.NoKind)
    (hdeclare : s₁.context.enterScope.declareId id b.ty none = .ok (d, inner)) :
    inner.WellFormed ∧ inner.NoKind ∧ inner.TypesDefined := by
  obtain ⟨hw', hkind', -⟩ := h.inner hw hkind hdeclare
  have hdefined : s₁.context.enterScope.TypesDefined := ht
  exact ⟨hw', hkind',
    hdefined.declareId (fun heq => absurd heq (h.binding_ne_kind hleft hw hkind)) hdeclare⟩

/-- Elaboration declares no types. -/
theorem Elaborates.typesDefined {tree : Tree} {s : Session} {out : Conclusion}
    (h : Elaborates tree s out) (hw : s.context.WellFormed) (hkind : s.context.NoKind)
    (ht : s.context.TypesDefined) : out.2.context.TypesDefined := by
  induction h with
  | enclosed _ ih | operandFailed _ _ ih | leftFailed _ _ ih | typeFailed _ _ _ ih
  | bindingFailed _ _ _ ih => exact ih hw hkind ht
  | named | unbound | noPrefix | noInfix | definition | noName | noBinding | constant =>
    exact ht.of_decls (Session.decls_conclude ..)
  | prefixed _ _ ih | noType _ _ _ _ ih =>
    exact (ih hw hkind ht).of_decls (Session.decls_conclude ..)
  | bound _ _ _ _ ih => exact (ih hw hkind ht).of_decls rfl
  | rightFailed _ hl _ ihl ihr =>
    have hk := hl.kept hw
    exact ihr hk.wellFormed (hk.noKind hkind) (ihl hw hkind ht)
  | infixed _ hl _ ihl ihr =>
    have hk := hl.kept hw
    exact (ihr hk.wellFormed (hk.noKind hkind) (ihl hw hkind ht)).of_decls
      (Session.decls_conclude ..)
  | bodyFailed _ hleft hb _ hdeclare _ hleave ihb ih
  | bodyRefused _ hleft hb _ hdeclare _ hleave _ ihb ih =>
    obtain ⟨hw', hkind', ht'⟩ := (ihb hw hkind ht).inner hb hleft hw hkind hdeclare
    exact (ih hw' hkind' ht').of_decls (Context.decls_of_leaveScope hleave)
  | quantified _ hleft hb _ hdeclare _ hleave _ ihb ih =>
    obtain ⟨hw', hkind', ht'⟩ := (ihb hw hkind ht).inner hb hleft hw hkind hdeclare
    exact (ih hw' hkind' ht').of_decls
      ((Session.decls_conclude ..).trans (Context.decls_of_leaveScope hleave))

/-- A definition whose value is of the type of types has a type for its initial
value. -/
theorem Context.initialOf_of_kind {cx : Context} (hw : cx.WellFormed) (hkind : cx.NoKind)
    {e : Elaboration} {span : Span} {init : NodeRef} (h : cx.initialOf e span = .ok init)
    (hty : e.ty = .kind) : init = Ty.bool.ref ∨ init = Ty.int.ref := by
  simp only [initialOf, if_pos hty] at h
  cases hdesignation : cx.designation e span with
  | error fault => simp [hdesignation, Except.map] at h
  | ok ty =>
    simp only [hdesignation, Except.map, Except.ok.injEq] at h
    subst h
    have hne := hkind.designation_ne hw hdesignation
    cases ty <;> simp_all

/-- A statement declares types by defining them. -/
theorem ElaboratesForm.typesDefined {tree : Tree} {s : Session} {out : Conclusion}
    (h : ElaboratesForm tree s out) (hw : s.context.WellFormed) (hkind : s.context.NoKind)
    (ht : s.context.TypesDefined) : out.2.context.TypesDefined := by
  cases h with
  | expression _ _ hcourse | bindingFailed _ _ _ hcourse | valueFailed _ _ _ hcourse =>
    exact hcourse.typesDefined hw hkind ht
  | noName | redeclared => exact ht
  | declared hop _ _ hcourse _ hdeclare =>
    have hne := hcourse.binding_ne_kind hop hw hkind
    exact (hcourse.typesDefined hw hkind ht).declareId (fun heq => absurd heq hne) hdeclare
  | noInitial _ _ _ hcourse => exact hcourse.typesDefined hw hkind ht
  | @defined op name _ _ _ s₁ e init _ _ _ _ _ hcourse hinit hdeclare =>
    have hk := hcourse.kept hw
    have hdefined : (s₁.context.addId name.text).2.TypesDefined :=
      (hcourse.typesDefined hw hkind ht).of_decls (Context.decls_addId ..)
    refine hdefined.declareId (fun hty => ?_) hdeclare
    rcases Context.initialOf_of_kind hk.wellFormed (hk.noKind hkind) hinit hty with rfl | rfl
    · exact .inl rfl
    · exact .inr rfl

/-! ## errors of what was read -/

theorem Session.isOfText_of_conclude {s : Session} {verdict : Verdict} {error : ElabError}
    (h : (s.conclude verdict).1 = .error error) (hverdict : verdict.IsOfText) : error.IsOfText := by
  cases verdict with
  | build => cases h
  | refuse =>
    cases h
    exact hverdict

/-- Faults of types blame the text, and so does the verdict if it does. -/
theorem Verdict.IsOfText.unless {verdict : Verdict} (h : verdict.IsOfText) {faults : List Fault}
    (hfaults : ∀ fault ∈ faults, fault.error.IsOfText) : (verdict.unless faults).IsOfText := by
  cases faults with
  | nil => exact h
  | cons first others => exact hfaults first List.mem_cons_self

theorem Elaboration.isOfText_of_mem_faults {e : Elaboration} {expected : Ty} {span : Span}
    {fault : Fault} (h : fault ∈ e.faults expected span) : fault.error.IsOfText := by
  unfold faults at h
  split at h
  · cases h
  · rw [List.mem_singleton.1 h]
    trivial

/-- A literal that was read is a numeral. -/
theorem Token.verdict_isOfText {token : Token} (hatom : token.kind.isAtom = true)
    (hspelled : token.WellSpelled) (hname : token.kind.isName = false) :
    token.verdict.IsOfText := by
  unfold verdict
  cases hk : token.kind <;>
    simp only [hk, TokenKind.isAtom, TokenKind.isName, reduceCtorEq] at hatom hname ⊢
  case kwTrue | kwFalse => trivial
  case literal =>
    unfold WellSpelled at hspelled
    simp only [hk] at hspelled
    obtain ⟨value, hvalue⟩ := Text.exists_integer?_of_isDigits hspelled
    rw [hvalue]
    trivial

theorem Context.infixVerdict_isOfText (cx : Context) (op : Token) (l r : Elaboration)
    (leftSpan rightSpan : Span) (form : InfixForm) :
    (cx.infixVerdict op l r leftSpan rightSpan form).IsOfText := by
  refine cx.infixVerdict_cases op l r leftSpan rightSpan form (fun _ => ?_) (fun _ => ?_)
    (fun _ => ?_) (fun _ => ?_) (fun _ _ => ?_) (fun _ _ => ?_) <;> trivial

/-- In contexts that programs make, the tree fails only by what the text says. -/
def Tree.FailsOfText (tree : Tree) : Prop :=
  ∀ {s : Session} {out : Conclusion} {error : ElabError}, Elaborates tree s out →
    s.context.WellFormed → s.context.NoKind → s.context.TypesDefined → out.1 = .error error →
    error.IsOfText

/-- A binding that was read fails by what it says of the type. -/
theorem Tree.FailsOfText.binding {colon name : Token} {type : Tree} (h : type.FailsOfText)
    (htype : type.IsExpression) (hcolon : colon.kind = .colon) (hname : name.kind.isName = true) :
    (Tree.binary colon (.terminal name) type).FailsOfText := by
  intro s out error hcourse hw hkind ht he
  have hfound : (Tree.terminal name).name? = some name := Tree.name?_eq_some_iff.2 ⟨rfl, hname⟩
  cases hcourse with
  | typeFailed _ _ hcourse => exact h hcourse hw hkind ht he
  | @noType _ _ _ _ _ s' e fault _ _ hcourse hfault =>
    cases he
    have hk := hcourse.kept hw
    have hscoped := hcourse.scoped htype hw hkind rfl
    rw [(hcourse.typesDefined hw hkind ht).designation_error hk.wellFormed hscoped hfault]
    trivial
  | bound => cases he
  | noName _ hnone => cases hfound.symm.trans hnone
  | noInfix _ _ hother => exact absurd hcolon hother
  | definition hassign => cases hcolon.symm.trans hassign
  | leftFailed hform | rightFailed hform | infixed hform =>
    exact absurd hcolon (InfixForm.kind_of_ofToken? hform).1
  | noBinding hq | bindingFailed hq | bodyFailed hq | bodyRefused hq | quantified hq =>
    exact absurd hcolon (Quantifier.kind_of_ofToken? hq).1

/-- An expression that was read fails by what it says. -/
theorem Tree.IsExpression.failsOfText {tree : Tree} (h : tree.IsExpression) : tree.FailsOfText := by
  induction h with
  | atom hatom hspelled =>
    intro s out error hcourse hw hkind ht he
    cases hcourse with
    | named => cases he
    | unbound =>
      cases he
      trivial
    | constant hname =>
      exact Session.isOfText_of_conclude he (Token.verdict_isOfText hatom hspelled hname)
  | enclosed _ ih =>
    intro s out error hcourse hw hkind ht he
    cases hcourse with
    | enclosed hbody => exact ih hbody hw hkind ht he
  | @unary op operand hop _ ih =>
    intro s out error hcourse hw hkind ht he
    cases hcourse with
    | noPrefix hnone =>
      rcases hop with (hop | hop) | hop <;> simp [hop, PrefixForm.ofToken?] at hnone
    | operandFailed _ hoperand => exact ih hoperand hw hkind ht he
    | prefixed =>
      refine Session.isOfText_of_conclude he
        (.unless ?_ fun _ => Elaboration.isOfText_of_mem_faults)
      trivial
  | @operation op left right hinfix _ _ ihl ihr =>
    intro s out error hcourse hw hkind ht he
    have hform : (InfixForm.ofToken? op.kind).isSome = true := by
      rw [InfixForm.ofToken?_isSome, hinfix]
    have hquantifier : Quantifier.ofToken? op.kind = none := by
      cases hk : op.kind <;> simp_all [TokenKind.infixLevel?, Quantifier.ofToken?]
    cases hcourse with
    | leftFailed _ hleft => exact ihl hleft hw hkind ht he
    | rightFailed _ hleft hright =>
      have hk := hleft.kept hw
      exact ihr hright hk.wellFormed (hk.noKind hkind) (hleft.typesDefined hw hkind ht) he
    | infixed =>
      refine Session.isOfText_of_conclude he
        (.unless (Context.infixVerdict_isOfText ..) fun fault hfault => ?_)
      rcases List.mem_append.1 hfault with hfault | hfault <;>
        exact Elaboration.isOfText_of_mem_faults hfault
    | noInfix hnone => simp [hnone] at hform
    | definition hop | noName hop | typeFailed hop | noType hop | bound hop =>
      simp [hop, TokenKind.infixLevel?] at hinfix
    | noBinding hq | bindingFailed hq | bodyFailed hq | bodyRefused hq | quantified hq =>
      cases hquantifier.symm.trans hq
  | @quantified op colon name type body hop hcolon hname _ htype _ iht ihb =>
    intro s out error hcourse hw hkind ht he
    cases hcourse with
    | noBinding _ hnone => exact absurd hcolon hnone
    | bindingFailed _ _ hleft => exact iht.binding htype hcolon hname hleft hw hkind ht he
    | bodyFailed _ hleft hb _ hdeclare hbody =>
      obtain ⟨hw', hkind', ht'⟩ := (hb.typesDefined hw hkind ht).inner hb hleft hw hkind hdeclare
      exact ihb hbody hw' hkind' ht' he
    | bodyRefused =>
      cases he
      trivial
    | quantified => cases he
    | noInfix _ hnone => rcases hop with hop | hop <;> simp [hop, Quantifier.ofToken?] at hnone
    | definition hassign | noName hassign | typeFailed hassign | noType hassign | bound hassign =>
      rcases hop with hop | hop <;> simp [hop] at hassign
    | leftFailed hform | rightFailed hform | infixed hform =>
      rcases hop with hop | hop <;> simp [hop, InfixForm.ofToken?] at hform

/-- A statement that was read fails by what it says. -/
theorem ElaboratesForm.isOfText {tree : Tree} {s : Session} {out : Conclusion} {error : ElabError}
    (h : ElaboratesForm tree s out) (hshape : tree.IsStatement) (hw : s.context.WellFormed)
    (hkind : s.context.NoKind) (ht : s.context.TypesDefined) (he : out.1 = .error error) :
    error.IsOfText := by
  cases h with
  | expression hbinding hdefinition hcourse =>
    cases hshape with
    | expression hexpr => exact hexpr.failsOfText hcourse hw hkind ht he
    | declaration hcolon => exact absurd hcolon hbinding
    | definition hassign => exact absurd hassign hdefinition
  | noName hop hnone =>
    obtain ⟨name, rfl, hname, -⟩ := hop.elim hshape.declared hshape.defined
    cases hnone.symm.trans (Tree.name?_eq_some_iff.2 ⟨rfl, hname⟩)
  | redeclared =>
    cases he
    trivial
  | bindingFailed hop _ _ hcourse =>
    obtain ⟨name, rfl, hname, htype⟩ := hshape.declared hop
    have hfails : Tree.FailsOfText _ := htype.failsOfText
    exact hfails.binding htype hop hname hcourse hw hkind ht he
  | valueFailed hop _ _ hcourse => exact (hshape.value hop).failsOfText hcourse hw hkind ht he
  | @noInitial _ _ _ right _ s' e fault hop _ _ hcourse hfault =>
    cases he
    have hk := hcourse.kept hw
    have hscoped := hcourse.scoped (hshape.value hop) hw hkind rfl
    unfold Context.initialOf at hfault
    split at hfault
    · cases hdesignation : s'.context.designation e right.span with
      | ok ty => simp [hdesignation, Except.map] at hfault
      | error found =>
        simp only [hdesignation, Except.map, Except.error.injEq] at hfault
        rw [← hfault, (hcourse.typesDefined hw hkind ht).designation_error hk.wellFormed hscoped
          hdesignation]
        trivial
    · cases hfault
  | declared | defined => cases he

/-! ## chronicles -/

/-- Programs declare types by defining them. -/
theorem Chronicle.typesDefined {s : Session} {findings : List Finding} {forms : List NodeRef}
    (h : Chronicle s findings forms) : s.context.TypesDefined := by
  induction h with
  | start => exact .initial
  | statement h _ _ hrun ih =>
    have hsettled := h.recorded.settled
    obtain ⟨s₁, hcourse, hsame⟩ := course_of_run_elaborateStatement hsettled.wellFormed hrun
    rw [hsame]
    exact hcourse.typesDefined hsettled.wellFormed hsettled.noKind ih
  | record _ ih => exact ih
  | normalForm h hf hrun ih =>
    have hrecorded := h.recorded
    have hw := hrecorded.settled.wellFormed
    have hcourse := Context.normalizes_of_run hw (hrecorded.held _ hf).lexical.index_lt hrun
    exact ih.of_decls (hcourse.grows hw).1.decls
  | normalize h he hrun ih =>
    have hw := h.recorded.settled.wellFormed
    exact ih.of_decls ((Context.normalizes_of_run hw he hrun).grows hw).1.decls

namespace Chronicle

variable {s : Session} {findings : List Finding} {forms : List NodeRef} {source : String}
  {trees : List Tree}

/-- A statement that was read has an outcome, and fails by what it says. -/
theorem exists_outcome (h : Chronicle s findings forms) (hparse : parseProgram source = .ok trees)
    {tree : Tree} (htree : tree ∈ trees) : ∃ outcome s',
      elaborateStatement tree s = .ok (outcome, s') ∧
        ∀ error, outcome = .error error → error.IsOfText := by
  have hsettled := h.recorded.settled
  obtain ⟨outcome, s₁, event, hcourse, hrun⟩ := exists_course_statement tree hsettled.wellFormed
  exact ⟨outcome, _, hrun, fun error herror =>
    hcourse.isOfText (isStatement_of_parseProgram hparse tree htree) hsettled.wellFormed
      hsettled.noKind h.typesDefined herror⟩

/-- So have all statements that are elaborated one after the other. -/
theorem exists_outcomes (h : Chronicle s findings forms) (hparse : parseProgram source = .ok trees)
    {part : List Tree} (hpart : ∀ tree ∈ part, tree ∈ trees) : ∃ outcomes s',
      (part.mapM elaborateStatement : Action _) s = .ok (outcomes, s') ∧
        ∀ error, .error error ∈ outcomes → error.IsOfText := by
  induction part generalizing s findings with
  | nil => exact ⟨[], s, rfl, by simp⟩
  | cons tree rest ih =>
    rw [List.forall_mem_cons] at hpart
    obtain ⟨outcome, s₁, hrun, hfirst⟩ := h.exists_outcome hparse hpart.1
    obtain ⟨outcomes, s', hruns, hrest⟩ := ih (h.statement hparse hpart.1 hrun) hpart.2
    refine ⟨outcome :: outcomes, s', ?_, fun error herror => ?_⟩
    · simp only [List.mapM_cons, Action.run_bind, hrun, hruns, Action.run_pure]
    · rcases List.mem_cons.1 herror with heq | hmem
      · exact hfirst error heq.symm
      · exact hrest error hmem

/-- What was read fails to have a meaning in four ways at most.  In every session
that programs lead to:

* whatever is declared to be a type is the definition of `bool` or of `int`;
* a statement of a program that was read is elaborated, or an unbound name, a
  mismatch of types, a product or quotient without a literal, or a second
  declaration of a name keeps it from being so, and this goes for all of its
  statements in a row;
* and likewise an expression that was read. -/
theorem elaborate_isOfText (h : Chronicle s findings forms) :
    (∀ d decl, s.context.decl? d = some decl → decl.ty = .kind →
      decl.init = some Ty.bool.ref ∨ decl.init = some Ty.int.ref) ∧
    (∀ source trees, parseProgram source = .ok trees →
      (∀ tree ∈ trees, ∃ outcome s', elaborateStatement tree s = .ok (outcome, s') ∧
        ∀ error, outcome = .error error → error.IsOfText) ∧
      ∃ outcomes s', elaborateProgram trees s = .ok (outcomes, s') ∧
        ∀ error, .error error ∈ outcomes → error.IsOfText) ∧
    ∀ source tree, parseExpression source = .ok tree →
      ∃ outcome s', (elaborate tree).run s = .ok (outcome, s') ∧
        ∀ error, outcome = .error error → error.IsOfText := by
  refine ⟨h.typesDefined, fun source trees hparse => ⟨fun tree => h.exists_outcome hparse, ?_⟩,
    fun source tree hparse => ?_⟩
  · obtain ⟨outcomes, s₁, hruns, herrors⟩ := h.exists_outcomes hparse fun _ => id
    have hrun : ∃ s', elaborateProgram trees s = .ok (outcomes, s') := by
      simp only [elaborateProgram, Action.run_bind, hruns, Action.run_record, Action.run_pure]
      exact ⟨_, rfl⟩
    obtain ⟨s', hrun⟩ := hrun
    exact ⟨outcomes, s', hrun, herrors⟩
  · have hsettled := h.recorded.settled
    obtain ⟨⟨outcome, s'⟩, hcourse⟩ := exists_elaborates tree hsettled.wellFormed
    exact ⟨outcome, s', hcourse.run hsettled.wellFormed, fun error herror =>
      (isExpression_of_parseExpression hparse).failsOfText hcourse hsettled.wellFormed
        hsettled.noKind h.typesDefined herror⟩

/-- After `let T = int` the name `T` stands for a type, so that `forall y : T . z`
fails for nothing but `z`. -/
theorem elaborate_isOfText_unbound : ∃ s findings tree, Chronicle s findings [] ∧
    parseProgram "forall y : T . z" = .ok [tree] ∧
    (∃ s', elaborateStatement tree s = .ok (.error (.unboundName "z"), s')) ∧
    (ElabError.unboundName "z").IsOfText := by
  let definition : Tree := .binary ⟨.assign, "=", ⟨6, 7⟩⟩ (.terminal ⟨.identifier, "T", ⟨4, 5⟩⟩)
    (.terminal ⟨.kwInt, "int", ⟨8, 11⟩⟩)
  let tree : Tree := .binary ⟨.kwForall, "forall", ⟨0, 6⟩⟩
    (.binary ⟨.colon, ":", ⟨9, 10⟩⟩ (.terminal ⟨.identifier, "y", ⟨7, 8⟩⟩)
      (.terminal ⟨.identifier, "T", ⟨11, 12⟩⟩)) (.terminal ⟨.identifier, "z", ⟨15, 16⟩⟩)
  have hdefinition : parseProgram "let T = int" = .ok [definition] :=
    eq_ok_of_toOption (by decide +kernel)
  have hparse : parseProgram "forall y : T . z" = .ok [tree] :=
    eq_ok_of_toOption (by decide +kernel)
  have hruns : ((elaborateStatement definition ⟨.initial, #[]⟩).toOption.bind fun out =>
      (elaborateStatement tree out.2).toOption.bind fun later =>
        match later.1 with
        | .error error => some error
        | .ok _ => none) = some (.unboundName "z") := by
    decide +kernel
  obtain ⟨⟨r, s⟩, hfirst, hsecond⟩ := Option.bind_eq_some_iff.1 hruns
  have hchronicle := Chronicle.start.statement hdefinition List.mem_cons_self (eq_ok_of_toOption hfirst)
  obtain ⟨-, hprogram, -⟩ := hchronicle.elaborate_isOfText
  obtain ⟨outcome, s', hrun, herror⟩ := (hprogram _ _ hparse).1 tree List.mem_cons_self
  rw [hrun] at hsecond
  cases outcome with
  | ok => cases hsecond
  | error error =>
    obtain rfl : error = .unboundName "z" := Option.some.inj hsecond
    exact ⟨s, _, tree, hchronicle, hparse, ⟨s', hrun⟩, herror _ rfl⟩

end Chronicle

end ArithLogic
