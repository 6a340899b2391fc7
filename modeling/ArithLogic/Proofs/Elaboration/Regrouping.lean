import ArithLogic.Proofs.Context.Reachable
import ArithLogic.Proofs.Reading.Shape

/-!
# ArithLogic.Proofs.Elaboration.Regrouping

Elaboration sees how tokens are grouped, and not how the grouping is written.
A tree and its bare tree, without parentheses and places, are elaborated alike:
the outcome and the context are the same, and what is recorded differs only in
places of the text (`Elaborates.bare`).  So do two trees with the same bare tree
(`elaborate_regrouped`).  Parentheses matter only where a binding, a definition or
a name to bind is looked for, and a tree that is upright has none there.
-/

namespace ArithLogic

/-! ## upright trees -/

namespace Tree

/-- No parentheses stand right around a binding, a definition, or what one of them
binds. -/
def Upright : Tree → Prop
  | enclosed _ body _ => ¬ body.IsBinding ∧ ¬ body.IsDefinition ∧ body.Upright
  | terminal _ => True
  | unary _ operand => operand.Upright
  | binary op left right =>
    (op.kind = .colon ∨ op.kind = .assign → left.unparenthesized = left) ∧ left.Upright ∧
      right.Upright

variable {tree : Tree}

/-- The bare tree of an upright tree is a binding just if the tree is one. -/
theorem Upright.isBinding_bare (h : tree.Upright) : tree.bare.IsBinding ↔ tree.IsBinding := by
  induction tree with
  | enclosed _ body _ ih =>
    obtain ⟨hbinding, -, hbody⟩ := h
    exact iff_of_false (hbinding ∘ (ih hbody).1) id
  | _ => exact Iff.rfl

/-- So it is with definitions. -/
theorem Upright.isDefinition_bare (h : tree.Upright) :
    tree.bare.IsDefinition ↔ tree.IsDefinition := by
  induction tree with
  | enclosed _ body _ ih =>
    obtain ⟨-, hdefinition, hbody⟩ := h
    exact iff_of_false (hdefinition ∘ (ih hbody).1) id
  | _ => exact Iff.rfl

/-- Nor do the parentheses around an upright tree hide a binding. -/
theorem Upright.isBinding_unparenthesized (h : tree.Upright) :
    tree.unparenthesized.IsBinding ↔ tree.IsBinding := by
  induction tree with
  | enclosed _ body _ ih =>
    obtain ⟨hbinding, -, hbody⟩ := h
    exact iff_of_false (hbinding ∘ (ih hbody).1) id
  | _ => exact Iff.rfl

/-- A name without parentheses is the name of the bare tree. -/
theorem name?_bare (h : tree.unparenthesized = tree) {name : Option Token}
    (hname : tree.name? = name) : tree.bare.name? = name.map Token.unplaced := by
  subst hname
  cases tree with
  | enclosed opening body closing =>
    exact absurd h (unparenthesized_ne_enclosed _ opening closing body)
  | terminal token =>
    show (if token.kind.isName then some token.unplaced else none) = _
    rw [name?]
    split <;> rfl
  | _ => rfl

/-- What the parser builds as an expression is upright, and is neither a binding
nor a definition. -/
theorem IsExpression.upright (h : tree.IsExpression) :
    tree.Upright ∧ ¬ tree.IsBinding ∧ ¬ tree.IsDefinition := by
  induction h with
  | atom => exact ⟨trivial, id, id⟩
  | enclosed _ ih => exact ⟨⟨ih.2.1, ih.2.2, ih.1⟩, id, id⟩
  | unary _ _ ih => exact ⟨ih.1, id, id⟩
  | operation hop hl hr ihl ihr =>
    have hkind := (IsExpression.operation hop hl hr).kind_ne
    exact ⟨⟨fun hbinds => absurd hbinds (not_or.2 hkind), ihl.1, ihr.1⟩, hkind⟩
  | quantified hq hcolon hname hspelled htype hbody iht ihb =>
    have hkind := (IsExpression.quantified hq hcolon hname hspelled htype hbody).kind_ne
    exact ⟨⟨fun hbinds => absurd hbinds (not_or.2 hkind), ⟨fun _ => rfl, trivial, iht.1⟩, ihb.1⟩,
      hkind⟩

theorem IsStatement.upright (h : tree.IsStatement) : tree.Upright := by
  cases h with
  | expression h => exact h.upright.1
  | declaration _ _ _ htype => exact ⟨fun _ => rfl, trivial, htype.upright.1⟩
  | definition _ _ _ hvalue => exact ⟨fun _ => rfl, trivial, hvalue.upright.1⟩

end Tree

/-! ## what is recorded -/

/-- The diagnostic, wherever it is about. -/
def Diagnostic.unplaced (d : Diagnostic) : Diagnostic :=
  { d with span? := d.span?.map fun _ => .origin }

/-- The event, wherever in the text it is about. -/
def Event.unplaced : Event → Event
  | reported d => reported d.unplaced
  | statementElaborated _ kind ty => statementElaborated .origin kind ty
  | statementFailed _ error => statementFailed .origin error
  | event => event

theorem Event.diagnostic?_unplaced (event : Event) :
    event.unplaced.diagnostic? = event.diagnostic?.map Diagnostic.unplaced := by
  cases event <;> rfl

/-- The records tell the same, each of its own places. -/
def SameReports (events record : Array Event) : Prop :=
  record.map Event.unplaced = events.map Event.unplaced

namespace SameReports

variable {events record : Array Event}

theorem refl (events : Array Event) : SameReports events events := rfl

theorem push (h : SameReports events record) {a b : Event} (hevent : b.unplaced = a.unplaced) :
    SameReports (events.push a) (record.push b) := by
  rw [SameReports, Array.map_push, Array.map_push, hevent, h]

/-- The same diagnostics are reported. -/
theorem diagnostics (h : SameReports events record) :
    (diagnosticsOf record.toList).map Diagnostic.unplaced =
      (diagnosticsOf events.toList).map Diagnostic.unplaced := by
  have hreported : ∀ list : List Event, (diagnosticsOf list).map Diagnostic.unplaced =
      diagnosticsOf (list.map Event.unplaced) := by
    intro list
    simp [diagnosticsOf, List.map_filterMap, List.filterMap_map, Function.comp_def,
      Event.diagnostic?_unplaced]
  rw [hreported, hreported, ← Array.toList_map, ← Array.toList_map, h]

end SameReports

/-! ## verdicts -/

/-- The fault, wherever it was found. -/
def Fault.unplaced (fault : Fault) : Fault := ⟨fault.error, .origin⟩

/-- The verdict, wherever its faults were found. -/
def Verdict.unplaced : Verdict → Verdict
  | build node ty => build node ty
  | refuse first others => refuse first.unplaced (others.map Fault.unplaced)

/-- Of two faults that differ in their places the error is the same. -/
theorem Fault.error_eq {a b : Fault} (h : b.unplaced = a.unplaced) : b.error = a.error := by
  have herror := congrArg Fault.error h
  exact herror

theorem Verdict.unplaced_unless {a b : Verdict} (h : b.unplaced = a.unplaced)
    {faults faults' : List Fault} (hfaults : faults'.map Fault.unplaced = faults.map Fault.unplaced) :
    (b.unless faults').unplaced = (a.unless faults).unplaced := by
  cases faults with
  | nil =>
    rw [List.map_eq_nil_iff.1 hfaults]
    exact h
  | cons first others =>
    obtain ⟨first', others', rfl, hfirst, hothers⟩ := List.map_eq_cons_iff.1 hfaults
    show Verdict.refuse _ _ = .refuse _ _
    rw [hfirst, hothers]

theorem Elaboration.unplaced_faults (e : Elaboration) (expected : Ty) (span span' : Span) :
    (e.faults expected span').map Fault.unplaced = (e.faults expected span).map Fault.unplaced := by
  unfold faults
  split <;> rfl

theorem InfixForm.unplaced_faults (form : InfixForm) (l r : Elaboration)
    (leftSpan rightSpan leftSpan' rightSpan' : Span) :
    (form.faults l r leftSpan' rightSpan').map Fault.unplaced =
      (form.faults l r leftSpan rightSpan).map Fault.unplaced := by
  rw [faults, faults, List.map_append, List.map_append, l.unplaced_faults _ leftSpan,
    r.unplaced_faults _ rightSpan]

theorem Token.unplaced_verdict (token : Token) :
    token.unplaced.verdict.unplaced = token.verdict.unplaced := by
  obtain ⟨kind, text, span⟩ := token
  cases kind with
  | literal =>
    simp only [verdict, unplaced]
    split <;> rfl
  | _ => rfl

theorem Context.unplaced_infixVerdict (cx : Context) (op : Token) (l r : Elaboration)
    (leftSpan rightSpan leftSpan' rightSpan' : Span) (form : InfixForm) :
    (cx.infixVerdict op.unplaced l r leftSpan' rightSpan' form).unplaced =
      (cx.infixVerdict op l r leftSpan rightSpan form).unplaced := by
  cases form with
  | additive | relation | connective => rfl
  | product =>
    simp only [infixVerdict]
    split
    · rfl
    · split <;> rfl
  | quotient =>
    simp only [infixVerdict]
    split <;> rfl

/-- The two are the same result, or faults that differ in their places. -/
def SameResult {α : Type} (a b : Except Fault α) : Prop :=
  b.mapError Fault.unplaced = a.mapError Fault.unplaced

theorem SameResult.ok {α : Type} {a b : Except Fault α} (h : SameResult a b) {x : α}
    (ha : a = .ok x) : b = .ok x := by
  subst ha
  cases b with
  | ok y => exact congrArg Except.ok (Except.ok.inj h)
  | error fault => cases h

theorem SameResult.error {α : Type} {a b : Except Fault α} (h : SameResult a b) {fault : Fault}
    (ha : a = .error fault) : ∃ fault', b = .error fault' ∧ fault'.unplaced = fault.unplaced := by
  subst ha
  cases b with
  | ok y => cases h
  | error fault' => exact ⟨fault', rfl, Except.error.inj h⟩

/-- Which type an expression designates does not depend on where it stands. -/
theorem Context.sameResult_designation (cx : Context) (e : Elaboration) (span span' : Span) :
    SameResult (cx.designation e span) (cx.designation e span') := by
  unfold SameResult designation
  split
  · split
    · split
      · rfl
      · split <;> rfl
    · rfl
  · rfl

theorem Context.sameResult_initialOf (cx : Context) (e : Elaboration) (span span' : Span) :
    SameResult (cx.initialOf e span) (cx.initialOf e span') := by
  unfold initialOf
  split
  · have hsame := cx.sameResult_designation e span span'
    cases hty : cx.designation e span with
    | ok ty =>
      rw [hsame.ok hty]
      rfl
    | error fault =>
      obtain ⟨fault', hfault, hplaces⟩ := hsame.error hty
      rw [hfault]
      exact congrArg Except.error hplaces
  · rfl

/-! ## bare trees -/

/-- What is concluded elsewhere, with another record that tells the same. -/
def Retold (course : Conclusion → Prop) (out : Conclusion) : Prop :=
  ∃ record, course (out.1, ⟨out.2.context, record⟩) ∧ SameReports out.2.events record

section Steps

variable {s : Session} {record : Array Event} {course : Conclusion → Prop}

theorem SameReports.report (h : SameReports s.events record) {fault fault' : Fault}
    (hfault : fault'.unplaced = fault.unplaced) :
    SameReports (s.report fault).events ((⟨s.context, record⟩ : Session).report fault').events := by
  refine h.push ?_
  simp only [Event.unplaced, Diagnostic.unplaced, Fault.error_eq hfault, Option.map_some]

theorem SameReports.foldl_report (h : SameReports s.events record) {faults faults' : List Fault}
    (hfaults : faults'.map Fault.unplaced = faults.map Fault.unplaced) :
    SameReports (faults.foldl Session.report s).events
      (faults'.foldl Session.report ⟨s.context, record⟩).events := by
  induction faults generalizing s record faults' with
  | nil =>
    rw [List.map_eq_nil_iff.1 hfaults]
    exact h
  | cons fault faults ih =>
    obtain ⟨fault', faults', rfl, hfault, hrest⟩ := List.map_eq_cons_iff.1 hfaults
    exact ih (h.report hfault) hrest

/-- Verdicts that differ in places lead to the same conclusion. -/
theorem SameReports.conclude (h : SameReports s.events record) {verdict verdict' : Verdict}
    (hcourse : course ((⟨s.context, record⟩ : Session).conclude verdict'))
    (hverdict : verdict'.unplaced = verdict.unplaced) :
    Retold course (s.conclude verdict) := by
  cases verdict with
  | build node ty =>
    cases verdict' with
    | build =>
      cases hverdict
      exact ⟨record, hcourse, h⟩
    | refuse => cases hverdict
  | refuse first others =>
    cases verdict' with
    | build => cases hverdict
    | refuse first' others' =>
      obtain ⟨hfirst, hothers⟩ := Verdict.refuse.inj hverdict
      have hfaults : (first' :: others').map Fault.unplaced = (first :: others).map Fault.unplaced := by
        rw [List.map_cons, List.map_cons, hfirst, hothers]
      have hcontext : ((first' :: others').foldl Session.report ⟨s.context, record⟩).context =
          ((first :: others).foldl Session.report s).context :=
        (Session.context_refuse ..).trans (s.context_refuse first others).symm
      refine ⟨_, ?_, h.foldl_report hfaults⟩
      show course (.error first.error, ⟨((first :: others).foldl Session.report s).context, _⟩)
      rw [← hcontext, ← Fault.error_eq hfirst]
      exact hcourse

end Steps

/-- The bare tree of an upright tree is elaborated as the tree is. -/
theorem Elaborates.bare {tree : Tree} {s : Session} {out : Conclusion} (h : Elaborates tree s out)
    (hupright : tree.Upright) {record : Array Event} (hrecord : SameReports s.events record) :
    Retold (Elaborates tree.bare ⟨s.context, record⟩) out := by
  induction h generalizing record with
  | enclosed _ ih => exact ih hupright.2.2 hrecord
  | named hkind hlookup hdecl hname =>
    exact hrecord.conclude (.named hkind hlookup hdecl hname) rfl
  | unbound hkind hlookup => exact hrecord.conclude (.unbound hkind hlookup) rfl
  | constant hkind => exact hrecord.conclude (.constant hkind) (Token.unplaced_verdict _)
  | noPrefix hform => exact hrecord.conclude (.noPrefix hform) rfl
  | operandFailed hform _ ih =>
    obtain ⟨record, hcourse, hrecord⟩ := ih hupright hrecord
    exact ⟨record, .operandFailed hform hcourse, hrecord⟩
  | prefixed hform _ ih =>
    obtain ⟨record, hcourse, hrecord⟩ := ih hupright hrecord
    exact hrecord.conclude (.prefixed hform hcourse)
      (Verdict.unplaced_unless rfl (Elaboration.unplaced_faults ..))
  | noInfix hform hq hcolon hassign =>
    exact hrecord.conclude (.noInfix hform hq hcolon hassign) rfl
  | leftFailed hform _ ih =>
    obtain ⟨record, hcourse, hrecord⟩ := ih hupright.2.1 hrecord
    exact ⟨record, .leftFailed hform hcourse, hrecord⟩
  | rightFailed hform _ _ ihl ihr =>
    obtain ⟨record, hl, hrecord⟩ := ihl hupright.2.1 hrecord
    obtain ⟨record, hr, hrecord⟩ := ihr hupright.2.2 hrecord
    exact ⟨record, .rightFailed hform hl hr, hrecord⟩
  | infixed hform _ _ ihl ihr =>
    obtain ⟨record, hl, hrecord⟩ := ihl hupright.2.1 hrecord
    obtain ⟨record, hr, hrecord⟩ := ihr hupright.2.2 hrecord
    exact hrecord.conclude (.infixed hform hl hr)
      (Verdict.unplaced_unless (Context.unplaced_infixVerdict ..) (InfixForm.unplaced_faults ..))
  | definition hop => exact hrecord.conclude (.definition hop) rfl
  | noName hop hname =>
    have hbare := Tree.name?_bare (hupright.1 (.inl hop)) hname
    exact hrecord.conclude (.noName hop hbare) rfl
  | typeFailed hop hname _ ih =>
    have hbare := Tree.name?_bare (hupright.1 (.inl hop)) hname
    obtain ⟨record, hcourse, hrecord⟩ := ih hupright.2.2 hrecord
    exact ⟨record, .typeFailed hop hbare hcourse, hrecord⟩
  | noType hop hname _ hty ih =>
    have hbare := Tree.name?_bare (hupright.1 (.inl hop)) hname
    obtain ⟨record, hcourse, hrecord⟩ := ih hupright.2.2 hrecord
    obtain ⟨fault, hfault, hplace⟩ := (Context.sameResult_designation ..).error hty
    exact hrecord.conclude (.noType hop hbare hcourse hfault) (congrArg (Verdict.refuse · []) hplace)
  | @bound op _ _ _ _ _ _ _ hop hname _ hty ih =>
    have hbare := Tree.name?_bare (hupright.1 (.inl hop)) hname
    obtain ⟨record, hcourse, hrecord⟩ := ih hupright.2.2 hrecord
    have hkind : op.unplaced.kind = .colon := hop
    have hbound := Elaborates.bound hkind hbare hcourse ((Context.sameResult_designation ..).ok hty)
    exact ⟨record, hbound, hrecord⟩
  | noBinding hq hleft =>
    exact hrecord.conclude (.noBinding hq (hleft ∘ hupright.2.1.isBinding_bare.1)) rfl
  | bindingFailed hq hleft _ ih =>
    obtain ⟨record, hcourse, hrecord⟩ := ih hupright.2.1 hrecord
    exact ⟨record, .bindingFailed hq (hupright.2.1.isBinding_bare.2 hleft) hcourse, hrecord⟩
  | bodyFailed hq hleft _ hnode hdeclare _ hleave ihb ih =>
    obtain ⟨record, hb, hrecord⟩ := ihb hupright.2.1 hrecord
    obtain ⟨record, hbody, hrecord⟩ := ih hupright.2.2 (hrecord.push rfl)
    have hleft := hupright.2.1.isBinding_bare.2 hleft
    exact ⟨_, .bodyFailed hq hleft hb hnode hdeclare hbody hleave, hrecord.push rfl⟩
  | @bodyRefused op left right _ _ _ _ _ e _ _ _ _ hq hleft _ hnode hdeclare _ hleave hty ihb ih =>
    obtain ⟨record, hb, hrecord⟩ := ihb hupright.2.1 hrecord
    obtain ⟨record, hbody, hrecord⟩ := ih hupright.2.2 (hrecord.push rfl)
    have hleft := hupright.2.1.isBinding_bare.2 hleft
    have hkind : Quantifier.ofToken? op.unplaced.kind = _ := hq
    have hrefused := Elaborates.bodyRefused hkind hleft hb hnode hdeclare hbody hleave hty
    have hfault : Fault.unplaced ⟨.typeMismatch .bool e.ty, right.bare.span⟩ =
      Fault.unplaced ⟨.typeMismatch .bool e.ty, right.span⟩ := rfl
    exact ⟨_, hrefused, (hrecord.report hfault).push rfl⟩
  | quantified hq hleft _ hnode hdeclare _ hleave hty ihb ih =>
    obtain ⟨record, hb, hrecord⟩ := ihb hupright.2.1 hrecord
    obtain ⟨record, hbody, hrecord⟩ := ih hupright.2.2 (hrecord.push rfl)
    have hleft := hupright.2.1.isBinding_bare.2 hleft
    exact (hrecord.push rfl).conclude
      (.quantified hq hleft hb hnode hdeclare hbody hleave hty) rfl

/-- So is a statement. -/
theorem ElaboratesForm.bare {tree : Tree} {s : Session} {out : Conclusion}
    (h : ElaboratesForm tree s out) (hupright : tree.Upright) {record : Array Event}
    (hrecord : SameReports s.events record) :
    Retold (ElaboratesForm tree.bare ⟨s.context, record⟩) out := by
  cases h with
  | expression hcolon hassign hcourse =>
    obtain ⟨record, hcourse, hrecord⟩ := hcourse.bare hupright hrecord
    exact ⟨record, .expression (hcolon ∘ hupright.isBinding_bare.1)
      (hassign ∘ hupright.isDefinition_bare.1) hcourse, hrecord⟩
  | noName hop hname =>
    have hbare := Tree.name?_bare (hupright.1 hop) hname
    exact hrecord.conclude (.noName hop hbare) rfl
  | redeclared hop hname hlocal =>
    have hbare := Tree.name?_bare (hupright.1 hop) hname
    exact hrecord.conclude (.redeclared hop hbare hlocal) rfl
  | bindingFailed hop hname hlocal hcourse =>
    have hbare := Tree.name?_bare (hupright.1 (.inl hop)) hname
    obtain ⟨record, hcourse, hrecord⟩ := hcourse.bare hupright hrecord
    exact ⟨record, .bindingFailed hop hbare hlocal hcourse, hrecord⟩
  | @declared op _ _ _ _ s₁ b _ _ _ hop hname hlocal hcourse hnode hdeclare =>
    have hbare := Tree.name?_bare (hupright.1 (.inl hop)) hname
    obtain ⟨record', hcourse, hrecord'⟩ := hcourse.bare hupright hrecord
    have hkind : op.unplaced.kind = .colon := hop
    have hlocal : (⟨s.context, record⟩ : Session).context.isLocal _ = false := hlocal
    have hnode : (⟨s₁.context, record'⟩ : Session).context.node? b.expr = _ := hnode
    have hdeclared := ElaboratesForm.declared hkind hbare hlocal hcourse hnode hdeclare
    exact ⟨record', hdeclared, hrecord'⟩
  | valueFailed hop hname hlocal hcourse =>
    have hbare := Tree.name?_bare (hupright.1 (.inr hop)) hname
    obtain ⟨record, hcourse, hrecord⟩ := hcourse.bare hupright.2.2 hrecord
    exact ⟨record, .valueFailed hop hbare hlocal hcourse, hrecord⟩
  | noInitial hop hname hlocal hcourse hinit =>
    have hbare := Tree.name?_bare (hupright.1 (.inr hop)) hname
    obtain ⟨record, hcourse, hrecord⟩ := hcourse.bare hupright.2.2 hrecord
    obtain ⟨fault, hfault, hplace⟩ := (Context.sameResult_initialOf ..).error hinit
    exact hrecord.conclude (.noInitial hop hbare hlocal hcourse hfault)
      (congrArg (Verdict.refuse · []) hplace)
  | @defined op _ _ right _ s₁ e _ _ _ hop hname hlocal hcourse hinit hdeclare =>
    have hbare := Tree.name?_bare (hupright.1 (.inr hop)) hname
    obtain ⟨record', hcourse, hrecord'⟩ := hcourse.bare hupright.2.2 hrecord
    have hkind : op.unplaced.kind = .assign := hop
    have hlocal : (⟨s.context, record⟩ : Session).context.isLocal _ = false := hlocal
    have hinit : (⟨s₁.context, record'⟩ : Session).context.initialOf e right.bare.span = _ :=
      (Context.sameResult_initialOf ..).ok hinit
    have hdefined := ElaboratesForm.defined hkind hbare hlocal hcourse hinit hdeclare
    exact ⟨record', hdefined, hrecord'⟩

/-! ## the same grouping -/

/-- Conclusions that are retold by the same one have the same outcome and the same
context, and their records tell the same. -/
theorem Retold.agree {course : Conclusion → Prop} {out out' : Conclusion} (h : Retold course out)
    (h' : Retold course out') (hunique : ∀ {a b}, course a → course b → a = b) :
    out'.1 = out.1 ∧ out'.2.context = out.2.context ∧ SameReports out.2.events out'.2.events := by
  obtain ⟨record, hcourse, hrecord⟩ := h
  obtain ⟨record', hcourse', hrecord'⟩ := h'
  have hsame := hunique hcourse hcourse'
  obtain ⟨houtcome, hsession⟩ := Prod.mk.inj hsame
  obtain ⟨hcontext, rfl⟩ := Session.mk.inj hsession
  exact ⟨houtcome.symm, hcontext.symm, hrecord'.symm.trans hrecord⟩

section Pair

variable {t t' : Tree} {s : Session} {out out' : Conclusion}

/-- Trees with the same grouping are elaborated alike. -/
theorem Elaborates.agree (h : Elaborates t s out) (h' : Elaborates t' s out')
    (hw : s.context.WellFormed) (hupright : t.Upright) (hupright' : t'.Upright)
    (hbare : t'.bare = t.bare) :
    out'.1 = out.1 ∧ out'.2.context = out.2.context ∧ SameReports out.2.events out'.2.events := by
  have hretold := h.bare hupright (SameReports.refl s.events)
  have hretold' := h'.bare hupright' (SameReports.refl s.events)
  rw [hbare] at hretold'
  exact hretold.agree hretold' fun ha hb => Except.ok.inj ((ha.run hw).symm.trans (hb.run hw))

/-- So are statements, also if what was recorded before tells the same of other
places. -/
theorem ElaboratesForm.agree {record : Array Event} (h : ElaboratesForm t s out)
    (h' : ElaboratesForm t' ⟨s.context, record⟩ out') (hrecord : SameReports s.events record)
    (hw : s.context.WellFormed) (hupright : t.Upright) (hupright' : t'.Upright)
    (hbare : t'.bare = t.bare) :
    out'.1 = out.1 ∧ out'.2.context = out.2.context ∧ SameReports out.2.events out'.2.events := by
  have hretold := h.bare hupright hrecord
  have hretold' := h'.bare hupright' (SameReports.refl record)
  rw [hbare] at hretold'
  exact hretold.agree hretold' fun ha hb => Except.ok.inj ((ha.run hw).symm.trans (hb.run hw))

end Pair

/-- What is recorded of an outcome is the same but for the place. -/
theorem Context.unplaced_outcomeEvent (cx : Context) (span span' : Span)
    (outcome : Except ElabError Elaboration) :
    (cx.outcomeEvent? span' outcome).map Event.unplaced =
      (cx.outcomeEvent? span outcome).map Event.unplaced := by
  cases outcome with
  | error error => rfl
  | ok e =>
    simp only [outcomeEvent?, Option.map_map]
    rfl

/-- Statements with the same grouping have the same outcome and lead to the same
context. -/
theorem exists_statement_agree {s : Session} {record : Array Event} {t t' : Tree}
    (hw : s.context.WellFormed) (hupright : t.Upright) (hupright' : t'.Upright)
    (hbare : t'.bare = t.bare) (hrecord : SameReports s.events record) :
    ∃ outcome s₁ s₁', elaborateStatement t s = .ok (outcome, s₁) ∧
      elaborateStatement t' ⟨s.context, record⟩ = .ok (outcome, s₁') ∧
      s₁'.context = s₁.context ∧ SameReports s₁.events s₁'.events := by
  obtain ⟨⟨outcome, s₁⟩, hcourse, -⟩ := exists_course_form t hw
  obtain ⟨⟨outcome', s₁'⟩, hcourse', -⟩ := exists_course_form (s := ⟨s.context, record⟩) t' hw
  obtain ⟨event, hevent⟩ := hcourse.exists_event hw
  obtain ⟨event', hevent'⟩ := hcourse'.exists_event hw
  obtain ⟨rfl, hcontext, hsame⟩ := hcourse.agree hcourse' hrecord hw hupright hupright' hbare
  have hcontext : s₁'.context = s₁.context := hcontext
  have hplaces : event'.unplaced = event.unplaced := by
    have hplaces := s₁.context.unplaced_outcomeEvent t.span t'.span outcome'
    rw [hevent, ← hcontext, hevent'] at hplaces
    exact Option.some.inj hplaces
  exact ⟨_, _, _, hcourse.run_statement hw hevent, hcourse'.run_statement hw hevent', hcontext,
    hsame.push hplaces⟩

/-- A tree that was read and any upright tree with the same grouping are elaborated
alike in every context that is reached, as expressions and as statements: with the
same outcome and the same context after it, and with the same diagnostics but for
the places that they are about. -/
theorem elaborate_regrouped {s : Session} (h : s.context.Reachable) {t t' : Tree}
    (hread : (∃ source trees, parseProgram source = .ok trees ∧ t ∈ trees) ∨
      ∃ source, parseExpression source = .ok t)
    (hbare : t'.bare = t.bare) (hupright : t'.Upright) :
    (∃ outcome s₁ s₁', (elaborate t).run s = .ok (outcome, s₁) ∧
      (elaborate t').run s = .ok (outcome, s₁') ∧ s₁'.context = s₁.context ∧
      s₁'.diagnostics.map Diagnostic.unplaced = s₁.diagnostics.map Diagnostic.unplaced) ∧
    ∃ outcome s₁ s₁', elaborateStatement t s = .ok (outcome, s₁) ∧
      elaborateStatement t' s = .ok (outcome, s₁') ∧ s₁'.context = s₁.context ∧
      s₁'.diagnostics.map Diagnostic.unplaced = s₁.diagnostics.map Diagnostic.unplaced := by
  have hw := h.wellFormed
  have hparsed : t.Upright := by
    rcases hread with ⟨source, trees, hread, hmem⟩ | ⟨source, hread⟩
    · exact (isStatement_of_parseProgram hread t hmem).upright
    · exact (isExpression_of_parseExpression hread).upright.1
  constructor
  · obtain ⟨⟨outcome, s₁⟩, hcourse⟩ := exists_elaborates t hw
    obtain ⟨⟨outcome', s₁'⟩, hcourse'⟩ := exists_elaborates t' hw
    obtain ⟨rfl, hcontext, hrecord⟩ := hcourse.agree hcourse' hw hparsed hupright hbare
    exact ⟨_, s₁, s₁', hcourse.run hw, hcourse'.run hw, hcontext, hrecord.diagnostics⟩
  · obtain ⟨outcome, s₁, s₁', hrun, hrun', hcontext, hrecord⟩ :=
      exists_statement_agree hw hparsed hupright hbare (.refl s.events)
    exact ⟨outcome, s₁, s₁', hrun, hrun', hcontext, hrecord.diagnostics⟩

/-- The factor of `(2) * 3` is a literal, and so is that of `2 * (3)`. -/
theorem elaborate_regrouped_product :
    let tree : Tree := .binary ⟨.star, "*", ⟨4, 5⟩⟩
      (.enclosed ⟨.openParen, "(", ⟨0, 1⟩⟩ (.terminal ⟨.literal, "2", ⟨1, 2⟩⟩)
        ⟨.closeParen, ")", ⟨2, 3⟩⟩)
      (.terminal ⟨.literal, "3", ⟨6, 7⟩⟩)
    let regrouped : Tree := .binary ⟨.star, "*", .origin⟩ (.terminal ⟨.literal, "2", .origin⟩)
      (.enclosed ⟨.openParen, "(", .origin⟩ (.terminal ⟨.literal, "3", .origin⟩)
        ⟨.closeParen, ")", .origin⟩)
    Context.initial.Reachable ∧ parseExpression "(2) * 3" = .ok tree ∧
      regrouped.bare = tree.bare ∧ regrouped.Upright ∧ ∃ s₁ s₁',
        (elaborate tree).run ⟨.initial, #[]⟩ = .ok (.ok ⟨⟨7⟩, .int⟩, s₁) ∧
        (elaborate regrouped).run ⟨.initial, #[]⟩ = .ok (.ok ⟨⟨7⟩, .int⟩, s₁') ∧
        s₁'.context = s₁.context ∧ s₁'.diagnostics.length = s₁.diagnostics.length := by
  intro tree regrouped
  have htokens : tokenize "(2) * 3" = .ok [⟨.openParen, "(", ⟨0, 1⟩⟩, ⟨.literal, "2", ⟨1, 2⟩⟩,
      ⟨.closeParen, ")", ⟨2, 3⟩⟩, ⟨.star, "*", ⟨4, 5⟩⟩, ⟨.literal, "3", ⟨6, 7⟩⟩] :=
    eq_ok_of_toOption (by decide +kernel)
  have hread : parseExpression "(2) * 3" = .ok tree := by
    rw [parseExpression, htokens]
    rfl
  have hupright : regrouped.Upright := ⟨fun _ => rfl, trivial, id, id, trivial⟩
  have hbare : regrouped.bare = tree.bare := rfl
  obtain ⟨⟨outcome, s₁, s₁', hrun, hrun', hcontext, hdiagnostics⟩, -⟩ :=
    elaborate_regrouped (s := ⟨.initial, #[]⟩) .initial (.inr ⟨_, hread⟩) hbare hupright
  have hproduct : (elaborate tree).run ⟨.initial, #[]⟩ = .ok (.ok ⟨⟨7⟩, .int⟩, _) := rfl
  obtain ⟨rfl, -⟩ := Prod.mk.inj (Except.ok.inj (hrun.symm.trans hproduct))
  exact ⟨.initial, hread, hbare, hupright, s₁, s₁', hrun, hrun', hcontext,
    by simpa using congrArg List.length hdiagnostics⟩

end ArithLogic
