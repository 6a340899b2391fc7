import ArithLogic.Proofs.Elaboration.Origin
import ArithLogic.Proofs.Independence

/-!
# ArithLogic.Proofs.Elaboration.Reporting

What a failure reports.  The conclusion of every course blames a list of
faults: it fails with the first of them, and reports them all
(`Session.Blames`).  At the origin of a failure it is one fault, or two where
both operands of an infix operator are of a wrong type; on the way up nothing
is added, so the same holds of whole expressions and statements, and the
diagnostics of a program are those of its statements.
-/

namespace ArithLogic

/-! ## faults and diagnostics -/

/-- How a fault is reported. -/
def Fault.diagnostic (fault : Fault) : Diagnostic := ⟨.error, fault.error.message, some fault.span⟩

/-- The faults that a verdict reports. -/
def Verdict.faults : Verdict → List Fault
  | build _ _ => []
  | refuse first others => first :: others

/-- The error that an elaboration ends with, if any. -/
def Conclusion.error? (out : Conclusion) : Option ElabError :=
  match out.1 with
  | .ok _ => none
  | .error error => some error

/-- The conclusion blames the faults: what was begun in the session has reported
them, and fails with the first one, if there is one. -/
structure Session.Blames (s : Session) (out : Conclusion) (faults : List Fault) : Prop where
  diagnostics : out.2.diagnostics = s.diagnostics ++ faults.map Fault.diagnostic
  error : out.error? = faults.head?.map Fault.error

namespace Session

variable {s s' s₁ : Session} {out : Conclusion} {faults : List Fault}

theorem diagnostics_report (s : Session) (fault : Fault) :
    (s.report fault).diagnostics = s.diagnostics ++ [fault.diagnostic] := by
  simp [diagnostics, report, diagnosticsOf, Event.diagnostic?, Fault.diagnostic]

theorem diagnostics_foldl_report (s : Session) (faults : List Fault) :
    (faults.foldl report s).diagnostics = s.diagnostics ++ faults.map Fault.diagnostic := by
  induction faults generalizing s with
  | nil => simp
  | cons fault faults ih =>
    rw [List.foldl_cons, ih, diagnostics_report, List.append_assoc, List.map_cons,
      List.singleton_append]

/-- A verdict blames its faults. -/
theorem blames_conclude (s : Session) (verdict : Verdict) :
    s.Blames (s.conclude verdict) verdict.faults := by
  cases verdict with
  | build => exact ⟨(List.append_nil _).symm, rfl⟩
  | refuse first others => exact ⟨s.diagnostics_foldl_report (first :: others), rfl⟩

namespace Blames

/-- Nothing was reported before. -/
theorem after (h : s₁.Blames out faults) (hsame : s₁.diagnostics = s.diagnostics) :
    s.Blames out faults :=
  ⟨by rw [h.diagnostics, hsame], h.error⟩

/-- What succeeds blames nothing. -/
theorem eq_nil {e : Elaboration} (h : s.Blames out faults) (he : out.1 = .ok e) : faults = [] := by
  have herror := h.error
  rw [Conclusion.error?, he] at herror
  simpa using herror.symm

/-- What fails has a first fault. -/
theorem exists_cons {error : ElabError} (h : s.Blames out faults) (herror : out.1 = .error error) :
    ∃ first others, faults = first :: others ∧ first.error = error := by
  have hfirst := h.error
  rw [Conclusion.error?, herror] at hfirst
  obtain ⟨first, hhead, rfl⟩ := Option.map_eq_some_iff.1 hfirst.symm
  obtain ⟨others, rfl⟩ := List.head?_eq_some_iff.1 hhead
  exact ⟨first, others, rfl, rfl⟩

end Blames

end Session

/-- An expression of a wrong type is one fault. -/
theorem Elaboration.faults_of_ne {e : Elaboration} {expected : Ty} (span : Span)
    (h : e.ty ≠ expected) : e.faults expected span = [⟨.typeMismatch expected e.ty, span⟩] :=
  if_neg h

theorem Verdict.faults_unless (verdict : Verdict) {faults : List Fault} (h : faults ≠ []) :
    (verdict.unless faults).faults = faults := by
  cases faults with
  | nil => exact absurd rfl h
  | cons first others => rfl

theorem Token.length_faults_verdict (token : Token) : token.verdict.faults.length ≤ 1 := by
  exact token.verdict_cases (fun _ => Nat.zero_le _) (fun _ => Nat.zero_le _)
    (fun _ => Nat.le_refl _)

theorem PrefixForm.length_faults_verdict (form : PrefixForm) (e : Elaboration) (span : Span) :
    (form.verdict e span).faults.length ≤ 1 := by
  unfold verdict Elaboration.faults
  split
  · exact Nat.zero_le _
  · exact Nat.le_refl _

theorem Context.length_faults_infixVerdict (cx : Context) (op : Token) (l r : Elaboration)
    (leftSpan rightSpan : Span) (form : InfixForm) :
    (cx.infixVerdict op l r leftSpan rightSpan form).faults.length ≤ 1 := by
  refine cx.infixVerdict_cases op l r leftSpan rightSpan form (fun _ => ?_) (fun _ => ?_)
    (fun _ => ?_) (fun _ => ?_) (fun _ _ => ?_) (fun _ _ => ?_) <;> simp [Verdict.faults]

/-! ## origins -/

/-- The tree is an infix operator over operands that are elaborated, both at a
type other than the operator demands. -/
inductive Tree.BothMismatch : Tree → Session → Prop
  | intro {op : Token} {left right : Tree} {form : InfixForm} {l r : Elaboration}
      {s s₁ s₂ : Session} :
      InfixForm.ofToken? op.kind = some form → (elaborate left).run s = .ok (.ok l, s₁) →
      (elaborate right).run s₁ = .ok (.ok r, s₂) → l.ty ≠ form.operandType →
      r.ty ≠ form.operandType → BothMismatch (.binary op left right) s

/-- The failure of the tree originates at an infix operator over two operands of
a wrong type. -/
def Tree.FailsDoubly (tree : Tree) (s : Session) : Prop :=
  ∃ site s₀, tree.Originates s site s₀ ∧ site.BothMismatch s₀

variable {tree part : Tree} {s s' : Session} {out : Conclusion} {error : ElabError}

/-- Two operands of a wrong type are two faults. -/
theorem Tree.BothMismatch.blames (h : tree.BothMismatch s) (hw : s.context.WellFormed) :
    ∃ out faults, Elaborates tree s out ∧ s.Blames out faults ∧ faults.length = 2 := by
  cases h with
  | @intro op left right form l r _ s₁ s₂ hform hl hr hlty hrty =>
    have hleft := (run_elaborate_iff hw).1 hl
    have hright := (run_elaborate_iff (hleft.kept hw).wellFormed).1 hr
    have hfaults : form.faults l r left.span right.span =
        [⟨.typeMismatch form.operandType l.ty, left.span⟩,
          ⟨.typeMismatch form.operandType r.ty, right.span⟩] := by
      rw [InfixForm.faults, Elaboration.faults_of_ne _ hlty, Elaboration.faults_of_ne _ hrty]
      rfl
    refine ⟨_, _, .infixed hform hleft hright,
      (s₂.blames_conclude _).after ((hright.diagnostics rfl).trans (hleft.diagnostics rfl)), ?_⟩
    rw [Verdict.faults_unless _ (by simp [hfaults]), hfaults]
    rfl

/-- It is there that the failure originates. -/
theorem Tree.BothMismatch.originates (h : tree.BothMismatch s) (hw : s.context.WellFormed) :
    tree.Originates s tree s := by
  obtain ⟨⟨r, s'⟩, faults, hcourse, hblames, htwo⟩ := h.blames hw
  have hfails : tree.Fails s := by
    cases r with
    | error error => exact hcourse.fails hw
    | ok e => simp [hblames.eq_nil rfl] at htwo
  refine .here hfails fun part s₀ htries hpart => ?_
  obtain ⟨error, last, hrun⟩ := hpart
  cases h with
  | intro hform hl hr =>
    obtain ⟨hcolon, -, hnone⟩ := InfixForm.kind_of_ofToken? hform
    cases htries with
    | left => cases hl.symm.trans hrun
    | right _ hl' =>
      cases hl.symm.trans hl'
      cases hr.symm.trans hrun
    | type hop => exact hcolon hop
    | binding hq | body hq => cases hnone.symm.trans hq

/-- The verdict on an infix operator has one fault at most, unless both operands
are of a wrong type. -/
theorem InfixForm.length_faults_unless {verdict : Verdict} (hverdict : verdict.faults.length ≤ 1)
    {form : InfixForm} {l r : Elaboration} {leftSpan rightSpan : Span}
    (h : l.ty = form.operandType ∨ r.ty = form.operandType) :
    (verdict.unless (form.faults l r leftSpan rightSpan)).faults.length ≤ 1 := by
  unfold faults Elaboration.faults
  by_cases hl : l.ty = form.operandType
  · by_cases hr : r.ty = form.operandType
    · rw [if_pos hl, if_pos hr]
      exact hverdict
    · rw [if_pos hl, if_neg hr]
      exact Nat.le_refl _
  · rw [if_neg hl, if_pos (h.resolve_left hl)]
    exact Nat.le_refl _

/-- Nothing is reported of a binding and a body that succeed. -/
theorem Elaborates.diagnostics_body {left right : Tree} {s₁ s₂ : Session} {b e : Elaboration}
    {inner : Context} {depth : Nat} (hb : Elaborates left s (.ok b, s₁))
    (hbody : Elaborates right (s₁.moveTo inner (.scopeEntered depth)) (.ok e, s₂)) :
    s₂.diagnostics = s.diagnostics :=
  (hbody.diagnostics rfl).trans ((Session.diagnostics_moveTo rfl).trans (hb.diagnostics rfl))

/-- A tree of which no part fails has one fault at most, unless both of its
operands are of a wrong type. -/
theorem Elaborates.blames_here (h : Elaborates tree s out) (hw : s.context.WellFormed)
    (hparts : ∀ part s₁, tree.Tries s part s₁ → ¬ part.Fails s₁) :
    tree.BothMismatch s ∨ ∃ faults, s.Blames out faults ∧ faults.length ≤ 1 := by
  cases h with
  | @enclosed _ _ _ _ out hbody =>
    obtain ⟨_ | e, s'⟩ := out
    · exact absurd (hbody.fails hw) (hparts _ _ .enclosed)
    · exact .inr ⟨[], ⟨by simp [hbody.diagnostics rfl], rfl⟩, Nat.zero_le _⟩
  | named | unbound | noPrefix | noInfix | definition | noName | noBinding =>
    exact .inr ⟨_, s.blames_conclude _, by simp [Verdict.faults, Verdict.malformed]⟩
  | @constant token => exact .inr ⟨_, s.blames_conclude _, token.length_faults_verdict⟩
  | operandFailed hform hoperand => exact absurd (hoperand.fails hw) (hparts _ _ (.operand hform))
  | @prefixed _ _ _ s' form e _ hoperand =>
    exact .inr ⟨_, (s'.blames_conclude _).after (hoperand.diagnostics rfl),
      form.length_faults_verdict e _⟩
  | leftFailed hform hleft => exact absurd (hleft.fails hw) (hparts _ _ (.left hform))
  | rightFailed hform hleft hright =>
    exact absurd (hright.fails (hleft.kept hw).wellFormed)
      (hparts _ _ (.right hform (hleft.run hw)))
  | @infixed _ _ _ _ s₁ s₂ form l r hform hleft hright =>
    by_cases hmismatch : l.ty ≠ form.operandType ∧ r.ty ≠ form.operandType
    · exact .inl (.intro hform (hleft.run hw) (hright.run (hleft.kept hw).wellFormed)
        hmismatch.1 hmismatch.2)
    · have hsame := (hright.diagnostics rfl).trans (hleft.diagnostics rfl)
      rw [not_and_or, not_ne_iff, not_ne_iff] at hmismatch
      exact .inr ⟨_, (s₂.blames_conclude _).after hsame,
        InfixForm.length_faults_unless (Context.length_faults_infixVerdict ..) hmismatch⟩
  | typeFailed hop hname htype => exact absurd (htype.fails hw) (hparts _ _ (.type hop hname))
  | @noType _ _ _ _ _ s' _ fault _ _ htype =>
    exact .inr ⟨_, (s'.blames_conclude (.refuse fault [])).after (htype.diagnostics rfl),
      Nat.le_refl _⟩
  | bound _ _ htype =>
    have hsame := htype.diagnostics rfl
    exact .inr ⟨[], ⟨hsame.trans (List.append_nil _).symm, rfl⟩, Nat.zero_le _⟩
  | bindingFailed hq hleft hb => exact absurd (hb.fails hw) (hparts _ _ (.binding hq hleft))
  | bodyFailed hq hleft hb hnode hdeclare hbody =>
    have hinner := (hb.kept hw).wellFormed.enterScope.declareVar hdeclare
    exact absurd (hbody.fails hinner) (hparts _ _ (.body hq hleft (hb.run hw) hnode hdeclare))
  | @bodyRefused _ _ right _ _ s₂ _ _ e _ _ _ outer _ _ hb _ _ hbody =>
    refine .inr ⟨[⟨.typeMismatch .bool e.ty, right.span⟩], ⟨?_, rfl⟩, Nat.le_refl _⟩
    rw [Session.diagnostics_moveTo rfl, Session.diagnostics_report, hb.diagnostics_body hbody]
    rfl
  | @quantified _ _ _ _ _ s₂ _ _ _ _ _ _ outer _ _ hb _ _ hbody =>
    have hsame : (s₂.moveTo outer (.scopeLeft outer.depth)).diagnostics = s.diagnostics :=
      (Session.diagnostics_moveTo rfl).trans (hb.diagnostics_body hbody)
    exact .inr ⟨_, (Session.blames_conclude _ _).after hsame, Nat.zero_le _⟩

/-! ## expressions -/

/-- What the origin of a failure blames, the tree blames. -/
theorem Tree.Originates.blames {site : Tree} {s₀ : Session} (h : tree.Originates s site s₀)
    (hw : s.context.WellFormed) {siteOut : Conclusion} {faults : List Fault}
    (hsite : Elaborates site s₀ siteOut) (hblames : s₀.Blames siteOut faults) :
    ∃ out, Elaborates tree s out ∧ s.Blames out faults := by
  obtain ⟨hw₀, hbefore, error, s₁, s', hfound, htree, hsame⟩ := h.failed hw
  cases (hsite.run hw₀).symm.trans (hfound.run hw₀)
  exact ⟨_, htree, ⟨by rw [hsame, hblames.diagnostics, hbefore], hblames.error⟩⟩

/-- The conclusion blames as many faults as there are: two if it fails at two of
them, and otherwise one at most. -/
def Session.Accounts (s : Session) (out : Conclusion) (twice : Prop) : Prop :=
  ∃ faults, s.Blames out faults ∧ (twice → faults.length = 2) ∧ (¬ twice → faults.length ≤ 1)

/-- What succeeds does not fail doubly. -/
theorem Session.Accounts.not_of_ok {twice : Prop} (h : s.Accounts out twice) {e : Elaboration}
    (he : out.1 = .ok e) : ¬ twice := by
  obtain ⟨faults, hblames, htwo, -⟩ := h
  intro htwice
  have hlength := htwo htwice
  rw [hblames.eq_nil he] at hlength
  cases hlength

/-- A tree accounts for its failure: two faults where it originates at two
operands of a wrong type. -/
theorem Elaborates.accounts (h : Elaborates tree s out) (hw : s.context.WellFormed) :
    s.Accounts out (tree.FailsDoubly s) := by
  by_cases hdoubly : tree.FailsDoubly s
  · obtain ⟨site, s₀, horigin, hboth⟩ := id hdoubly
    obtain ⟨siteOut, faults, hsite, hsiteBlames, htwo⟩ := hboth.blames (horigin.failed hw).1
    obtain ⟨found, htree, hblames⟩ := horigin.blames hw hsite hsiteBlames
    cases (h.run hw).symm.trans (htree.run hw)
    exact ⟨faults, hblames, fun _ => htwo, absurd hdoubly⟩
  · obtain ⟨_ | e, s'⟩ := out
    · obtain ⟨site, s₀, horigin⟩ := (h.fails hw).exists_origin hw
      obtain ⟨hw₀, -, _, _, _, hsite, -⟩ := horigin.failed hw
      rcases hsite.blames_here hw₀ horigin.detected with hboth | ⟨faults, hsiteBlames, hone⟩
      · exact absurd ⟨site, s₀, horigin, hboth⟩ hdoubly
      · obtain ⟨found, htree, hblames⟩ := horigin.blames hw hsite hsiteBlames
        cases (h.run hw).symm.trans (htree.run hw)
        exact ⟨faults, hblames, fun hfails => absurd hfails hdoubly, fun _ => hone⟩
    · exact ⟨[], ⟨by simp [h.diagnostics rfl], rfl⟩, fun hfails => absurd hfails hdoubly,
        fun _ => Nat.zero_le _⟩

/-! ## statements -/

/-- Elaborating the statement in the session elaborates the part as an
expression, in that session. -/
inductive Tree.TriesForm : Tree → Session → Tree → Prop
  | expression {tree : Tree} {s : Session} :
      ¬ tree.IsBinding → ¬ tree.IsDefinition → TriesForm tree s tree
  | declaration {op name : Token} {left right : Tree} {s : Session} :
      op.kind = .colon → left.name? = some name → s.context.isLocal name.text = false →
      TriesForm (.binary op left right) s (.binary op left right)
  | definition {op name : Token} {left right : Tree} {s : Session} :
      op.kind = .assign → left.name? = some name → s.context.isLocal name.text = false →
      TriesForm (.binary op left right) s right

/-- The failure of the statement originates at an infix operator over two
operands of a wrong type. -/
def Tree.StatementFailsDoubly (tree : Tree) (s : Session) : Prop :=
  ∃ part, tree.TriesForm s part ∧ part.FailsDoubly s

/-- At most one part of a statement is elaborated as an expression. -/
theorem Tree.TriesForm.unique {part part' : Tree} (h : tree.TriesForm s part)
    (h' : tree.TriesForm s part') : part = part' := by
  cases h with
  | expression hbinding hdefinition =>
    cases h' with
    | expression => rfl
    | declaration hop => exact absurd hop hbinding
    | definition hop => exact absurd hop hdefinition
  | declaration hop =>
    cases h' with
    | expression => rfl
    | declaration => rfl
    | definition hop' => cases hop.symm.trans hop'
  | definition hop =>
    cases h' with
    | expression _ hdefinition => exact absurd hop hdefinition
    | declaration hop' => cases hop'.symm.trans hop
    | definition => rfl

/-- A statement fails doubly if its part does. -/
theorem Tree.TriesForm.statementFailsDoubly_iff (h : tree.TriesForm s part) :
    tree.StatementFailsDoubly s ↔ part.FailsDoubly s :=
  ⟨fun ⟨_, hpart, hfails⟩ => h.unique hpart ▸ hfails, fun hfails => ⟨part, h, hfails⟩⟩

/-- A statement that would bind what is no name, or a name that is bound already,
does not fail doubly. -/
theorem Tree.not_statementFailsDoubly {op : Token} {left right : Tree}
    (hop : op.kind = .colon ∨ op.kind = .assign)
    (h : ∀ name, left.name? = some name → s.context.isLocal name.text = true) :
    ¬ (Tree.binary op left right).StatementFailsDoubly s := by
  rintro ⟨part, hpart, -⟩
  cases hpart with
  | expression hbinding hdefinition => exact hop.elim hbinding hdefinition
  | declaration _ hname hlocal | definition _ hname hlocal =>
    cases hlocal.symm.trans (h _ hname)

/-- One fault of its own, where no part fails, is all that a statement has. -/
theorem Session.Accounts.single {s₁ : Session} {twice : Prop} (hsame : s₁.diagnostics = s.diagnostics)
    (hnot : ¬ twice) (fault : Fault) : s.Accounts (s₁.conclude (.refuse fault [])) twice :=
  ⟨[fault], (s₁.blames_conclude (.refuse fault [])).after hsame, fun htwice => absurd htwice hnot,
    fun _ => Nat.le_refl _⟩

/-- Success has nothing to account for. -/
theorem Session.Accounts.nothing {twice : Prop} {e : Elaboration}
    (hsame : s'.diagnostics = s.diagnostics) (hnot : ¬ twice) : s.Accounts (.ok e, s') twice :=
  ⟨[], ⟨by simp [hsame], rfl⟩, fun htwice => absurd htwice hnot, fun _ => Nat.zero_le _⟩

/-- A statement of which the part fails accounts for it as the part does. -/
theorem Elaborates.accounts_form (h : Elaborates part s out) (hw : s.context.WellFormed)
    (hpart : tree.TriesForm s part) : s.Accounts out (tree.StatementFailsDoubly s) := by
  rw [hpart.statementFailsDoubly_iff]
  exact h.accounts hw

/-- A statement accounts for its failure. -/
theorem ElaboratesForm.accounts (h : ElaboratesForm tree s out) (hw : s.context.WellFormed) :
    s.Accounts out (tree.StatementFailsDoubly s) := by
  cases h with
  | expression hbinding hdefinition hcourse =>
    exact hcourse.accounts_form hw (.expression hbinding hdefinition)
  | noName hop hname =>
    exact .single rfl (Tree.not_statementFailsDoubly hop (by simp [hname])) _
  | redeclared hop hname hlocal =>
    refine .single rfl (Tree.not_statementFailsDoubly hop fun found hfound => ?_) _
    cases hname.symm.trans hfound
    exact hlocal
  | bindingFailed hop hname hlocal hcourse =>
    exact hcourse.accounts_form hw (.declaration hop hname hlocal)
  | valueFailed hop hname hlocal hcourse =>
    exact hcourse.accounts_form hw (.definition hop hname hlocal)
  | @noInitial _ _ _ _ _ _ _ fault hop hname hlocal hcourse =>
    have hvalue := hcourse.accounts_form hw (.definition hop hname hlocal)
    exact .single (hcourse.diagnostics rfl) (hvalue.not_of_ok rfl) fault
  | declared hop hname hlocal hcourse =>
    have hbinding := hcourse.accounts_form hw (.declaration hop hname hlocal)
    exact .nothing (hcourse.diagnostics rfl) (hbinding.not_of_ok rfl)
  | defined hop hname hlocal hcourse =>
    have hvalue := hcourse.accounts_form hw (.definition hop hname hlocal)
    exact .nothing (hcourse.diagnostics rfl) (hvalue.not_of_ok rfl)

/-! ## reports -/

/-- What is reported of an outcome: nothing of a success; of a failure
diagnostics that are errors with a place, the first in the words of the error
that is returned, and two of them if there are two faults, otherwise one. -/
structure Reports (outcome : Except ElabError Elaboration) (ds : List Diagnostic)
    (twice : Prop) : Prop where
  succeeded : ∀ e, outcome = .ok e → ds = []
  placed : ∀ d ∈ ds, d.severity = .error ∧ d.span? ≠ none
  first : ∀ error, outcome = .error error → ds.head?.map Diagnostic.message = some error.message
  two : ∀ error, outcome = .error error → twice → ds.length = 2
  one : ∀ error, outcome = .error error → ¬ twice → ds.length = 1

/-- What accounts for a failure reports it. -/
theorem Session.Accounts.reports {twice : Prop} (h : s.Accounts out twice) :
    ∃ ds, out.2.diagnostics = s.diagnostics ++ ds ∧ Reports out.1 ds twice := by
  obtain ⟨faults, hblames, htwo, hone⟩ := h
  refine ⟨_, hblames.diagnostics, fun e he => ?_, ?_, fun error herror => ?_,
    fun error _ htwice => ?_, fun error herror hnot => ?_⟩
  · rw [hblames.eq_nil he]
    rfl
  · simp [Fault.diagnostic]
  · obtain ⟨first, others, rfl, rfl⟩ := hblames.exists_cons herror
    rfl
  · rw [List.length_map, htwo htwice]
  · obtain ⟨first, others, rfl, -⟩ := hblames.exists_cons herror
    have hnone := hone hnot
    rw [List.length_cons, Nat.succ_le_succ_iff, Nat.le_zero] at hnone
    rw [List.length_map, List.length_cons, hnone]

/-- Nothing is reported exactly of a success. -/
theorem Reports.eq_nil_iff {outcome : Except ElabError Elaboration} {ds : List Diagnostic}
    {twice : Prop} (h : Reports outcome ds twice) : ds = [] ↔ ∃ e, outcome = .ok e := by
  cases outcome with
  | ok e => simp [h.succeeded e rfl]
  | error error =>
    have hfirst := h.first error rfl
    simp only [reduceCtorEq, exists_false, iff_false]
    rintro rfl
    cases hfirst

/-- The record of an outcome is no diagnostic. -/
theorem Context.diagnostic?_outcomeEvent {cx : Context} {span : Span}
    {outcome : Except ElabError Elaboration} {event : Event}
    (h : cx.outcomeEvent? span outcome = some event) : event.diagnostic? = none := by
  cases outcome with
  | error error =>
    cases h
    rfl
  | ok e =>
    obtain ⟨node, -, rfl⟩ := Option.map_eq_some_iff.1 h
    rfl

/-- A statement reports what accounts for its outcome. -/
theorem exists_reports_statement (tree : Tree) (hw : s.context.WellFormed) :
    ∃ outcome s' ds, elaborateStatement tree s = .ok (outcome, s') ∧
      s'.diagnostics = s.diagnostics ++ ds ∧ Reports outcome ds (tree.StatementFailsDoubly s) := by
  obtain ⟨⟨outcome, s₁⟩, hcourse, -⟩ := exists_course_form tree hw
  obtain ⟨event, hevent⟩ := hcourse.exists_event hw
  obtain ⟨ds, hds, hreports⟩ := (hcourse.accounts hw).reports
  have hsilent := Context.diagnostic?_outcomeEvent hevent
  exact ⟨outcome, s₁.moveTo s₁.context event, ds, hcourse.run_statement hw hevent,
    (Session.diagnostics_moveTo hsilent).trans hds, hreports⟩

/-- The statements of a run report nothing exactly if all of them succeed. -/
theorem Runs.diagnostics_eq_nil_iff {reports : List Report} (h : Runs s reports s')
    (hw : s.context.WellFormed) : reports.flatMap Report.diagnostics = [] ↔
      ∀ report ∈ reports, ∃ e, report.outcome = .ok e := by
  induction h with
  | nil => simp
  | @cons s s₁ s' report reports hrun hevents hruns ih =>
    obtain ⟨outcome, s₂, ds, hfound, hds, hreports⟩ := exists_reports_statement report.tree hw
    cases hrun.symm.trans hfound
    have hsame : report.diagnostics = ds := by
      rw [Session.diagnostics, hevents, Array.toList_append, diagnosticsOf_append] at hds
      exact List.append_cancel_left hds
    rw [List.flatMap_cons, List.append_eq_nil_iff, List.forall_mem_cons,
      ih (kept_of_run_elaborateStatement hw hrun).wellFormed, hsame, hreports.eq_nil_iff]

/-! ## the whole -/

/-- Failures are reported where they are detected, and nowhere else.  In every
context that is reached, and for every tree:

* elaborating it reports nothing if it succeeds, and otherwise errors of which
  the first is in the words of the error that is returned.  There are two if the
  failure originates at an infix operator over two operands of a wrong type, and
  otherwise there is one.  A failure has one origin, and what is reported is what
  is reported there;
* the same holds of the tree as a statement;
* what a program reports is what its statements do, in this order, and so it
  reports nothing exactly if all of them succeed. -/
theorem elaborate_reports (h : s.context.Reachable) :
    (∀ tree, ∃ outcome s' ds, (elaborate tree).run s = .ok (outcome, s') ∧
      s'.diagnostics = s.diagnostics ++ ds ∧ Reports outcome ds (tree.FailsDoubly s) ∧
      ∀ error, outcome = .error error → ∃ site s₀ s₁, tree.Originates s site s₀ ∧
        (∀ site' s₀', tree.Originates s site' s₀' → site' = site ∧ s₀' = s₀) ∧
        (elaborate site).run s₀ = .ok (.error error, s₁) ∧
        s₁.diagnostics = s₀.diagnostics ++ ds) ∧
    (∀ tree, ∃ outcome s' ds, elaborateStatement tree s = .ok (outcome, s') ∧
      s'.diagnostics = s.diagnostics ++ ds ∧
      Reports outcome ds (tree.StatementFailsDoubly s)) ∧
    ∀ trees, ∃ reports s', reports.map Report.tree = trees ∧ RunsProgram s reports s' ∧
      (s'.diagnostics = s.diagnostics ↔
        ∀ report ∈ reports, ∃ e, report.outcome = .ok e) := by
  have hw := h.wellFormed
  refine ⟨fun tree => ?_, fun tree => exists_reports_statement tree hw, fun trees => ?_⟩
  · obtain ⟨⟨outcome, s'⟩, hcourse⟩ := exists_elaborates tree hw
    obtain ⟨ds, hds, hreports⟩ := (hcourse.accounts hw).reports
    refine ⟨outcome, s', ds, hcourse.run hw, hds, hreports, ?_⟩
    rintro error rfl
    obtain ⟨site, s₀, horigin⟩ := (hcourse.fails hw).exists_origin hw
    obtain ⟨hw₀, hbefore, found, s₁, s₂, hsite, htree, hsame⟩ := horigin.failed hw
    cases (hcourse.run hw).symm.trans (htree.run hw)
    exact ⟨site, s₀, s₁, horigin, fun _ _ => horigin.unique hw, hsite.run hw₀,
      by rw [← hsame, hds, hbefore]⟩
  · obtain ⟨reports, last, htrees, hruns⟩ := exists_runs trees hw
    obtain ⟨s', hprogram, -⟩ := hruns.program
    refine ⟨reports, s', htrees, hprogram, ?_⟩
    rw [hprogram.diagnostics, List.append_right_eq_self, hruns.diagnostics_eq_nil_iff hw]

/-- `not (1 and 2)` fails doubly, at what is behind the negation, so the one error
that is returned is reported along with another one. -/
theorem elaborate_reports_both :
    let site : Tree := .binary ⟨.kwAnd, "and", .origin⟩ (.terminal ⟨.literal, "1", .origin⟩)
      (.terminal ⟨.literal, "2", .origin⟩)
    let tree : Tree := .unary ⟨.kwNot, "not", .origin⟩
      (.enclosed ⟨.openParen, "(", .origin⟩ site ⟨.closeParen, ")", .origin⟩)
    Context.initial.Reachable ∧ tree.FailsDoubly ⟨.initial, #[]⟩ ∧ ∃ error s',
      (elaborate tree).run ⟨.initial, #[]⟩ = .ok (.error error, s') ∧
      error = .typeMismatch .bool .int ∧ s'.diagnostics.length = 2 ∧
      s'.diagnostics.head?.map Diagnostic.message = some error.message := by
  intro site tree
  have hboth : site.BothMismatch ⟨.initial, #[]⟩ :=
    .intro (l := ⟨⟨5⟩, .int⟩) (r := ⟨⟨6⟩, .int⟩) rfl rfl rfl (by decide) (by decide)
  have horigin := hboth.originates Context.wellFormed_initial
  have hdoubly : tree.FailsDoubly ⟨.initial, #[]⟩ :=
    ⟨site, _, .within (.operand rfl) (.within .enclosed horigin), hboth⟩
  obtain ⟨hreports, -, -⟩ := elaborate_reports (s := ⟨.initial, #[]⟩) .initial
  obtain ⟨outcome, s', ds, hrun, hds, hreported, -⟩ := hreports tree
  have hfails : (elaborate tree).run ⟨.initial, #[]⟩ = .ok (.error (.typeMismatch .bool .int), _) :=
    rfl
  obtain ⟨rfl, -⟩ := Prod.mk.inj (Except.ok.inj (hrun.symm.trans hfails))
  obtain rfl : s'.diagnostics = ds := hds
  exact ⟨.initial, hdoubly, _, s', hrun, rfl, hreported.two _ rfl hdoubly, hreported.first _ rfl⟩

end ArithLogic
