import ArithLogic.CommandLine.Run
import ArithLogic.Proofs.Elaboration.Regrouping
import ArithLogic.Proofs.Elaboration.Reporting
import ArithLogic.Proofs.History
import ArithLogic.Proofs.NormalForm.Refinement
import ArithLogic.Proofs.Reading.Kinds

/-!
# ArithLogic.Proofs.CommandLine

What the command prints.  While it prints, the context grows by the normal forms
of earlier statements, and what is printed next could depend on them.  It does
not: an entry tells the term that a handle denotes, and that stays the same.  So
the output is made of the entries that each statement would have right after the
program was elaborated (`Options.Prints`), whatever stands before it.
-/

namespace ArithLogic

/-! ## declarations -/

/-- What the verdict builds is no binding. -/
def Verdict.BuildsOther : Verdict → Prop
  | build (.bind _ _) _ => False
  | _ => True

theorem Verdict.BuildsOther.unless {verdict : Verdict} (h : verdict.BuildsOther)
    (faults : List Fault) : (verdict.unless faults).BuildsOther := by
  cases faults with
  | nil => exact h
  | cons => trivial

theorem Token.verdict_buildsOther (token : Token) : token.verdict.BuildsOther := by
  refine token.verdict_cases (fun _ => ?_) (fun _ => ?_) (fun _ => ?_) <;> trivial

theorem PrefixForm.verdict_buildsOther (form : PrefixForm) (e : Elaboration) (span : Span) :
    (form.verdict e span).BuildsOther := by
  refine .unless ?_ _
  cases form <;> trivial

theorem Context.infixVerdict_buildsOther (cx : Context) (op : Token) (l r : Elaboration)
    (leftSpan rightSpan : Span) (form : InfixForm) :
    (cx.infixVerdict op l r leftSpan rightSpan form).BuildsOther := by
  refine cx.infixVerdict_cases op l r leftSpan rightSpan form (fun _ => ?_) (fun _ => ?_)
    (fun _ => ?_) (fun _ => ?_) (fun _ _ => ?_) (fun _ _ => ?_) <;> trivial

theorem Session.isBinding_conclude {s : Session} {verdict : Verdict} {e : Elaboration}
    (he : (s.conclude verdict).1 = .ok e) (h : verdict.BuildsOther) :
    (s.conclude verdict).2.context.isBinding e.expr = false := by
  cases verdict with
  | build node ty =>
    cases he
    show (s.context.add node).2.isBinding ⟨s.context.size⟩ = false
    rw [Context.isBinding, Context.node?_add_self]
    cases node with
    | bind => exact h.elim
    | _ => rfl
  | refuse => cases he

/-- Exactly what has the shape of a binding, with or without parentheses around it,
is elaborated to one. -/
theorem Elaborates.isBinding_iff {tree : Tree} {s : Session} {out : Conclusion}
    (h : Elaborates tree s out) {e : Elaboration} (he : out.1 = .ok e) :
    out.2.context.isBinding e.expr = true ↔ tree.unparenthesized.IsBinding := by
  have hother : ∀ {s : Session} {verdict : Verdict} {p : Prop}, (s.conclude verdict).1 = .ok e →
      verdict.BuildsOther → ¬ p → ((s.conclude verdict).2.context.isBinding e.expr = true ↔ p) := by
    intro s verdict p he hbuilds hp
    rw [Session.isBinding_conclude he hbuilds]
    exact iff_of_false Bool.false_ne_true hp
  induction h with
  | enclosed _ ih => exact ih he
  | named => exact hother he trivial id
  | constant => exact hother he (Token.verdict_buildsOther _) id
  | prefixed => exact hother he (PrefixForm.verdict_buildsOther ..) id
  | infixed hform =>
    exact hother he (.unless (Context.infixVerdict_buildsOther ..) _)
      (InfixForm.kind_of_ofToken? hform).1
  | quantified hq => exact hother he trivial (Quantifier.kind_of_ofToken? hq).1
  | @bound op name _ _ _ s' _ ty hop =>
    cases he
    refine iff_of_true ?_ hop
    rw [Context.isBinding, (s'.node?_addBinding name.text ty).1]
  | unbound | noPrefix | noInfix | definition | noName | noBinding | noType => cases he
  | operandFailed | leftFailed | rightFailed | typeFailed | bindingFailed | bodyFailed
  | bodyRefused => cases he

/-- Of a statement that was parsed and elaborated, exactly a declaration has become
a binding. -/
theorem ElaboratesForm.isBinding_iff {tree : Tree} {s : Session} {out : Conclusion}
    (h : ElaboratesForm tree s out) (hshape : tree.IsStatement) (hw : s.context.WellFormed)
    {e : Elaboration} (he : out.1 = .ok e) :
    out.2.context.isBinding e.expr = true ↔ tree.IsBinding := by
  cases h with
  | expression hbinding _ hcourse =>
    rw [hcourse.isBinding_iff he, hshape.upright.isBinding_unparenthesized]
  | noName | redeclared | bindingFailed | valueFailed | noInitial => cases he
  | declared hop _ _ _ hnode hdeclare =>
    cases he
    refine iff_of_true ?_ hop
    rw [Context.isBinding, (Context.Within.declareId hdeclare).node hnode]
  | @defined op name _ _ _ s₁ _ _ _ _ hop _ _ hcourse _ hdeclare =>
    cases he
    have hvalue := (hshape.value hop).upright
    have hwithin := (Context.Within.addId s₁.context name.text).trans (.declareId hdeclare)
    rw [hwithin.isBinding_eq ((hcourse.kept hw).form.inRange _ rfl), hcourse.isBinding_iff rfl,
      hvalue.1.isBinding_unparenthesized]
    exact iff_of_false hvalue.2.1 fun hcolon => by cases hop.symm.trans hcolon

/-- What is reported of the statement is held by the context, where it is a binding
exactly if the statement is a declaration. -/
structure Report.HoldsIn (report : Report) (cx : Context) : Prop where
  inRange : ∀ e, report.outcome = .ok e → e.expr.index < cx.size
  isBinding_iff : ∀ e, report.outcome = .ok e →
    (cx.isBinding e.expr = true ↔ report.tree.IsBinding)

/-- What is reported of a program that was parsed is held by the last context. -/
theorem Runs.holdsIn {s s' : Session} {reports : List Report} (h : Runs s reports s')
    (hw : s.context.WellFormed) (hshape : ∀ report ∈ reports, report.tree.IsStatement) :
    ∀ report ∈ reports, report.HoldsIn s'.context := by
  induction h with
  | nil => exact List.forall_mem_nil _
  | cons hrun _ hruns ih =>
    rw [List.forall_mem_cons] at hshape ⊢
    have hkept := kept_of_run_elaborateStatement hw hrun
    obtain ⟨-, hwithin, -⟩ := hruns.kept hkept.wellFormed
    obtain ⟨s₁, hcourse, hsame⟩ := course_of_run_elaborateStatement hw hrun
    refine ⟨⟨fun e he => hwithin.index_lt (hkept.inRange e he), fun e he => ?_⟩,
      ih hkept.wellFormed hshape.2⟩
    rw [hwithin.isBinding_eq (hkept.inRange e he), hsame]
    exact hcourse.isBinding_iff hshape.1 hw he

/-! ## the same statements elsewhere -/

/-- Where the tokens stand makes no difference to the grouping. -/
theorem Tree.bare_map_unplaced (tree : Tree) : (tree.map Token.unplaced).bare = tree.bare := by
  induction tree with
  | enclosed _ _ _ ih => exact ih
  | terminal => rfl
  | unary _ _ ih => simp only [map, bare, ih, Token.unplaced_unplaced]
  | binary _ _ _ ihl ihr => simp only [map, bare, ihl, ihr, Token.unplaced_unplaced]

/-- Nothing remains that was not there. -/
theorem Prunes.subset {reports remaining : List Report} (h : Prunes reports remaining) :
    remaining ⊆ reports := by
  induction h with
  | nil => exact List.Subset.refl _
  | keep _ ih => exact List.cons_subset_cons _ ih
  | remove _ _ ih => exact List.subset_cons_of_subset _ ih

/-- Statements with the same grouping have the same outcomes, and lead to the same
context. -/
theorem Runs.agree {s last last' : Session} {record : Array Event}
    {reports reports' : List Report} (h : Runs s reports last)
    (h' : Runs ⟨s.context, record⟩ reports' last') (hrecord : SameReports s.events record)
    (hw : s.context.WellFormed) (hupright : ∀ report ∈ reports, report.tree.Upright)
    (hupright' : ∀ report ∈ reports', report.tree.Upright)
    (hbare : reports'.map (Tree.bare ∘ Report.tree) = reports.map (Tree.bare ∘ Report.tree)) :
    List.Forall₂ (fun a b => b.outcome = a.outcome ∧ (b.tree.IsBinding ↔ a.tree.IsBinding))
      reports reports' ∧ last'.context = last.context := by
  induction h generalizing record reports' with
  | nil =>
    cases List.map_eq_nil_iff.1 hbare
    cases h'
    exact ⟨.nil, rfl⟩
  | @cons s s₁ _ report reports hrun _ _ ih =>
    obtain ⟨report', reports', rfl, hsame, hrest⟩ := List.map_eq_cons_iff.1 hbare
    rw [List.forall_mem_cons] at hupright hupright'
    cases h' with
    | @cons _ s₁' _ _ _ hrun' _ hruns' =>
      obtain ⟨outcome, _, ⟨_, _⟩, hfound, hfound', hcontext, htells⟩ :=
        exists_statement_agree hw hupright.1 hupright'.1 hsame hrecord
      cases hrun.symm.trans hfound
      -- from here on the sessions differ in what is recorded
      cases hcontext
      obtain ⟨houtcome, rfl⟩ := Prod.mk.inj (Except.ok.inj (hrun'.symm.trans hfound'))
      have hbinding : report'.tree.IsBinding ↔ report.tree.IsBinding := by
        rw [← hupright'.1.isBinding_bare, ← hupright.1.isBinding_bare]
        exact iff_of_eq (congrArg Tree.IsBinding hsame)
      have hw₁ := (kept_of_run_elaborateStatement hw hrun).wellFormed
      obtain ⟨hreports, hlast⟩ := ih hruns' htells hw₁ hupright.2 hupright'.2 hrest
      exact ⟨.cons ⟨houtcome, hbinding⟩ hreports, hlast⟩

/-! ## entries -/

/-- Handles that denote the same have the same text. -/
theorem Context.text_eq {cx cx' : Context} {e e' : NodeRef} (h : cx'.term? e' = cx.term? e)
    (width : Nat) : cx'.render e' width = cx.render e width ∧
      cx'.renderColored e' width = cx.renderColored e width := by
  simp only [render, renderColored, h, and_self]

/-- The normal form of a formula is that of its handle. -/
theorem Elaboration.run_normalFormOf {s s' : Session} {e : Elaboration} {e' : NodeRef}
    {negated : Bool} (hformula : e.isFormula s.context = true)
    (h : Action.normalize e.expr negated s = .ok (e', s')) :
    e.normalFormOf negated s = .ok (⟨e', e.ty⟩, s') := by
  cases negated with
  | false =>
    rw [normalFormOf, if_neg Bool.false_ne_true]
    exact run_normalForm h
  | true =>
    rw [normalFormOf, if_pos rfl]
    exact run_negatedForm hformula h

namespace CommandLine

/-- The normal form of the statement is asked for, and the statement is a formula and
declares nothing. -/
def Options.Normalizes (options : Options) (tree : Tree) (e : Elaboration) : Prop :=
  (options.normalForm = true ∨ options.negate = true) ∧ e.ty = .bool ∧ ¬ tree.IsBinding

/-- What is printed of a statement if nothing was brought into normal form since the
program was elaborated: nothing if the statement failed, otherwise its entry, and
behind it the one of the normal form where that belongs there. -/
inductive Options.Prints (options : Options) (format : Format) (s : Session) :
    Report → String → Prop
  | nothing {report : Report} {error : ElabError} :
      report.outcome = .error error → Prints options format s report ""
  | entry {report : Report} {e : Elaboration} :
      report.outcome = .ok e → ¬ options.Normalizes report.tree e →
      Prints options format s report (format.entry s.context "" e)
  | entries {report : Report} {e normal : Elaboration} {s' : Session} :
      report.outcome = .ok e → options.Normalizes report.tree e →
      e.normalFormOf options.negate s = .ok (normal, s') →
      Prints options format s report
        (format.entry s.context "" e ++ format.entry s'.context "  nnf: " normal)

variable {options : Options} {format : Format} {s : Session}

/-- Of expressions with the same text, the entries are the same. -/
theorem Format.entry_congr {cx cx' : Context} {label : String} {e e' : Elaboration}
    (htext : ∀ width, cx'.render e'.expr width = cx.render e.expr width ∧
      cx'.renderColored e'.expr width = cx.renderColored e.expr width) (hty : e'.ty = e.ty) :
    format.entry cx' label e' = format.entry cx label e := by
  simp only [entry, (htext _).1, (htext _).2, hty]

/-- What is printed of a statement is determined. -/
theorem Options.Prints.unique {report : Report} {text text' : String}
    (h : options.Prints format s report text) (h' : options.Prints format s report text') :
    text' = text := by
  cases h with
  | nothing herror =>
    cases h' with
    | nothing => rfl
    | entry he | entries he => cases herror.symm.trans he
  | entry he hnot =>
    cases h' with
    | nothing herror => cases herror.symm.trans he
    | entry he' =>
      cases he.symm.trans he'
      rfl
    | entries he' hnormalizes =>
      cases he.symm.trans he'
      exact absurd hnormalizes hnot
  | entries he hnormalizes hrun =>
    cases h' with
    | nothing herror => cases herror.symm.trans he
    | entry he' hnot =>
      cases he.symm.trans he'
      exact absurd hnormalizes hnot
    | entries he' _ hrun' =>
      cases he.symm.trans he'
      cases hrun.symm.trans hrun'
      rfl

/-- A statement whose normal form is asked for is a formula. -/
theorem Options.normalizes_iff {report : Report} {e : Elaboration} {cx : Context}
    (h : report.HoldsIn cx) (he : report.outcome = .ok e) :
    options.Normalizes report.tree e ↔
      (options.normalForm = true ∨ options.negate = true) ∧ e.isFormula cx = true := by
  rw [Elaboration.isFormula_eq_true_iff, ← Bool.not_eq_true, h.isBinding_iff e he, Normalizes]

/-- What the command prints of a statement does not depend on the normal forms by
which the context has grown. -/
theorem run_statementEntries (options : Options) (format : Format) {r : Session}
    {report : Report} {e : Elaboration} (hw : s.context.WellFormed)
    (hgrows : s.context.Grows r.context) (hholds : report.HoldsIn s.context)
    (he : report.outcome = .ok e) :
    ∃ text r', statementEntries options format e r = .ok (text, r') ∧
      s.context.Grows r'.context ∧ options.Prints format s report text := by
  have hrange := hholds.inRange e he
  -- the handle denotes the same term now and when nothing had been added
  obtain ⟨t, ht⟩ := hw.exists_term hrange
  have htr := hgrows.within.term? ht
  have hentry : format.entry r.context "" e = format.entry s.context "" e :=
    Format.entry_congr (Context.text_eq (htr.trans ht.symm)) rfl
  have hsame : e.isFormula r.context = e.isFormula s.context := by
    rw [Elaboration.isFormula, hgrows.within.isBinding_eq hrange, Elaboration.isFormula]
  have hasked : options.Normalizes report.tree e ↔
      ((options.normalForm || options.negate) && e.isFormula r.context) = true := by
    rw [Options.normalizes_iff hholds he, Bool.and_eq_true, Bool.or_eq_true, hsame]
  by_cases hnormalizes : options.Normalizes report.tree e
  · have hcondition := hasked.1 hnormalizes
    have hformula := (Bool.and_eq_true_iff.1 hcondition).2
    obtain ⟨e₁, s₁, hrun, -, ht₁⟩ := exists_normalize_term hw ht options.negate
    obtain ⟨e₂, r', hrunr, hgrowsr, ht₂⟩ :=
      exists_normalize_term hgrows.wellFormed htr options.negate
    -- so do the normal forms, for nothing was declared in between
    rw [hgrows.declaresFormula] at ht₂
    have hrun := Elaboration.run_normalFormOf (hsame.symm.trans hformula) hrun
    have hrunr := Elaboration.run_normalFormOf hformula hrunr
    have hnormal : format.entry r'.context "  nnf: " ⟨e₂, e.ty⟩ =
        format.entry s₁.context "  nnf: " ⟨e₁, e.ty⟩ :=
      Format.entry_congr (Context.text_eq (ht₂.trans ht₁.symm)) rfl
    refine ⟨_, r', ?_, hgrows.trans hgrowsr, .entries he hnormalizes hrun⟩
    simp only [statementEntries, Action.run_bind, Action.run_inspect, hcondition, if_true, hrunr,
      Action.run_pure, hentry, hnormal]
  · refine ⟨_, r, ?_, hgrows, .entry he hnormalizes⟩
    simp only [statementEntries, Action.run_bind, Action.run_inspect, mt hasked.2 hnormalizes,
      Bool.false_eq_true, if_false, Action.run_pure, hentry]

/-- What the command prints of statements is what each of them has, in their order. -/
theorem run_entries (options : Options) (format : Format) {r : Session} {reports : List Report}
    (hw : s.context.WellFormed) (hgrows : s.context.Grows r.context)
    (hholds : ∀ report ∈ reports, report.HoldsIn s.context) :
    ∃ entries texts r', (((reports.map Report.outcome).filterMap Except.toOption).mapM
        (statementEntries options format) : Action _) r = .ok (entries, r') ∧
      String.join entries = String.join texts ∧
      List.Forall₂ (options.Prints format s) reports texts := by
  induction reports generalizing r with
  | nil => exact ⟨[], [], r, rfl, rfl, .nil⟩
  | cons report reports ih =>
    rw [List.forall_mem_cons] at hholds
    cases houtcome : report.outcome with
    | error error =>
      obtain ⟨entries, texts, r', hrun, hjoin, hprints⟩ := ih hgrows hholds.2
      refine ⟨entries, "" :: texts, r', ?_, ?_, .cons (.nothing houtcome) hprints⟩
      · rw [List.map_cons, houtcome]
        exact hrun
      · rw [String.join_cons, String.empty_append, hjoin]
    | ok e =>
      obtain ⟨text, r₁, hrun, hgrows₁, hprint⟩ :=
        run_statementEntries options format hw hgrows hholds.1 houtcome
      obtain ⟨entries, texts, r', hruns, hjoin, hprints⟩ := ih hgrows₁ hholds.2
      refine ⟨text :: entries, text :: texts, r', ?_, ?_, .cons hprint hprints⟩
      · rw [List.map_cons, houtcome]
        show (List.mapM (statementEntries options format) (e :: _) : Action _) r = _
        simp only [List.mapM_cons, Action.run_bind, hrun, hruns, Action.run_pure]
      · rw [String.join_cons, String.join_cons, hjoin]

/-! ## without statements that fail -/

section Pruned

variable {ρ : Renumbering} {big : Session} {reports reports' remaining : List Report}
  {texts texts' : List String}

/-- In a context that holds the same elsewhere, the same is printed. -/
theorem Options.Prints.embeds {report report' : Report} {text : String}
    (h : options.Prints format s report text) (hcx : s.context.Embeds ρ big.context)
    (hw : s.context.WellFormed) (hbig : big.context.WellFormed)
    (hholds : report.HoldsIn s.context)
    (houtcome : report'.outcome = report.outcome.map (Elaboration.renumber ρ))
    (hbinding : report'.tree.IsBinding ↔ report.tree.IsBinding) :
    options.Prints format big report' text := by
  have hok : ∀ e, report.outcome = .ok e → report'.outcome = .ok (e.renumber ρ) :=
    fun e he => houtcome.trans (congrArg (Except.map (Elaboration.renumber ρ)) he)
  have hnormalizes : ∀ e : Elaboration, options.Normalizes report'.tree (e.renumber ρ) ↔
      options.Normalizes report.tree e := fun e => by
    rw [Options.Normalizes, hbinding]
    exact Iff.rfl
  have hentry : ∀ e : Elaboration, format.entry big.context "" (e.renumber ρ) =
      format.entry s.context "" e := fun e => Format.entry_congr (hcx.render_eq hw hbig e.expr) rfl
  cases h with
  | nothing herror =>
    exact .nothing (houtcome.trans (congrArg (Except.map (Elaboration.renumber ρ)) herror))
  | @entry e he hnot =>
    rw [← hentry]
    exact .entry (hok e he) (mt (hnormalizes e).1 hnot)
  | @entries e normal s' he hasked hrun =>
    have hformula := ((Options.normalizes_iff hholds he).1 hasked).2
    have hformula' : (e.renumber ρ).isFormula big.context = true := by
      rw [← hformula, Elaboration.isFormula, Elaboration.isFormula, ← hcx.isBinding_eq]
      rfl
    obtain ⟨e', _, big', hrun₁, hrun', -, -, htext⟩ :=
      (hcx.alike hw hbig (hholds.inRange e he)).normalForm options.negate
    cases hrun.symm.trans (Elaboration.run_normalFormOf hformula hrun₁)
    have hnormal : format.entry big'.context "  nnf: " ⟨ρ.node e', e.ty⟩ =
        format.entry s'.context "  nnf: " ⟨e', e.ty⟩ := Format.entry_congr htext rfl
    rw [← hentry, ← hnormal]
    exact .entries (hok e he) ((hnormalizes e).2 hasked)
      (Elaboration.run_normalFormOf hformula' hrun')

/-- So it is for statements one by one. -/
theorem forall₂_prints_embeds (h : List.Forall₂ (options.Prints format s) reports' texts)
    (hsame : List.Forall₂
      (fun a b => b.outcome = a.outcome ∧ (b.tree.IsBinding ↔ a.tree.IsBinding)) reports reports')
    (hcx : s.context.Embeds ρ big.context) (hw : s.context.WellFormed)
    (hbig : big.context.WellFormed) (hholds : ∀ report ∈ reports', report.HoldsIn s.context) :
    List.Forall₂ (options.Prints format big) (reports.map (Report.renumber ρ)) texts := by
  induction hsame generalizing texts with
  | nil =>
    cases h
    exact .nil
  | @cons a b _ _ hab _ ih =>
    rw [List.forall_mem_cons] at hholds
    cases h with
    | cons hprint hprints =>
      have houtcome : (a.renumber ρ).outcome = b.outcome.map (Elaboration.renumber ρ) := by
        rw [hab.1]
        rfl
      exact .cons (hprint.embeds hcx hw hbig hholds.1 houtcome hab.2.symm) (ih hprints hholds.2)

/-- Without statements that fail, the same is printed. -/
theorem join_eq_of_prunes (hprune : Prunes reports remaining)
    (h : List.Forall₂ (options.Prints format s) reports texts)
    (h' : List.Forall₂ (options.Prints format s) remaining texts') :
    String.join texts' = String.join texts := by
  induction hprune generalizing texts texts' with
  | nil =>
    cases h
    cases h'
    rfl
  | keep _ ih =>
    cases h with
    | cons hprint hprints =>
      cases h' with
      | cons hprint' hprints' =>
        rw [String.join_cons, String.join_cons, ih hprints hprints', hprint.unique hprint']
  | remove herror _ ih =>
    cases h with
    | cons hprint hprints =>
      have hempty := (Options.Prints.nothing herror).unique hprint
      rw [String.join_cons, ih hprints h', hempty, String.empty_append]

/-- Another run of the statements, wherever they stand and without some of those that
fail, prints the same. -/
theorem join_eq_of_runs {start last s' last' : Session} (h : Runs start reports last)
    (h' : Runs start reports' last') (hw : start.context.WellFormed)
    (hprune : Prunes reports remaining) (hshape : ∀ report ∈ reports, report.tree.IsStatement)
    (hshape' : ∀ report ∈ reports', report.tree.IsStatement)
    (hsame : reports'.map (Tree.bare ∘ Report.tree) = remaining.map (Tree.bare ∘ Report.tree))
    (hcontext : s.context = last.context) (hcontext' : s'.context = last'.context)
    (hprints : List.Forall₂ (options.Prints format s) reports texts)
    (hprints' : List.Forall₂ (options.Prints format s') reports' texts') :
    String.join texts' = String.join texts := by
  obtain ⟨ρ, small, smallLast, hsmall, rfl, hembeds, -⟩ := h.prune hprune (.refl _) hw hw
  have hupright : ∀ report ∈ small, report.tree.Upright := fun report hreport =>
    (hshape _ (hprune.subset (List.mem_map_of_mem hreport))).upright
  rw [List.map_map] at hsame
  obtain ⟨hagree, hlast⟩ := hsmall.agree h' (.refl _) hw hupright
    (fun report hreport => (hshape' report hreport).upright) hsame
  have hholds := h'.holdsIn hw hshape'
  have hw₁ := (h.kept hw).1
  have hw₁' := (h'.kept hw).1
  rw [← hlast] at hembeds
  rw [← hcontext] at hembeds hw₁
  rw [← hcontext'] at hembeds hholds hw₁'
  exact join_eq_of_prunes hprune hprints
    (forall₂_prints_embeds hprints' hagree hembeds hw₁' hw₁ hholds)

end Pruned

/-! ## the whole -/

/-- A source that was read is elaborated and printed, statement by statement, and the
command succeeds exactly if nothing was reported. -/
theorem exists_runs_runSource (options : Options) (isTerminal : Bool) (file : String)
    {source : String} {trees : List Tree} (hparse : parseProgram source = .ok trees) :
    ∃ reports last s outcome texts, reports.map Report.tree = trees ∧
      (∀ report ∈ reports, report.tree.IsStatement) ∧ Runs ⟨.initial, #[]⟩ reports last ∧
      RunsProgram ⟨.initial, #[]⟩ reports s ∧ s.context = last.context ∧
      runSource options isTerminal file source = .ok outcome ∧
      (outcome.success = true ↔ s.diagnostics = []) ∧ outcome.output = String.join texts ∧
      List.Forall₂ (options.Prints (options.format isTerminal) s) reports texts := by
  have hinitial := Context.wellFormed_initial
  have hshape := isStatement_of_parseProgram hparse
  obtain ⟨reports, last, rfl, hruns⟩ := exists_runs (s := ⟨.initial, #[]⟩) trees hinitial
  obtain ⟨s, hprogram, hcontext⟩ := hruns.program
  rw [List.forall_mem_map] at hshape
  have hw := (hruns.kept hinitial).1
  have hholds := hruns.holdsIn hinitial hshape
  rw [← hcontext] at hw hholds
  obtain ⟨entries, texts, r, hrun, hjoin, hprints⟩ :=
    run_entries options (options.format isTerminal) hw (.refl hw) hholds
  refine ⟨reports, last, s, ⟨(reports.map Report.outcome).all Except.toBool, String.join entries,
    (diagnosticsOf r.events.toList).map (noticeOf file source)⟩, texts, rfl, hshape, hruns,
    hprogram, hcontext, ?_, ?_, hjoin, hprints⟩
  · simp only [runSource, hparse, programEntries, StateT.run, Action.run_bind, hprogram.run, hrun,
      Action.run_pure]
    rfl
  · have hsucceeds : ∀ outcome : Except ElabError Elaboration,
        outcome.toBool = true ↔ ∃ e, outcome = .ok e := by
      rintro (error | e) <;> simp [Except.toBool]
    have hsilent : s.diagnostics = reports.flatMap Report.diagnostics := hprogram.diagnostics
    rw [hsilent, hruns.diagnostics_eq_nil_iff hinitial, List.all_map, List.all_eq_true]
    exact forall₂_congr fun report _ => hsucceeds report.outcome

/-- The command prints what there is to print, and comes to an end for every source
and all options.

* A source that is refused has no output, and the command fails.
* Otherwise it succeeds exactly if elaborating the program reports nothing.  The
  output is made of what each statement has in the context right after that: its
  entry if it succeeded, and with it the entry of the normal form if that was asked
  for and the statement is a formula that declares nothing.  Normal forms printed
  before have no influence on it.
* A source with the same statements elsewhere, without some of those that fail, has
  the same output. -/
theorem runSource_prints (options : Options) (isTerminal : Bool) (file source : String) :
    (∀ error, parseProgram source = .error error → ∃ outcome,
      runSource options isTerminal file source = .ok outcome ∧ outcome.success = false ∧
      outcome.output = "") ∧
    ∀ trees, parseProgram source = .ok trees → ∃ reports s outcome texts,
      reports.map Report.tree = trees ∧ RunsProgram ⟨.initial, #[]⟩ reports s ∧
      runSource options isTerminal file source = .ok outcome ∧
      (outcome.success = true ↔ s.diagnostics = []) ∧
      outcome.output = String.join texts ∧
      List.Forall₂ (options.Prints (options.format isTerminal) s) reports texts ∧
      ∀ remaining, Prunes reports remaining → ∀ file' source' trees',
        parseProgram source' = .ok trees' →
        trees'.map (Tree.map Token.unplaced) =
          (remaining.map Report.tree).map (Tree.map Token.unplaced) →
        ∃ outcome', runSource options isTerminal file' source' = .ok outcome' ∧
          outcome'.output = outcome.output := by
  refine ⟨fun error herror => ?_, fun trees hparse => ?_⟩
  · rw [runSource, herror]
    exact ⟨_, rfl, rfl, rfl⟩
  obtain ⟨reports, last, s, outcome, texts, rfl, hshape, hruns, hprogram, hcontext, hrun, hsuccess,
    houtput, hprints⟩ := exists_runs_runSource options isTerminal file hparse
  refine ⟨reports, s, outcome, texts, rfl, hprogram, hrun, hsuccess, houtput, hprints, ?_⟩
  intro remaining hprune file' source' trees' hparse' hsame
  obtain ⟨reports', last', s', outcome', texts', rfl, hshape', hruns', -, hcontext', hrun', -,
    houtput', hprints'⟩ := exists_runs_runSource options isTerminal file' hparse'
  have hbare : reports'.map (Tree.bare ∘ Report.tree) =
      remaining.map (Tree.bare ∘ Report.tree) := by
    have hplaces := congrArg (List.map Tree.bare) hsame
    simp only [List.map_map, Function.comp_def, Tree.bare_map_unplaced] at hplaces
    exact hplaces
  refine ⟨outcome', hrun', ?_⟩
  rw [houtput', houtput]
  exact join_eq_of_runs hruns hruns' Context.wellFormed_initial hprune hshape hshape' hbare hcontext
    hcontext' hprints hprints'

/-- The second of the statements `p : bool; x; p` fails, so with or without it the
declaration is printed and then `p`, which is a formula, with the normal form of its
negation.  Of a parenthesis that is never opened nothing is printed. -/
theorem runSource_prints_unbound :
    let options : Options := ⟨none, none, false, true, none, some .never⟩
    ∃ refused outcome outcome',
      runSource options true "<expr>" ")" = .ok refused ∧ refused.output = "" ∧
      runSource options true "<expr>" "p : bool; x; p" = .ok outcome ∧
      outcome.output = "p : bool : bool\np : bool\n  nnf: not p : bool\n" ∧
      outcome.success = false ∧
      runSource options true "<expr>" "p : bool; p" = .ok outcome' ∧
      outcome'.output = outcome.output := by
  intro options
  let declaration : Tree := .binary ⟨.colon, ":", ⟨2, 3⟩⟩
    (.terminal ⟨.identifier, "p", ⟨0, 1⟩⟩) (.terminal ⟨.kwBool, "bool", ⟨4, 8⟩⟩)
  have hparse : parseProgram "p : bool; x; p" = .ok
      [declaration, .terminal ⟨.identifier, "x", ⟨10, 11⟩⟩,
        .terminal ⟨.identifier, "p", ⟨13, 14⟩⟩] := eq_ok_of_toOption (by decide +kernel)
  have hparse' : parseProgram "p : bool; p" = .ok
      [declaration, .terminal ⟨.identifier, "p", ⟨10, 11⟩⟩] := eq_ok_of_toOption (by decide +kernel)
  obtain ⟨error, hrefused⟩ : ∃ error, parseProgram ")" = .error error := by
    have hnone : (parseProgram ")").toOption = none := by decide +kernel
    cases h : parseProgram ")" with
    | error error => exact ⟨error, rfl⟩
    | ok trees =>
      rw [h] at hnone
      cases hnone
  obtain ⟨refused, hrunRefused, -, hempty⟩ :=
    (runSource_prints options true "<expr>" ")").1 error hrefused
  obtain ⟨reports, s, outcome, texts, htrees, hprogram, hrun, -, -, -, hremaining⟩ :=
    (runSource_prints options true "<expr>" "p : bool; x; p").2 _ hparse
  -- what became of the three statements
  have helaborated := hprogram.run
  rw [htrees] at helaborated
  have houtcomes : reports.map Report.outcome =
      [.ok ⟨⟨7⟩, .bool⟩, .error (.unboundName "x"), .ok ⟨⟨8⟩, .bool⟩] :=
    outcomes_eq_of_run helaborated (by decide +kernel)
  obtain ⟨first, rest, rfl, -, hrest⟩ := List.map_eq_cons_iff.1 houtcomes
  obtain ⟨second, rest, rfl, hsecond, hrest⟩ := List.map_eq_cons_iff.1 hrest
  obtain ⟨third, rest, rfl, -, hrest⟩ := List.map_eq_cons_iff.1 hrest
  obtain rfl := List.map_eq_nil_iff.1 hrest
  have hprune : Prunes [first, second, third] [first, third] :=
    .keep (.remove hsecond (.keep .nil))
  have hsame : [declaration, .terminal ⟨.identifier, "p", ⟨10, 11⟩⟩].map (Tree.map Token.unplaced) =
      ([first, third].map Report.tree).map (Tree.map Token.unplaced) := by
    obtain ⟨hfirst, hothers⟩ := List.cons.inj htrees
    obtain ⟨hthird, -⟩ := List.cons.inj (List.cons.inj hothers).2
    simp only [List.map_cons, List.map_nil, hfirst, hthird]
    rfl
  obtain ⟨outcome', hrun', houtput'⟩ := hremaining _ hprune "<expr>" _ _ hparse' hsame
  have hprinted : (runSource options true "<expr>" "p : bool; x; p").toOption.map
      (fun outcome => (outcome.output, outcome.success)) =
      some ("p : bool : bool\np : bool\n  nnf: not p : bool\n", false) := by decide +kernel
  rw [hrun] at hprinted
  obtain ⟨houtput, hfails⟩ := Prod.mk.inj (Option.some.inj hprinted)
  exact ⟨refused, outcome, outcome', hrunRefused, hempty, hrun, houtput, hfails, hrun', houtput'⟩

end CommandLine

end ArithLogic
