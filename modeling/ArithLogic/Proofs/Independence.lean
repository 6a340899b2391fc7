import ArithLogic.Proofs.Elaboration.Abreast
import ArithLogic.Proofs.Elaboration.Atomicity
import ArithLogic.Proofs.NormalForm.Abreast

/-!
# ArithLogic.Proofs.Independence

A statement that fails has no influence on the others.  It leaves names, nodes
and declarations behind, but no binding, so the program without it runs in a
context that is embedded in that of the program with it.  What is elaborated
in the one is elaborated in the other, only that the handles have other
places; this goes for any of the statements that fail, all at once
(`elaborateProgram_prune`).
-/

namespace ArithLogic

/-! ## reports -/

/-- What becomes of a statement: its outcome, and what is recorded until it is
reached. -/
structure Report where
  tree : Tree
  outcome : Except ElabError Elaboration
  events : Array Event

namespace Report

/-- The diagnostics that the statement reports. -/
def diagnostics (report : Report) : List Diagnostic := diagnosticsOf report.events.toList

/-- The same report, with the expression under its new handle. -/
def renumber (ρ : Renumbering) (report : Report) : Report :=
  { report with outcome := report.outcome.map (Elaboration.renumber ρ) }

end Report

/-- Statements are elaborated one after the other, with these reports. -/
inductive Runs : Session → List Report → Session → Prop
  | nil {s : Session} : Runs s [] s
  | cons {s s₁ s' : Session} {report : Report} {reports : List Report} :
      elaborateStatement report.tree s = .ok (report.outcome, s₁) →
      s₁.events = s.events ++ report.events → Runs s₁ reports s' → Runs s (report :: reports) s'

/-- Any of the statements that fail are removed. -/
inductive Prunes : List Report → List Report → Prop
  | nil : Prunes [] []
  | keep {report : Report} {reports remaining : List Report} :
      Prunes reports remaining → Prunes (report :: reports) (report :: remaining)
  | remove {report : Report} {reports remaining : List Report} {error : ElabError} :
      report.outcome = .error error → Prunes reports remaining → Prunes (report :: reports) remaining

/-- A program is elaborated, with these reports of its statements, and with the
diagnostics that they report. -/
structure RunsProgram (s : Session) (reports : List Report) (s' : Session) : Prop where
  run : elaborateProgram (reports.map Report.tree) s = .ok (reports.map Report.outcome, s')
  runs : ∃ last, Runs s reports last ∧ s'.context = last.context
  diagnostics : s'.diagnostics = s.diagnostics ++ reports.flatMap Report.diagnostics

/-- The expression is the same in both contexts but for the places of nodes and
declarations, so its text is, and it is brought into normal form alike: what
comes out is the same but for the places, and the one context is still
embedded in the other. -/
structure Alike (ρ : Renumbering) (s big : Session) (e : NodeRef) : Prop where
  term : ∃ t, s.context.term? e = some t ∧ big.context.term? (ρ.node e) = some (t.renumber ρ)
  text : ∀ width, big.context.render (ρ.node e) width = s.context.render e width ∧
    big.context.renderColored (ρ.node e) width = s.context.renderColored e width
  normalForm : ∀ negated, ∃ e' s' big', Action.normalize e negated s = .ok (e', s') ∧
    Action.normalize (ρ.node e) negated big = .ok (ρ.node e', big') ∧
    s'.context.Embeds ρ big'.context ∧
    (∃ t, s'.context.term? e' = some t ∧ big'.context.term? (ρ.node e') = some (t.renumber ρ)) ∧
    ∀ width, big'.context.render (ρ.node e') width = s'.context.render e' width ∧
      big'.context.renderColored (ρ.node e') width = s'.context.renderColored e' width

/-! ## runs -/

variable {s s' big bigLast : Session} {reports remaining : List Report} {ρ : Renumbering}

/-- The outcomes of a program whose run is known. -/
theorem outcomes_eq_of_run {trees : List Tree} {outcomes known : List (Except ElabError Elaboration)}
    (h : elaborateProgram trees s = .ok (outcomes, s'))
    (hknown : (elaborateProgram trees s).toOption.map Prod.fst = some known) : outcomes = known := by
  rw [h] at hknown
  exact Option.some.inj hknown

/-- Every list of statements has a run. -/
theorem exists_runs (trees : List Tree) (hw : s.context.WellFormed) :
    ∃ reports last, reports.map Report.tree = trees ∧ Runs s reports last := by
  induction trees generalizing s with
  | nil => exact ⟨[], s, rfl, .nil⟩
  | cons tree trees ih =>
    -- beside itself, a session is abreast
    obtain ⟨outcome, s₁, _, hrun, -, habreast⟩ :=
      (Abreast.start (.refl s.context)).statement hw hw tree
    obtain ⟨events, hevents, -⟩ := habreast.events
    obtain ⟨reports, last, htrees, hruns⟩ := ih (kept_of_run_elaborateStatement hw hrun).wellFormed
    exact ⟨⟨tree, outcome, events⟩ :: reports, last, congrArg (tree :: ·) htrees,
      .cons hrun hevents hruns⟩

namespace Runs

theorem mapM (h : Runs s reports s') :
    ((reports.map Report.tree).mapM elaborateStatement : Action _) s =
      .ok (reports.map Report.outcome, s') := by
  induction h with
  | nil => rfl
  | cons hrun _ _ ih =>
    simp only [List.map_cons, List.mapM_cons, Action.run_bind, hrun, ih, Action.run_pure]

/-- The diagnostics of a run are those of its statements. -/
theorem diagnostics (h : Runs s reports s') :
    s'.diagnostics = s.diagnostics ++ reports.flatMap Report.diagnostics := by
  induction h with
  | nil => simp
  | cons _ hevents _ ih =>
    rw [ih, Session.diagnostics, hevents, Array.toList_append, diagnosticsOf_append,
      List.append_assoc]
    rfl

/-- The run of the statements is that of the program, but for the record of its
end. -/
theorem program (h : Runs s reports s') :
    ∃ last, RunsProgram s reports last ∧ last.context = s'.context := by
  let ended : Event := .programElaborated (reports.map Report.outcome).length
    ((reports.map Report.outcome).countP fun outcome => !outcome.toBool)
  refine ⟨s'.moveTo s'.context ended, ⟨?_, ⟨s', h, rfl⟩, ?_⟩, rfl⟩
  · simp only [elaborateProgram, Action.run_bind, h.mapM, Action.run_record, Action.run_pure]
    rfl
  · rw [Session.diagnostics_moveTo rfl, h.diagnostics]

/-- A run keeps the context well formed and what it holds, and what comes out is
held by the last one. -/
theorem kept (h : Runs s reports s') (hw : s.context.WellFormed) :
    s'.context.WellFormed ∧ s.context.Within s'.context ∧
      ∀ report ∈ reports, ∀ e, report.outcome = .ok e → e.expr.index < s'.context.size := by
  induction h with
  | nil => exact ⟨hw, .refl _, by simp⟩
  | cons hrun _ _ ih =>
    have hkept := kept_of_run_elaborateStatement hw hrun
    obtain ⟨hlast, hwithin, hrange⟩ := ih hkept.wellFormed
    refine ⟨hlast, hkept.within.trans hwithin, List.forall_mem_cons.2 ⟨fun e he => ?_, hrange⟩⟩
    exact hwithin.index_lt (hkept.inRange e he)

end Runs

/-- A report is renumbered alike where its expression has its place. -/
theorem Report.renumber_congr {ρ' : Renumbering} {report : Report}
    (h : ∀ e, report.outcome = .ok e → ρ'.node e.expr = ρ.node e.expr) :
    report.renumber ρ' = report.renumber ρ := by
  obtain ⟨tree, outcome, events⟩ := report
  cases outcome with
  | error error => rfl
  | ok e => simp only [renumber, Except.map, Elaboration.renumber, h e rfl]

/-- Without some statements that fail, a run has the same reports, but for the
handles, and leads to a context that is embedded. -/
theorem Runs.prune (h : Runs big reports bigLast) (hprune : Prunes reports remaining)
    (hcx : s.context.Embeds ρ big.context) (hw : s.context.WellFormed)
    (hbig : big.context.WellFormed) : ∃ ρ' small last, Runs s small last ∧
      remaining = small.map (Report.renumber ρ') ∧ last.context.Embeds ρ' bigLast.context ∧
      Renumbering.Agree s.context ρ ρ' := by
  induction hprune generalizing s big ρ with
  | nil =>
    cases h
    exact ⟨ρ, [], s, .nil, rfl, hcx, .refl _ ρ⟩
  | @keep report _ _ _ ih =>
    cases h with
    | @cons _ big₁ _ _ _ hrun hevents hruns =>
      obtain ⟨outcome, s₁, found, hsmall, hfound, habreast⟩ :=
        (Abreast.start hcx).statement hw hbig report.tree
      obtain ⟨houtcome, rfl⟩ := Prod.mk.inj (Except.ok.inj (hrun.symm.trans hfound))
      obtain ⟨new, hnew, hbigNew⟩ := habreast.events
      obtain rfl : report.events = new := (Array.append_right_inj _).1 (hevents.symm.trans hbigNew)
      have hkept := kept_of_run_elaborateStatement hw hsmall
      have hbigKept := kept_of_run_elaborateStatement hbig hrun
      obtain ⟨ρ', small, last, hsmallRuns, hreports, hlast, hagree⟩ :=
        ih hruns habreast.context hkept.wellFormed hbigKept.wellFormed
      refine ⟨ρ', ⟨report.tree, outcome, report.events⟩ :: small, last, .cons hsmall hnew hsmallRuns, ?_,
        hlast, (Renumbering.Agree.refl _ ρ).trans hagree hkept.within⟩
      have hreport : report =
          Report.renumber ρ' ⟨report.tree, outcome, report.events⟩ := by
        rw [Report.renumber_congr fun e he => hagree.node (hkept.inRange e he),
          Report.renumber, ← houtcome]
      rw [List.map_cons, ← hreports, ← hreport]
  | @remove report _ _ error herror _ ih =>
    cases h with
    | cons hrun _ hruns =>
      obtain ⟨big₀, hcourse, hsame⟩ := course_of_run_elaborateStatement hbig hrun
      have hkept := kept_of_run_elaborateStatement hbig hrun
      -- a failure leaves the scopes as they were
      have hscopes := hcourse.scopes_of_error hbig herror
      rw [← hsame] at hscopes
      obtain ⟨ρ₁, hcx₁, hagree₁⟩ := hcx.realign hw hkept.within hscopes
      obtain ⟨ρ', small, last, hsmallRuns, hreports, hlast, hagree⟩ :=
        ih hruns hcx₁ hw hkept.wellFormed
      exact ⟨ρ', small, last, hsmallRuns, hreports, hlast, hagree₁.trans hagree (.refl _)⟩

/-! ## the whole -/

/-- Expressions of an embedded context are alike. -/
theorem Context.Embeds.alike (h : s.context.Embeds ρ big.context) (hw : s.context.WellFormed)
    (hbig : big.context.WellFormed) {e : NodeRef} (he : e.index < s.context.size) :
    Alike ρ s big e where
  term := by
    obtain ⟨t, ht⟩ := hw.exists_term he
    exact ⟨t, ht, by rw [h.term?_eq hw hbig, ht, Option.map_some]⟩
  text := h.render_eq hw hbig e
  normalForm negated := by
    obtain ⟨e', s', big', hrun, hbigRun, hcx⟩ := h.normalize hw hbig he negated
    obtain ⟨hgrows, he'⟩ := (Context.normalizes_of_run hw he hrun).grows hw
    have hbigGrows := ((Context.normalizes_of_run hbig (h.index_lt he) hbigRun).grows hbig).1
    obtain ⟨t, ht⟩ := hgrows.wellFormed.exists_term he'
    refine ⟨e', s', big', hrun, hbigRun, hcx, ⟨t, ht, ?_⟩,
      hcx.render_eq hgrows.wellFormed hbigGrows.wellFormed e'⟩
    rw [hcx.term?_eq hgrows.wellFormed hbigGrows.wellFormed, ht, Option.map_some]

/-- Statements that fail do not influence the others.  Elaborated from any
context that can be reached, a program has a report of every statement.
Without any of the statements that fail, the program has the outcomes that are
reported of the others, with the same errors and types, and the same
expressions under handles that correspond; the diagnostics are those that the
others report.  The context is embedded in that of the whole program, with
what was there before in its place, and what was elaborated is alike in
both. -/
theorem elaborateProgram_prune (h : s.context.Reachable) (trees : List Tree) :
    ∃ reports whole, reports.map Report.tree = trees ∧ RunsProgram s reports whole ∧
      ∀ remaining, Prunes reports remaining → ∃ ρ outcomes last,
        elaborateProgram (remaining.map Report.tree) s = .ok (outcomes, last) ∧
        remaining.map Report.outcome = outcomes.map (Except.map (Elaboration.renumber ρ)) ∧
        last.diagnostics = s.diagnostics ++ remaining.flatMap Report.diagnostics ∧
        last.context.Embeds ρ whole.context ∧ Renumbering.Agree s.context .refl ρ ∧
        ∀ e, .ok e ∈ outcomes → Alike ρ last whole e.expr := by
  have hw := h.wellFormed
  obtain ⟨reports, wholeEnd, htrees, hruns⟩ := exists_runs trees hw
  obtain ⟨whole, hwhole, hwholeContext⟩ := hruns.program
  refine ⟨reports, whole, htrees, hwhole, fun remaining hprune => ?_⟩
  obtain ⟨ρ, small, smallEnd, hsmall, rfl, hembeds, hagree⟩ :=
    hruns.prune hprune (.refl s.context) hw hw
  obtain ⟨last, hlast, hlastContext⟩ := hsmall.program
  obtain ⟨hw', -, hrange⟩ := hsmall.kept hw
  obtain ⟨hbig', -, -⟩ := hruns.kept hw
  rw [← hwholeContext] at hembeds hbig'
  rw [← hlastContext] at hembeds hw' hrange
  refine ⟨ρ, small.map Report.outcome, last, ?_, ?_, ?_, hembeds, hagree, fun e he => ?_⟩
  · rw [List.map_map]
    exact hlast.run
  · rw [List.map_map, List.map_map]
    rfl
  · rw [List.flatMap_map]
    exact hlast.diagnostics
  · obtain ⟨report, hmem, houtcome⟩ := List.mem_map.1 he
    exact hembeds.alike hw' hbig' (hrange report hmem e houtcome)

/-- `exists x : int . y` fails after it has appended three nodes, so `not true`
is found three places further on than without it. -/
theorem elaborateProgram_prune_unbound :
    let failing : Tree := .binary ⟨.kwExists, "exists", .origin⟩
      (.binary ⟨.colon, ":", .origin⟩ (.terminal ⟨.identifier, "x", .origin⟩)
        (.terminal ⟨.kwInt, "int", .origin⟩)) (.terminal ⟨.identifier, "y", .origin⟩)
    let other : Tree := .unary ⟨.kwNot, "not", .origin⟩ (.terminal ⟨.kwTrue, "true", .origin⟩)
    Context.initial.Reachable ∧ ∃ ρ last whole,
      elaborateProgram [failing, other] ⟨.initial, #[]⟩ =
        .ok ([.error (.unboundName "y"), .ok ⟨⟨9⟩, .bool⟩], whole) ∧
      elaborateProgram [other] ⟨.initial, #[]⟩ = .ok ([.ok ⟨⟨6⟩, .bool⟩], last) ∧
      ρ.node ⟨6⟩ = ⟨9⟩ ∧ Alike ρ last whole ⟨6⟩ := by
  intro failing other
  obtain ⟨reports, whole, htrees, hwhole, hprune⟩ :=
    elaborateProgram_prune (s := ⟨.initial, #[]⟩) .initial [failing, other]
  have hrun := hwhole.run
  rw [htrees] at hrun
  have hreported : reports.map Report.outcome = [.error (.unboundName "y"), .ok ⟨⟨9⟩, .bool⟩] :=
    outcomes_eq_of_run hrun rfl
  rw [hreported] at hrun
  obtain ⟨first, rest, rfl, hfirst, hrest⟩ := List.map_eq_cons_iff.1 hreported
  obtain ⟨second, rest, rfl, hsecond, hrest⟩ := List.map_eq_cons_iff.1 hrest
  obtain rfl := List.map_eq_nil_iff.1 hrest
  have htree : [second].map Report.tree = [other] := (List.cons.inj htrees).2
  obtain ⟨ρ, outcomes, last, hlast, houtcomes, -, -, -, halike⟩ :=
    hprune [second] (.remove hfirst (.keep .nil))
  rw [htree] at hlast
  obtain rfl : outcomes = [.ok ⟨⟨6⟩, .bool⟩] := outcomes_eq_of_run hlast rfl
  rw [List.map_singleton, hsecond] at houtcomes
  have hplace : ⟨⟨9⟩, .bool⟩ = Elaboration.renumber ρ ⟨⟨6⟩, .bool⟩ :=
    Except.ok.inj (List.cons.inj houtcomes).1
  exact ⟨.initial, ρ, last, whole, hrun, hlast, (congrArg Elaboration.expr hplace).symm,
    halike _ List.mem_cons_self⟩

end ArithLogic
