import ArithLogic.Proofs.Bracketing
import ArithLogic.Proofs.Elaboration.Reporting

/-!
# ArithLogic.Proofs.Elaboration.Records

What elaboration records.  A scope that is entered is left again, whether its
body succeeds or fails, so the records of scopes are brackets, and besides them
only faults are reported (`Elaborates.closesScopes`).  What a statement comes to
is recorded behind all of this, so the records of a program are one block for
each statement, and a summary (`elaborateProgram_logs`).
-/

namespace ArithLogic

/-! ## scopes -/

/-- The records of scopes: it is recorded how many there are within the pair when
one is entered, and around it when it is left.  Besides, faults are reported. -/
def scopeRecords : Brackets Event where
  opening depth := .scopeEntered (depth + 1)
  closing depth := .scopeLeft depth
  Other event := ∃ fault : Fault, event = .reported fault.diagnostic

/-- From one session to the other, every scope that is entered is left. -/
structure Session.ClosesScopes (s s' : Session) : Prop where
  depth : s'.context.depth = s.context.depth
  records : ∃ events, s'.events.toList = s.events.toList ++ events ∧
    scopeRecords.Balanced s.context.depth events

/-- There is one scope less when one was left. -/
theorem Context.depth_of_leaveScope {cx outer : Context} (h : cx.leaveScope = .ok outer) :
    cx.depth = outer.depth + 1 := by
  obtain ⟨env, next, around, hcons, rfl⟩ := leaveScope_eq_ok_iff.1 h
  simp [depth, ScopeStack.depth, hcons]

namespace Session.ClosesScopes

variable {s s₁ s₂ s' : Session}

/-- Names, nodes and declarations leave no record. -/
theorem nothing (hdepth : s'.context.depth = s.context.depth) (hevents : s'.events = s.events) :
    s.ClosesScopes s' :=
  ⟨hdepth, [], by simp [hevents], .nil⟩

theorem trans (h : s.ClosesScopes s₁) (h' : s₁.ClosesScopes s') : s.ClosesScopes s' := by
  obtain ⟨hdepth, events, hevents, hbalanced⟩ := h
  obtain ⟨hdepth', events', hevents', hbalanced'⟩ := h'
  rw [hdepth] at hbalanced'
  exact ⟨hdepth'.trans hdepth, events ++ events',
    by rw [hevents', hevents, List.append_assoc], hbalanced.append hbalanced'⟩

theorem report (s : Session) (fault : Fault) : s.ClosesScopes (s.report fault) :=
  ⟨rfl, _, Array.toList_push, .one ⟨fault, rfl⟩⟩

theorem foldl_report (s : Session) (faults : List Fault) :
    s.ClosesScopes (faults.foldl Session.report s) := by
  induction faults generalizing s with
  | nil => exact .nothing rfl rfl
  | cons fault faults ih => exact (report s fault).trans (ih _)

/-- A verdict is acted upon in the scope where it is reached. -/
theorem conclude (h : s.ClosesScopes s₁) (verdict : Verdict) :
    s.ClosesScopes (s₁.conclude verdict).2 := by
  cases verdict with
  | build => exact h.trans (.nothing rfl rfl)
  | refuse first others => exact h.trans (foldl_report s₁ (first :: others))

/-- The body of a quantifier is between the records of its scope. -/
theorem inScope {id : NodeRef} {ty : Ty} {d : DeclRef} {inner outer : Context}
    (h : s.ClosesScopes s₁)
    (hdeclare : s₁.context.enterScope.declareId id ty none = .ok (d, inner))
    (hbody : (s₁.moveTo inner (.scopeEntered (s₁.context.depth + 1))).ClosesScopes s₂)
    (hleave : s₂.context.leaveScope = .ok outer) :
    s.ClosesScopes (s₂.moveTo outer (.scopeLeft outer.depth)) := by
  refine h.trans ?_
  obtain ⟨hdepth, events, hevents, hbalanced⟩ := hbody
  have hinner : inner.depth = s₁.context.depth + 1 := Context.depth_of_declareId hdeclare
  rw [Session.context_moveTo, hinner] at hdepth hbalanced
  have houter : outer.depth = s₁.context.depth := by
    have hleft := Context.depth_of_leaveScope hleave
    omega
  refine ⟨houter, _, ?_, hbalanced.enclosed⟩
  simp [Session.moveTo, hevents, houter, scopeRecords]

end Session.ClosesScopes

/-! ## courses -/

section Courses

variable {tree : Tree} {s : Session} {out : Conclusion}

/-- Whatever becomes of an expression, the scopes of its quantifiers are left. -/
theorem Elaborates.closesScopes (h : Elaborates tree s out) : s.ClosesScopes out.2 := by
  induction h with
  | enclosed _ ih | operandFailed _ _ ih | leftFailed _ _ ih | typeFailed _ _ _ ih
  | bindingFailed _ _ _ ih => exact ih
  | named | unbound | constant | noPrefix | noInfix | definition | noName | noBinding =>
    exact .conclude (.nothing rfl rfl) _
  | prefixed _ _ ih | noType _ _ _ _ ih => exact ih.conclude _
  | rightFailed _ _ _ ihl ihr => exact ihl.trans ihr
  | infixed _ _ _ ihl ihr => exact (ihl.trans ihr).conclude _
  | bound _ _ _ _ ih => exact ih.trans (.nothing rfl rfl)
  | bodyFailed _ _ _ _ hdeclare _ hleave ihb ih => exact ihb.inScope hdeclare ih hleave
  | bodyRefused _ _ _ _ hdeclare _ hleave _ ihb ih =>
    -- what is wrong with the body is reported before its scope is left
    exact ihb.inScope hdeclare (ih.trans (.report _ _)) hleave
  | quantified _ _ _ _ hdeclare _ hleave _ ihb ih =>
    exact (ihb.inScope hdeclare ih hleave).conclude _

/-- So are they before the outcome of a statement is there. -/
theorem ElaboratesForm.closesScopes (h : ElaboratesForm tree s out) : s.ClosesScopes out.2 := by
  cases h with
  | expression _ _ hcourse | bindingFailed _ _ _ hcourse | valueFailed _ _ _ hcourse =>
    exact hcourse.closesScopes
  | noName | redeclared => exact .conclude (.nothing rfl rfl) _
  | declared _ _ _ hcourse _ hdeclare =>
    exact hcourse.closesScopes.trans (.nothing (Context.depth_of_declareId hdeclare) rfl)
  | noInitial _ _ _ hcourse => exact hcourse.closesScopes.conclude _
  | defined _ _ _ hcourse _ hdeclare =>
    have hdepth := Context.depth_of_declareId hdeclare
    exact hcourse.closesScopes.trans (.nothing hdepth rfl)

end Courses

/-! ## blocks -/

/-- Whether the event says what became of a statement. -/
def Event.isOutcome : Event → Bool
  | statementElaborated .. | statementFailed .. => true
  | _ => false

namespace Report

/-- Whether the statement fails. -/
def failed (report : Report) : Bool := !report.outcome.toBool

/-- What is recorded of the statement is a block: the scopes that are entered and
left and the faults that are reported meanwhile, and then, at the depth of the
beginning, what became of the statement. -/
def IsBlock (report : Report) (cx : Context) (depth : Nat) : Prop :=
  ∃ inside event, report.events.toList = inside ++ [event] ∧
    scopeRecords.Balanced depth inside ∧ (∀ a ∈ inside, a.isOutcome = false) ∧
    cx.outcomeEvent? report.tree.span report.outcome = some event

end Report

section Blocks

variable {cx later : Context} {s s' : Session} {report : Report} {reports : List Report}
  {depth : Nat}

/-- No outcome is recorded while a statement is elaborated. -/
theorem isOutcome_eq_false_of_balanced {events : List Event}
    (h : scopeRecords.Balanced depth events) : ∀ a ∈ events, a.isOutcome = false := by
  intro a ha
  obtain ⟨here, ⟨fault, rfl⟩ | rfl | ⟨outer, -, rfl⟩⟩ := h.leads.fits_of_mem ha <;> rfl

/-- What is recorded of an outcome stays true. -/
theorem Context.Within.outcomeEvent?_eq {span : Span} {outcome : Except ElabError Elaboration}
    {event : Event} (h : cx.Within later) (hevent : cx.outcomeEvent? span outcome = some event) :
    later.outcomeEvent? span outcome = some event := by
  cases outcome with
  | error error => exact hevent
  | ok e =>
    obtain ⟨node, hnode, rfl⟩ := Option.map_eq_some_iff.1 hevent
    simp only [Context.outcomeEvent?, h.node hnode, Option.map_some]

theorem Report.IsBlock.mono (h : report.IsBlock cx depth) (hwithin : cx.Within later) :
    report.IsBlock later depth := by
  obtain ⟨inside, event, hevents, hbalanced, hinside, hevent⟩ := h
  exact ⟨inside, event, hevents, hbalanced, hinside, hwithin.outcomeEvent?_eq hevent⟩

/-- A statement is recorded in one block. -/
theorem isBlock_of_run_elaborateStatement (hw : s.context.WellFormed)
    (hrun : elaborateStatement report.tree s = .ok (report.outcome, s'))
    (hevents : s'.events = s.events ++ report.events) :
    report.IsBlock s'.context s.context.depth := by
  obtain ⟨⟨outcome, s₁⟩, hcourse, -⟩ := exists_course_form report.tree hw
  obtain ⟨event, hevent⟩ := hcourse.exists_event hw
  obtain ⟨houtcome, rfl⟩ :=
    Prod.mk.inj (Except.ok.inj (hrun.symm.trans (hcourse.run_statement hw hevent)))
  obtain ⟨inside, hinside, hbalanced⟩ := hcourse.closesScopes.records
  rw [← houtcome] at hevent
  refine ⟨inside, event, ?_, hbalanced, isOutcome_eq_false_of_balanced hbalanced, hevent⟩
  have hlists := congrArg Array.toList hevents
  rw [Array.toList_push, Array.toList_append, hinside, List.append_assoc] at hlists
  exact (List.append_cancel_left hlists).symm

namespace Runs

/-- Every statement of a run is recorded in one block, and all of them begin and end
at the same depth. -/
theorem isBlock (h : Runs s reports s') (hw : s.context.WellFormed) :
    ∀ report ∈ reports, report.IsBlock s'.context s.context.depth := by
  induction h with
  | nil => exact List.forall_mem_nil _
  | cons hrun hevents hruns ih =>
    have hkept := kept_of_run_elaborateStatement hw hrun
    have hwithin := (hruns.kept hkept.wellFormed).2.1
    have hothers := ih hkept.wellFormed
    rw [hkept.depth] at hothers
    rw [List.forall_mem_cons]
    exact ⟨(isBlock_of_run_elaborateStatement hw hrun hevents).mono hwithin, hothers⟩

theorem depth_eq (h : Runs s reports s') (hw : s.context.WellFormed) :
    s'.context.depth = s.context.depth := by
  induction h with
  | nil => rfl
  | cons hrun _ _ ih =>
    have hkept := kept_of_run_elaborateStatement hw hrun
    exact (ih hkept.wellFormed).trans hkept.depth

/-- What is recorded in a run are the blocks of its statements. -/
theorem events (h : Runs s reports s') :
    s'.events.toList = s.events.toList ++ reports.flatMap (·.events.toList) := by
  induction h with
  | nil => simp
  | cons _ hevents _ ih =>
    rw [ih, hevents, Array.toList_append, List.append_assoc, List.flatMap_cons]

end Runs

/-- A program is recorded in the blocks of its statements and a summary. -/
theorem RunsProgram.events (h : RunsProgram s reports s') :
    s'.events.toList = s.events.toList ++ (reports.flatMap (·.events.toList) ++
      [.programElaborated reports.length (reports.countP Report.failed)]) := by
  obtain ⟨last, hruns, -⟩ := h.runs
  have hrun := h.run
  simp only [elaborateProgram, Action.run_bind, hruns.mapM, Action.run_record,
    Action.run_pure] at hrun
  obtain ⟨-, rfl⟩ := Prod.mk.inj (Except.ok.inj hrun)
  rw [Array.toList_push, hruns.events, List.append_assoc, List.length_map, List.countP_map]
  rfl

end Blocks

/-! ## logs -/

/-- The event is a fault that is reported, or of interest for debugging only. -/
def Event.IsRoutine (event : Event) : Prop :=
  (∃ fault : Fault, event = .reported fault.diagnostic) ∨
    event.level = .debug ∧ event.diagnostic? = none

section Logs

variable {cx : Context} {report : Report} {event : Event} {events : List Event} {least : LogLevel}

/-- Faults are logged at the gravest level. -/
theorem isLogged_reported (fault : Fault) :
    (Event.reported fault.diagnostic).isLogged (some least) = true :=
  decide_eq_true (p := 0 ≤ least.rank) (Nat.zero_le _)

/-- All of it is logged where debugging is. -/
theorem Event.IsRoutine.isLogged (h : event.IsRoutine) (hleast : LogLevel.debug.rank ≤ least.rank) :
    event.isLogged (some least) = true := by
  obtain ⟨fault, rfl⟩ | ⟨hlevel, -⟩ := h
  · exact isLogged_reported fault
  · rw [Event.isLogged, hlevel]
    exact decide_eq_true hleast

/-- A log for debugging holds all that is recorded. -/
theorem logRecords_of_le (h : ∀ event ∈ events, event.IsRoutine)
    (hleast : LogLevel.debug.rank ≤ least.rank) :
    logRecords (some least) events = events.map Event.record := by
  rw [logRecords, List.filter_eq_self.2 fun event hevent => (h event hevent).isLogged hleast]

/-- A log that is limited to what is graver holds the diagnostics, in order. -/
theorem logRecords_of_lt (h : ∀ event ∈ events, event.IsRoutine)
    (hleast : least.rank < LogLevel.debug.rank) : logRecords (some least) events =
      (diagnosticsOf events).map fun d => (Event.reported d).record := by
  induction events with
  | nil => rfl
  | cons event events ih =>
    rw [List.forall_mem_cons] at h
    obtain ⟨⟨fault, rfl⟩ | ⟨hlevel, hsilent⟩, hevents⟩ := h
    · have hothers := congrArg ((Event.reported fault.diagnostic).record :: ·) (ih hevents)
      rw [logRecords, List.filter_cons_of_pos (isLogged_reported fault)]
      exact hothers
    · have hlogged : ¬ event.isLogged (some least) = true := by
        simp only [Event.isLogged, hlevel, decide_eq_true_eq, Nat.not_le]
        exact hleast
      rw [logRecords, List.filter_cons_of_neg hlogged, diagnosticsOf,
        List.filterMap_cons_none hsilent]
      exact ih hevents

theorem Report.IsBlock.isRoutine {depth : Nat} (h : report.IsBlock cx depth) :
    ∀ event ∈ report.events.toList, event.IsRoutine := by
  obtain ⟨inside, last, hevents, hbalanced, -, hlast⟩ := h
  rw [hevents, List.forall_mem_append, List.forall_mem_singleton]
  constructor
  · intro event hevent
    obtain ⟨here, hfault | rfl | ⟨outer, -, rfl⟩⟩ := hbalanced.leads.fits_of_mem hevent
    · exact .inl hfault
    · exact .inr ⟨rfl, rfl⟩
    · exact .inr ⟨rfl, rfl⟩
  · cases houtcome : report.outcome with
    | error error =>
      rw [houtcome] at hlast
      cases hlast
      exact .inr ⟨rfl, rfl⟩
    | ok e =>
      rw [houtcome] at hlast
      obtain ⟨node, -, rfl⟩ := Option.map_eq_some_iff.1 hlast
      exact .inr ⟨rfl, rfl⟩

end Logs

/-! ## the whole -/

/-- The log of an elaboration is well bracketed.  Elaborated in a context that is
reached, a program records one block for each statement, in order, and a summary
with the number of the statements and of those that fail.

* In a block the records of scopes are brackets: each scope that is entered is one
  deeper than what was reached before, and is left to the depth around it.  A block
  begins and ends at the depth of the context, which is 1 at its top; the one record
  of what became of the statement is the last in it, behind all scopes.
* All of this is logged where debugging is.  The errors that are logged are the
  diagnostics of the statements, in order. -/
theorem elaborateProgram_logs {s : Session} (h : s.context.Reachable) (trees : List Tree) :
    ∃ reports s' events, reports.map Report.tree = trees ∧ RunsProgram s reports s' ∧
      s'.context.depth = s.context.depth ∧ s'.events.toList = s.events.toList ++ events ∧
      events = reports.flatMap (·.events.toList) ++
        [.programElaborated trees.length (reports.countP Report.failed)] ∧
      (∀ report ∈ reports, report.IsBlock s'.context s.context.depth) ∧
      logRecords (some .debug) events = events.map Event.record ∧
      logRecords (some .error) events =
        (reports.flatMap Report.diagnostics).map fun d => (Event.reported d).record := by
  have hw := h.wellFormed
  obtain ⟨reports, last, rfl, hruns⟩ := exists_runs trees hw
  obtain ⟨s', hprogram, hsame⟩ := hruns.program
  have hblocks := hruns.isBlock hw
  have hdepth := hruns.depth_eq hw
  have hevents := hprogram.events
  rw [← hsame] at hblocks hdepth
  generalize hrecorded : reports.flatMap (·.events.toList) ++
    [.programElaborated reports.length (reports.countP Report.failed)] = events at hevents
  have hroutine : ∀ event ∈ events, event.IsRoutine := by
    rw [← hrecorded, List.forall_mem_append, List.forall_mem_singleton]
    refine ⟨fun event hevent => ?_, .inr ⟨rfl, rfl⟩⟩
    obtain ⟨report, hreport, hmem⟩ := List.mem_flatMap.1 hevent
    exact (hblocks report hreport).isRoutine event hmem
  have hdiagnostics : diagnosticsOf events = reports.flatMap Report.diagnostics := by
    have hall := hprogram.diagnostics
    rw [Session.diagnostics, hevents, diagnosticsOf_append] at hall
    exact List.append_cancel_left hall
  rw [List.length_map]
  refine ⟨reports, s', events, rfl, hprogram, hdepth, hevents, hrecorded.symm, hblocks,
    logRecords_of_le hroutine (Nat.le_refl _), ?_⟩
  rw [logRecords_of_lt hroutine (by decide), hdiagnostics]

/-- `exists x : int . forall y : int . z` reports `z` within two scopes, and fails when
both are left. -/
theorem elaborateProgram_logs_nested :
    let inner : Tree := .binary ⟨.kwForall, "forall", .origin⟩
      (.binary ⟨.colon, ":", .origin⟩ (.terminal ⟨.identifier, "y", .origin⟩)
        (.terminal ⟨.kwInt, "int", .origin⟩)) (.terminal ⟨.identifier, "z", .origin⟩)
    let failing : Tree := .binary ⟨.kwExists, "exists", .origin⟩
      (.binary ⟨.colon, ":", .origin⟩ (.terminal ⟨.identifier, "x", .origin⟩)
        (.terminal ⟨.kwInt, "int", .origin⟩)) inner
    let other : Tree := .terminal ⟨.kwTrue, "true", .origin⟩
    let unbound : Diagnostic := ⟨.error, (ElabError.unboundName "z").message, some .origin⟩
    Context.initial.Reachable ∧ ∃ (reports : List Report) (s' : Session),
      reports.map Report.tree = [failing, other] ∧
      (∀ report ∈ reports, report.IsBlock s'.context 1) ∧
      s'.events.toList = [.scopeEntered 2, .scopeEntered 3, .reported unbound, .scopeLeft 2,
        .scopeLeft 1, .statementFailed failing.span (.unboundName "z"),
        .statementElaborated .origin .bool .bool, .programElaborated 2 1] ∧
      logRecords (some .error) s'.events.toList = [(Event.reported unbound).record] := by
  intro inner failing other unbound
  obtain ⟨reports, s', events, htrees, hprogram, -, hevents, -, hblocks, -, herrors⟩ :=
    elaborateProgram_logs (s := ⟨.initial, #[]⟩) .initial [failing, other]
  obtain rfl : s'.events.toList = events := hevents
  have hrecorded : (elaborateProgram [failing, other] ⟨.initial, #[]⟩).toOption.map
    (fun out => out.2.events.toList) = some [.scopeEntered 2, .scopeEntered 3, .reported unbound,
      .scopeLeft 2, .scopeLeft 1, .statementFailed failing.span (.unboundName "z"),
      .statementElaborated .origin .bool .bool, .programElaborated 2 1] := by decide +kernel
  have hrun := hprogram.run
  rw [htrees] at hrun
  rw [hrun] at hrecorded
  have hlog : s'.events.toList = _ := Option.some.inj hrecorded
  have hdiagnostics : diagnosticsOf s'.events.toList = reports.flatMap Report.diagnostics :=
    hprogram.diagnostics
  rw [← hdiagnostics] at herrors
  refine ⟨.initial, reports, s', htrees, hblocks, hlog, ?_⟩
  rw [herrors, hlog]
  rfl

end ArithLogic
