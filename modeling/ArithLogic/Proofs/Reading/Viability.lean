import ArithLogic.Proofs.Reading.Expectations

/-!
# ArithLogic.Proofs.Reading.Viability

Errors are reported where they arise.  Tokens are viable if they are the
beginning of some text that is accepted.  Whatever the parser has read can be
completed: each open construct by the least that it still needs
(`Opened.exists_completion`).  So the parser reads exactly the viable lists of
tokens, and the first token that it refuses is the first one that ends
viability; the list of its error is exact by what the states list
(`SyntaxError.Reports`).
-/

namespace ArithLogic

open Parser

/-! ## viable tokens -/

/-- The tokens are the whole text of an expression. -/
def AreExpression (ts : List Token) : Prop := ∃ tree, Derives .quantified ts tree

/-- The tokens are the whole text of a program. -/
def AreProgram (ts : List Token) : Prop := ∃ trees, DerivesProgram ts trees

/-- The tokens are the beginning of an accepted text. -/
def Viable (Accepted : List Token → Prop) (ts : List Token) : Prop :=
  ∃ us, Accepted (ts ++ us)

/-- The error is the one of the accepted texts at this place: what stands
before is viable, and not so with what follows, be it a token or the end of the
text at byte `stop`.  Its list is exact: a token keeps the text viable if and
only if an item covers it, and the text may end if and only if the end of the
input is listed. -/
structure SyntaxError.Reports (e : SyntaxError) (Accepted : List Token → Prop) (stop : Nat)
    (before rest : List Token) : Prop where
  stage : e.stage = .parsing
  viable : Viable Accepted before
  place : match rest with
    | [] => e.found = .endOfInput ∧ e.span = ⟨stop, stop⟩ ∧ ¬ Accepted before
    | t :: _ => e.found = .token t ∧ e.span = t.span ∧ ¬ Viable Accepted (before ++ [t])
  covers : ∀ t, Viable Accepted (before ++ [t]) ↔ ∃ item ∈ e.expected, item.Covers t.kind
  ends : Accepted before ↔ .endOfInput ∈ e.expected

/-! ## what was read can be completed -/

/-- Open constructs are completed around an operand of the level that is due. -/
theorem Opened.exists_completion {goal : Goal} {frames : List Frame} {due : Level}
    {ts os : List Token} {operand : Tree} (h : Opened goal frames due ts)
    (ho : Derives due os operand) : ∃ us tree, goal.Derives (ts ++ os ++ us) tree := by
  induction h generalizing os operand with
  | nil => exact ⟨[], operand, by simpa using Goal.derives_of_expression ho⟩
  | declared hgoal hname hcolon =>
    subst hgoal
    exact ⟨[], _, by simpa [Goal.Derives] using DerivesStatement.declaration hname hcolon ho⟩
  | defined hgoal hkeyword hname hassign =>
    subst hgoal
    exact ⟨[], _, by simpa [Goal.Derives] using .definition hkeyword hname hassign ho⟩
  | @cons frame frames outer due own ts us _ hframe hadmits ih =>
    -- the construct itself is completed first, and is an operand of those around it
    have of_construct (more : List Token) {vs : List Token} {construct : Tree}
        (hderives : Derives own vs construct) (htokens : us ++ os ++ more = vs) :
        ∃ us' tree, goal.Derives (ts ++ us ++ os ++ us') tree := by
      obtain ⟨rest, tree, hwhole⟩ := ih (hderives.mono hadmits)
      refine ⟨more ++ rest, tree, ?_⟩
      rw [← htokens] at hwhole
      simpa using hwhole
    cases hframe with
    | paren hopening =>
      have hclosing : TokenKind.closeParen.token.kind = .closeParen := rfl
      exact of_construct [_] (.enclosed hopening hclosing ho) rfl
    | boundType hq hname hcolon =>
      have hdot : TokenKind.dot.token.kind = .dot := rfl
      exact of_construct [_, _] (.quantified hq hname hcolon ho hdot (.name _)) rfl
    | sign hop => exact of_construct [] (.sign hop ho) (List.append_nil _)
    | negation hop => exact of_construct [] (.negation hop ho) (List.append_nil _)
    | operation hop hleft => exact of_construct [] (.operation hop hleft ho) (by simp)
    | quantified hq hname hcolon htype hdot =>
      exact of_construct [] (.quantified hq hname hcolon htype hdot ho) (by simp)

namespace Parser

/-- What leads to a state is the beginning of a text. -/
theorem State.Reads.exists_completion {goal : Goal} {s : State} {ts : List Token}
    (h : s.Reads goal ts) : ∃ us tree, goal.Derives (ts ++ us) tree := by
  have hidentifier : TokenKind.identifier.token.kind.isName = true := rfl
  have hcolon : TokenKind.colon.token.kind = .colon := rfl
  have hdot : TokenKind.dot.token.kind = .dot := rfl
  have hassign : TokenKind.assign.token.kind = .assign := rfl
  cases h with
  | operand hopened =>
    obtain ⟨us, tree, hderives⟩ := hopened.exists_completion (.name _)
    exact ⟨_, tree, by simpa using hderives⟩
  | continuation hopened ho => exact hopened.exists_completion (ho.mono (Level.le_primary _))
  | boundName hopened hq =>
    obtain ⟨us, tree, hderives⟩ := hopened.exists_completion
      (.quantified hq hidentifier hcolon (.name _) hdot (.name _))
    exact ⟨_, tree, by simpa using hderives⟩
  | boundColon hopened hq hname =>
    obtain ⟨us, tree, hderives⟩ := hopened.exists_completion
      (.quantified hq hname hcolon (.name _) hdot (.name _))
    exact ⟨_, tree, by simpa using hderives⟩
  | definedName hgoal hkeyword =>
    subst hgoal
    exact ⟨_, _, .definition hkeyword hidentifier hassign (.name _)⟩
  | assign hgoal hkeyword hname =>
    subst hgoal
    exact ⟨_, _, .definition hkeyword hname hassign (.name _)⟩

/-! ## reading step by step -/

section

variable {σ α : Type} {step : σ → Token → Option σ} {expected : σ → List Expected}
  {finish? : σ → Option α} {stop : Nat} {s : σ} {ts : List Token}

/-- Reading succeeds where the steps lead to a state in which the text may end. -/
theorem readAll_eq_ok_iff {value : α} :
    readAll step expected finish? stop s ts = .ok value ↔
      ∃ s', ts.foldlM step s = some s' ∧ finish? s' = some value := by
  induction ts generalizing s with
  | nil =>
    rw [readAll]
    cases hfinish : finish? s <;> simp [hfinish]
  | cons t ts ih =>
    rw [readAll, List.foldlM_cons]
    cases hstep : step s t with
    | none => simp
    | some next => simpa using ih

/-- Reading fails in a state that the steps lead to, at a token without a step
or at an end of the text that is none. -/
theorem readAll_eq_error {e : SyntaxError}
    (h : readAll step expected finish? stop s ts = .error e) :
    ∃ before rest s', ts = before ++ rest ∧ before.foldlM step s = some s' ∧
      e.stage = .parsing ∧ e.expected = expected s' ∧
      match rest with
      | [] => e.found = .endOfInput ∧ e.span = ⟨stop, stop⟩ ∧ finish? s' = none
      | t :: _ => e.found = .token t ∧ e.span = t.span ∧ step s' t = none := by
  induction ts generalizing s with
  | nil =>
    rw [readAll] at h
    split at h
    · cases h
    · next hfinish =>
      cases h
      exact ⟨[], [], s, rfl, rfl, rfl, rfl, rfl, rfl, hfinish⟩
  | cons t ts ih =>
    rw [readAll] at h
    split at h
    · next next hstep =>
      obtain ⟨before, rest, s', rfl, hsteps, hplace⟩ := ih h
      refine ⟨t :: before, rest, s', rfl, ?_, hplace⟩
      rw [List.foldlM_cons, hstep]
      exact hsteps
    · next hstep =>
      cases h
      exact ⟨[], t :: ts, s, rfl, rfl, rfl, rfl, rfl, rfl, hstep⟩

end

/-- The steps from the beginning read the viable tokens and no others, and each
state lists what can come next. -/
structure ReadsExactly {σ α : Type} (step : σ → Token → Option σ) (expected : σ → List Expected)
    (finish? : σ → Option α) (start : σ) (Accepted : List Token → Prop) : Prop where
  accepted_iff : ∀ ts : List Token, Accepted ts ↔
    ∃ s, ts.foldlM step start = some s ∧ (finish? s).isSome = true
  viable : ∀ (ts : List Token) s, ts.foldlM step start = some s → Viable Accepted ts
  covers : ∀ (ts : List Token) s, ts.foldlM step start = some s → ∀ t : Token,
    (step s t).isSome = true ↔ ∃ item ∈ expected s, item.Covers t.kind
  ends : ∀ (ts : List Token) s, ts.foldlM step start = some s →
    ((finish? s).isSome = true ↔ .endOfInput ∈ expected s)

namespace ReadsExactly

variable {σ α : Type} {step : σ → Token → Option σ} {expected : σ → List Expected}
  {finish? : σ → Option α} {start s : σ} {Accepted : List Token → Prop} {ts : List Token}

theorem viable_iff (h : ReadsExactly step expected finish? start Accepted) :
    Viable Accepted ts ↔ ∃ s, ts.foldlM step start = some s := by
  constructor
  · rintro ⟨us, haccepted⟩
    obtain ⟨s, hsteps, -⟩ := (h.accepted_iff _).1 haccepted
    rw [List.foldlM_append] at hsteps
    obtain ⟨s', hbefore, -⟩ := Option.bind_eq_some_iff.1 hsteps
    exact ⟨s', hbefore⟩
  · rintro ⟨s, hsteps⟩
    exact h.viable ts s hsteps

/-- After viable tokens, one more is viable if there is a step. -/
theorem viable_append_iff (h : ReadsExactly step expected finish? start Accepted)
    (hsteps : ts.foldlM step start = some s) (t : Token) :
    Viable Accepted (ts ++ [t]) ↔ (step s t).isSome = true := by
  rw [h.viable_iff, List.foldlM_append, hsteps]
  simp [Option.isSome_iff_exists]

theorem accepted_iff_isSome (h : ReadsExactly step expected finish? start Accepted)
    (hsteps : ts.foldlM step start = some s) : Accepted ts ↔ (finish? s).isSome = true := by
  rw [h.accepted_iff, hsteps]
  simp

/-- An error is reported where it arises. -/
theorem reports (h : ReadsExactly step expected finish? start Accepted) {stop : Nat}
    {e : SyntaxError} (herror : readAll step expected finish? stop start ts = .error e) :
    ∃ before rest, ts = before ++ rest ∧ e.Reports Accepted stop before rest := by
  obtain ⟨before, rest, s, htokens, hsteps, hstage, hexpected, hplace⟩ := readAll_eq_error herror
  refine ⟨before, rest, htokens, hstage, h.viable before s hsteps, ?_, fun t => ?_, ?_⟩
  · cases rest with
    | nil =>
      obtain ⟨hfound, hspan, hfinish⟩ := hplace
      refine ⟨hfound, hspan, ?_⟩
      rw [h.accepted_iff_isSome hsteps, hfinish]
      exact Bool.false_ne_true
    | cons t rest =>
      obtain ⟨hfound, hspan, hstep⟩ := hplace
      refine ⟨hfound, hspan, ?_⟩
      rw [h.viable_append_iff hsteps, hstep]
      exact Bool.false_ne_true
  · rw [h.viable_append_iff hsteps, hexpected, h.covers before s hsteps]
  · rw [h.accepted_iff_isSome hsteps, hexpected, h.ends before s hsteps]

end ReadsExactly

/-! ## expressions -/

namespace State

variable {goal : Goal} {s s' : State} {ts us : List Token}

theorem steps_eq_foldlM (s : State) (ts : List Token) : s.steps ts = ts.foldlM step s := by
  induction ts generalizing s with
  | nil => rfl
  | cons t ts ih =>
    rw [steps, List.foldlM_cons]
    exact congrArg _ (funext ih)

theorem Reads.foldlM (h : s.Reads goal ts) (hsteps : us.foldlM State.step s = some s') :
    s'.Reads goal (ts ++ us) := by
  induction us generalizing s ts with
  | nil =>
    cases hsteps
    rwa [List.append_nil]
  | cons u us ih =>
    rw [List.foldlM_cons] at hsteps
    obtain ⟨next, hstep, hrest⟩ := Option.bind_eq_some_iff.1 hsteps
    have hreads := ih (h.step hstep) hrest
    rwa [List.append_assoc] at hreads

end State

theorem State.reads_of_steps {goal : Goal} {s : State} {ts : List Token}
    (h : (State.initial goal).steps ts = some s) : s.Reads goal ts := by
  rw [State.steps_eq_foldlM] at h
  exact (State.Reads.initial goal).foldlM h

theorem readsExactly_expression :
    ReadsExactly State.step State.expected State.finish? (.initial .expression) AreExpression where
  accepted_iff ts := by
    have hread : ∀ tree, Derives .quantified ts tree ↔ expressionOfTokens 0 ts = .ok tree :=
      fun _ => expressionOfTokens_eq_ok_iff.symm
    simp only [AreExpression, hread, expressionOfTokens, readAll_eq_ok_iff,
      Option.isSome_iff_exists]
    exact ⟨fun ⟨tree, s, hsteps, hfinish⟩ => ⟨s, hsteps, tree, hfinish⟩,
      fun ⟨s, hsteps, tree, hfinish⟩ => ⟨tree, s, hsteps, hfinish⟩⟩
  viable ts s hsteps := by
    obtain ⟨us, tree, hderives⟩ := ((State.Reads.initial _).foldlM hsteps).exists_completion
    exact ⟨us, tree, hderives⟩
  covers ts s hsteps t := by
    rw [((State.Reads.initial _).foldlM hsteps).covers_iff]
    simp
  ends ts s hsteps := by
    have hreads := (State.Reads.initial _).foldlM hsteps
    rw [hreads.endOfInput_mem_expected_iff, or_iff_left]
    rintro rfl
    cases hreads

/-! ## programs -/

namespace ProgramState

variable {s s' : ProgramState} {current : State} {t : Token} {ts us : List Token}

/-- A token is read by the statement at hand, or ends it. -/
theorem step_eq_some (h : s.step t = some s') :
    s.current.step t = some s'.current ∨ s'.current = .initial .statement := by
  unfold step at h
  split at h
  · next current hcurrent =>
    cases h
    exact .inl hcurrent
  · split at h
    · obtain ⟨tree, -, rfl⟩ := Option.map_eq_some_iff.1 h
      exact .inr rfl
    · cases h

theorem isSome_step_iff : (s.step t).isSome = true ↔
    (s.current.step t).isSome = true ∨
      t.kind = .semicolon ∧ s.current.finish?.isSome = true := by
  unfold step
  cases hcurrent : s.current.step t with
  | none => by_cases hsemicolon : t.kind = .semicolon <;> simp [hsemicolon]
  | some current => simp

theorem isSome_finish?_iff : s.finish?.isSome = true ↔
    s.current.finish?.isSome = true ∨ s.current = .initial .statement := by
  unfold finish?
  by_cases hinitial : s.current = .initial .statement <;> simp [hinitial]

/-- The tokens since the last semicolon lead to the state of the statement at
hand. -/
theorem exists_steps (h : ts.foldlM step s = some s')
    (hs : ∃ cs, (State.initial .statement).steps cs = some s.current) :
    ∃ cs, (State.initial .statement).steps cs = some s'.current := by
  induction ts generalizing s with
  | nil =>
    cases h
    exact hs
  | cons t ts ih =>
    rw [List.foldlM_cons] at h
    obtain ⟨next, hstep, hrest⟩ := Option.bind_eq_some_iff.1 h
    refine ih hrest ?_
    rcases step_eq_some hstep with hcurrent | hinitial
    · obtain ⟨cs, hcs⟩ := hs
      refine ⟨cs ++ [t], ?_⟩
      rw [State.steps_append, hcs, Option.bind_some, State.steps, hcurrent]
      rfl
    · exact ⟨[], by rw [hinitial]; rfl⟩

/-- The steps of a statement are steps of the program. -/
theorem foldlM_of_steps (h : s.current.steps us = some current) :
    us.foldlM step s = some { s with current } := by
  induction us generalizing s with
  | nil =>
    cases h
    rfl
  | cons u us ih =>
    obtain ⟨next, hstep, hrest⟩ := Option.bind_eq_some_iff.1 h
    have hread : s.step u = some { s with current := next } := by
      simp only [step, hstep]
    rw [List.foldlM_cons, hread]
    exact ih hrest

end ProgramState

theorem readsExactly_program :
    ReadsExactly ProgramState.step (fun s => s.current.expected) ProgramState.finish? .initial
      AreProgram where
  accepted_iff ts := by
    have hread : ∀ trees, DerivesProgram ts trees ↔ programOfTokens 0 ts = .ok trees :=
      fun _ => programOfTokens_eq_ok_iff.symm
    simp only [AreProgram, hread, programOfTokens, readAll_eq_ok_iff, Option.isSome_iff_exists]
    exact ⟨fun ⟨trees, s, hsteps, hfinish⟩ => ⟨s, hsteps, trees, hfinish⟩,
      fun ⟨s, hsteps, trees, hfinish⟩ => ⟨trees, s, hsteps, hfinish⟩⟩
  viable ts s hsteps := by
    obtain ⟨cs, hcs⟩ := ProgramState.exists_steps hsteps ⟨[], rfl⟩
    obtain ⟨us, tree, hderives⟩ := (State.reads_of_steps hcs).exists_completion
    -- the statement at hand is completed, and the program with it
    obtain ⟨last, hlast, hfinish⟩ := DerivesStatement.exists_steps hderives
    rw [State.steps_append, hcs, Option.bind_some] at hlast
    have hread : (ts ++ us).foldlM ProgramState.step .initial =
        some { s with current := last } := by
      rw [List.foldlM_append, hsteps]
      exact ProgramState.foldlM_of_steps hlast
    have hprogram : programOfTokens 0 (ts ++ us) = .ok (s.finished.reverse ++ [tree]) :=
      readAll_eq_ok_iff.2 ⟨_, hread, finish?_of_current hfinish _⟩
    exact ⟨us, _, programOfTokens_eq_ok_iff.1 hprogram⟩
  covers ts s hsteps t := by
    obtain ⟨cs, hcs⟩ := ProgramState.exists_steps hsteps ⟨[], rfl⟩
    rw [(State.reads_of_steps hcs).covers_iff, ProgramState.isSome_step_iff]
    simp
  ends ts s hsteps := by
    obtain ⟨cs, hcs⟩ := ProgramState.exists_steps hsteps ⟨[], rfl⟩
    rw [(State.reads_of_steps hcs).endOfInput_mem_expected_iff, ProgramState.isSome_finish?_iff]

end Parser

/-! ## texts -/

/-- A text that is refused as an expression, or as a program, has one error, and
it is reported where it arises: at the first token that cannot follow the ones
before it in any text that is accepted, or at the end of the text where all of
its tokens are the beginning of one.  The error lists exactly what could have
followed instead. -/
theorem parse_error_reports {source : String} {ts : List Token} (h : tokenize source = .ok ts) :
    (∀ e, parseExpression source = .error e → ∃ before rest, ts = before ++ rest ∧
      e.Reports AreExpression source.utf8ByteSize before rest) ∧
    ∀ e, parseProgram source = .error e → ∃ before rest, ts = before ++ rest ∧
      e.Reports AreProgram source.utf8ByteSize before rest := by
  refine ⟨fun e he => ?_, fun e he => ?_⟩
  · rw [parseExpression, h] at he
    exact readsExactly_expression.reports he
  · rw [parseProgram, h] at he
    exact readsExactly_program.reports he

/-- The second operand of a sum is missed at the end of the text, and the value of
a definition where the semicolon stands. -/
theorem parse_error_reports_missing :
    let opening : Token := ⟨.openParen, "(", ⟨0, 1⟩⟩
    let one : Token := ⟨.literal, "1", ⟨1, 2⟩⟩
    let plus : Token := ⟨.plus, "+", ⟨3, 4⟩⟩
    let keyword : Token := ⟨.kwLet, "let", ⟨0, 3⟩⟩
    let name : Token := ⟨.identifier, "x", ⟨4, 5⟩⟩
    let assign : Token := ⟨.assign, "=", ⟨6, 7⟩⟩
    let semicolon : Token := ⟨.semicolon, ";", ⟨8, 9⟩⟩
    (parseExpression "(1 +" = .error ⟨.parsing, .endOfInput, [.sign], ⟨4, 4⟩⟩ ∧
      Viable AreExpression [opening, one, plus] ∧ ¬ AreExpression [opening, one, plus]) ∧
    parseProgram "let x = ;" = .error ⟨.parsing, .token semicolon, [.expression], ⟨8, 9⟩⟩ ∧
      Viable AreProgram [keyword, name, assign] ∧
      ¬ Viable AreProgram [keyword, name, assign, semicolon] := by
  intro opening one plus keyword name assign semicolon
  have hsum : tokenize "(1 +" = .ok [opening, one, plus] := eq_ok_of_toOption (by decide +kernel)
  have hlet : tokenize "let x = ;" = .ok [keyword, name, assign, semicolon] :=
    eq_ok_of_toOption (by decide +kernel)
  have hsumError : parseExpression "(1 +" = .error ⟨.parsing, .endOfInput, [.sign], ⟨4, 4⟩⟩ := by
    rw [parseExpression, hsum]
    rfl
  have hletError : parseProgram "let x = ;" =
      .error ⟨.parsing, .token semicolon, [.expression], ⟨8, 9⟩⟩ := by
    rw [parseProgram, hlet]
    rfl
  obtain ⟨hexpression, -⟩ := parse_error_reports hsum
  obtain ⟨-, hprogram⟩ := parse_error_reports hlet
  obtain ⟨before, rest, htokens, hreports⟩ := hexpression _ hsumError
  obtain ⟨before', rest', htokens', hreports'⟩ := hprogram _ hletError
  refine ⟨⟨hsumError, ?_⟩, hletError, ?_⟩
  · have hplace := hreports.place
    cases rest with
    | cons => cases hplace.1
    | nil =>
      rw [List.append_nil] at htokens
      rw [htokens]
      exact ⟨hreports.viable, hplace.2.2⟩
  · have hplace := hreports'.place
    cases rest' with
    | nil => cases hplace.1
    | cons t rest' =>
      obtain rfl : semicolon = t := Found.token.inj hplace.1
      -- the semicolon stands in one place only
      obtain rfl : before' = [keyword, name, assign] := by
        rcases before' with _ | ⟨a, _ | ⟨b, _ | ⟨c, _ | ⟨d, before'⟩⟩⟩⟩ <;>
          simp_all [keyword, name, assign, semicolon]
      exact ⟨hreports'.viable, hplace.2.2⟩

end ArithLogic
