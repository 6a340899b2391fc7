import ArithLogic.Proofs.Reading.Soundness

/-!
# ArithLogic.Proofs.Reading.Exactness

Reading is exactly derivation.  An expression, a statement or a program is read
if and only if the grammar derives it, and as the tree that the grammar gives
it (`parse_ok_iff_derives`).  Since the parser takes one course on each list of
tokens, no list is derived with two trees.  Nothing of a text is lost but the
tokens that only mark where something begins or ends: `let`, the dot of a
quantifier, and semicolons (`Derives.keptTokens`).
-/

namespace ArithLogic

open Parser

/-! ## expressions -/

namespace Parser

variable {goal : Goal} {s s' : State} {stop : Nat} {ts us : List Token} {tree : Tree}

/-- What is read from a state on is derived. -/
theorem State.Reads.readAll (h : s.Reads goal ts)
    (hread : readAll State.step State.expected State.finish? stop s us = .ok tree) :
    goal.Derives (ts ++ us) tree := by
  induction us generalizing s ts with
  | nil =>
    rw [Parser.readAll] at hread
    split at hread
    · next hfinish =>
      cases hread
      rw [List.append_nil]
      exact h.finish? hfinish
    · cases hread
  | cons u us ih =>
    rw [Parser.readAll] at hread
    split at hread
    · next next hstep =>
      have hderives := ih (h.step hstep) hread
      rwa [List.append_assoc] at hderives
    · cases hread

theorem expressionOfTokens_eq_ok_iff :
    expressionOfTokens stop ts = .ok tree ↔ Derives .quantified ts tree :=
  ⟨fun h => (State.Reads.initial .expression).readAll h, fun h => h.expressionOfTokens stop⟩

end Parser

/-- A list of tokens is an expression in one way at most. -/
theorem Derives.unique {level level' : Level} {ts : List Token} {t t' : Tree}
    (h : Derives level ts t) (h' : Derives level' ts t') : t = t' := by
  have hloose : Derives .quantified ts t := h.mono (Nat.zero_le _)
  have hloose' : Derives .quantified ts t' := h'.mono (Nat.zero_le _)
  exact Except.ok.inj ((hloose.expressionOfTokens 0).symm.trans (hloose'.expressionOfTokens 0))

/-! ## statements -/

/-- The parser reads the tokens of a statement, and may end there. -/
theorem DerivesStatement.exists_steps {ts : List Token} {t : Tree} (h : DerivesStatement ts t) :
    ∃ s, (State.initial .statement).steps ts = some s ∧ s.finish? = some t := by
  cases h with
  | expression h =>
    obtain ⟨inner, operand, hsteps, hedge⟩ := h.steps .statement []
      ⟨fun _ => rfl, fun _ => rfl, fun _ => rfl⟩ (by rintro frame ⟨⟩)
    rw [List.append_nil] at hsteps
    exact ⟨_, hsteps, State.finish?_of_edge hedge⟩
  | @declaration name colon ts type hname hcolon htype =>
    obtain ⟨inner, operand, hsteps, hedge⟩ := htype.steps .statement [.declared name colon]
      .primary (framesOpen_primary _)
    obtain ⟨rfl, rfl⟩ := hedge.eq_of_primary
    have hdeclare : State.step ⟨.statement, [], .continuation (.terminal name)⟩ colon =
        some ⟨.statement, [.declared name colon], .operand⟩ := by
      simp only [State.step, State.stepContinuation, hcolon, TokenKind.infixLevel?,
        State.loneName?, if_pos hname]
      rfl
    refine ⟨⟨.statement, [.declared name colon], .continuation operand⟩, ?_, rfl⟩
    rw [State.steps, State.initial, State.step_atom (TokenKind.isAtom_of_isName hname),
      Option.bind_some, State.steps, hdeclare, Option.bind_some, hsteps]
    rfl
  | @definition keyword name assign ts value hkeyword hname hassign hvalue =>
    obtain ⟨inner, operand, hsteps, hedge⟩ := hvalue.steps .statement [.defined name assign]
      (.expression _) (by rintro frame ⟨⟩ own - -; rfl)
    have hlet : State.step (.initial .statement) keyword = some ⟨.statement, [], .definedName⟩ := by
      simp only [State.step, State.initial, State.stepOperand, hkeyword]
      rfl
    refine ⟨⟨.statement, inner ++ [.defined name assign], .continuation operand⟩, ?_, ?_⟩
    · rw [State.steps, hlet, Option.bind_some, State.steps]
      simp only [State.step, if_pos hname, Option.bind_some, State.steps, if_pos hassign]
      exact hsteps
    · simp only [State.finish?, collapse_append (fun _ _ => rfl) hedge.plug]
      rfl

namespace Parser

variable {s s' : State} {stop : Nat} {cs ts : List Token} {t : Token} {finished trees : List Tree}

/-! ## programs -/

/-- Reads a program from a state on. -/
abbrev readProgramFrom (stop : Nat) (s : ProgramState) (ts : List Token) :
    Except SyntaxError (List Tree) :=
  readAll ProgramState.step (fun s => s.current.expected) ProgramState.finish? stop s ts

/-- A semicolon belongs to no statement. -/
theorem State.step_semicolon (s : State) (ht : t.kind = .semicolon) : s.step t = none := by
  obtain ⟨goal, frames, due⟩ := s
  cases due with
  | operand => simp only [step, stepOperand, ht, TokenKind.isAtom, Bool.false_eq_true, if_false]
  | continuation operand =>
    cases frames with
    | nil => simp only [step, stepContinuation, ht, TokenKind.infixLevel?]
    | cons frame frames =>
      cases frame <;> simp [step, stepContinuation, ht, TokenKind.infixLevel?]
  | boundName | boundColon | definedName | assign => simp [step, ht, TokenKind.isName]

/-- What is read of a statement is read within a program. -/
theorem readProgramFrom_append (h : s.steps cs = some s') (finished : List Tree)
    (ts : List Token) :
    readProgramFrom stop ⟨finished, s⟩ (cs ++ ts) = readProgramFrom stop ⟨finished, s'⟩ ts := by
  induction cs generalizing s with
  | nil =>
    cases h
    rfl
  | cons c cs ih =>
    obtain ⟨next, hnext, hrest⟩ := Option.bind_eq_some_iff.1 h
    rw [List.cons_append, readProgramFrom, readAll]
    simp only [ProgramState.step, hnext]
    exact ih hrest

/-- A semicolon ends the statement at hand. -/
theorem readProgramFrom_semicolon {tree : Tree} (ht : t.kind = .semicolon)
    (hfinish : s.finish? = some tree) (finished : List Tree) (ts : List Token) :
    readProgramFrom stop ⟨finished, s⟩ (t :: ts) =
      readProgramFrom stop ⟨tree :: finished, .initial .statement⟩ ts := by
  rw [readProgramFrom, readAll]
  simp only [ProgramState.step, s.step_semicolon ht, if_pos ht, hfinish, Option.map_some]

/-- A program may end where the statement at hand may. -/
theorem finish?_of_current {tree : Tree} (hfinish : s.finish? = some tree)
    (finished : List Tree) :
    ProgramState.finish? ⟨finished, s⟩ = some (finished.reverse ++ [tree]) := by
  have hmiddle : s ≠ .initial .statement := by
    rintro rfl
    cases hfinish
  simp only [ProgramState.finish?, if_neg hmiddle, hfinish, Option.map_some, List.reverse_cons]

/-- Whatever the grammar derives as a program is read as just that. -/
theorem readProgramFrom_of_derives (h : DerivesProgram ts trees) (finished : List Tree) :
    readProgramFrom stop ⟨finished, .initial .statement⟩ ts = .ok (finished.reverse ++ trees) := by
  induction h generalizing finished with
  | empty => rw [readProgramFrom, readAll, ProgramState.finish?, if_pos rfl, List.append_nil]
  | @last cs _ hstatement =>
    obtain ⟨s, hsteps, hfinish⟩ := hstatement.exists_steps
    have hread : readProgramFrom stop ⟨finished, .initial .statement⟩ (cs ++ []) =
        readProgramFrom stop ⟨finished, s⟩ [] := readProgramFrom_append hsteps finished []
    rw [List.append_nil] at hread
    rw [hread, readProgramFrom, readAll, finish?_of_current hfinish]
  | cons hstatement hsemicolon _ ih =>
    obtain ⟨s, hsteps, hfinish⟩ := hstatement.exists_steps
    rw [readProgramFrom_append hsteps, readProgramFrom_semicolon hsemicolon hfinish, ih,
      List.reverse_cons, List.append_assoc]
    rfl

/-- What is read as a program is derived. -/
theorem derivesProgram_of_readAll (h : s.Reads .statement cs)
    (hread : readProgramFrom stop ⟨finished, s⟩ ts = .ok trees) :
    ∃ rest, trees = finished.reverse ++ rest ∧ DerivesProgram (cs ++ ts) rest := by
  induction ts generalizing finished s cs with
  | nil =>
    rw [readProgramFrom, readAll] at hread
    split at hread
    · next hfinish =>
      cases hread
      unfold ProgramState.finish? at hfinish
      split at hfinish
      · next hinitial =>
        cases hfinish
        simp only at hinitial
        subst hinitial
        rw [h.eq_nil]
        exact ⟨[], (List.append_nil _).symm, .empty⟩
      · obtain ⟨tree, htree, rfl⟩ := Option.map_eq_some_iff.1 hfinish
        rw [List.append_nil]
        exact ⟨[tree], List.reverse_cons, .last (h.finish? htree)⟩
    · cases hread
  | cons t ts ih =>
    rw [readProgramFrom, readAll] at hread
    split at hread
    · next next hstep =>
      unfold ProgramState.step at hstep
      split at hstep
      · next current hcurrent =>
        cases hstep
        obtain ⟨rest, htrees, hderives⟩ := ih (h.step hcurrent) hread
        rw [List.append_assoc] at hderives
        exact ⟨rest, htrees, hderives⟩
      · split at hstep
        · next hsemicolon =>
          obtain ⟨tree, htree, rfl⟩ := Option.map_eq_some_iff.1 hstep
          obtain ⟨rest, htrees, hderives⟩ := ih (.initial _) hread
          refine ⟨tree :: rest, ?_, .cons (h.finish? htree) hsemicolon hderives⟩
          rw [htrees, List.reverse_cons, List.append_assoc]
          rfl
        · cases hstep
    · cases hread

theorem programOfTokens_eq_ok_iff :
    programOfTokens stop ts = .ok trees ↔ DerivesProgram ts trees := by
  constructor
  · intro h
    obtain ⟨rest, rfl, hderives⟩ := derivesProgram_of_readAll (.initial .statement) h
    exact hderives
  · intro h
    exact readProgramFrom_of_derives h []

end Parser

/-- A list of tokens is a program in one way at most. -/
theorem DerivesProgram.unique {ts : List Token} {trees trees' : List Tree}
    (h : DerivesProgram ts trees) (h' : DerivesProgram ts trees') : trees = trees' := by
  have hread : Parser.programOfTokens 0 ts = .ok trees := Parser.programOfTokens_eq_ok_iff.2 h
  have hread' : Parser.programOfTokens 0 ts = .ok trees' := Parser.programOfTokens_eq_ok_iff.2 h'
  exact Except.ok.inj (hread.symm.trans hread')

/-! ## the tokens of a tree -/

/-- Tokens of the kind are kept in trees; the others only mark where a
definition, a body or the next statement begins. -/
def TokenKind.isKept : TokenKind → Bool
  | kwLet | dot | semicolon => false
  | _ => true

theorem TokenKind.isKept_of_isAtom {kind : TokenKind} (h : kind.isAtom = true) :
    kind.isKept = true := by
  cases kind <;> first | rfl | cases h

theorem TokenKind.isKept_of_infixLevel? {kind : TokenKind} {level : Level}
    (h : kind.infixLevel? = some level) : kind.isKept = true := by
  cases kind <;> first | rfl | cases h

/-- The tokens that trees keep. -/
def keptTokens (ts : List Token) : List Token := ts.filter fun t => t.kind.isKept

section Kept

variable {t : Token} {ts us : List Token}

@[simp] theorem keptTokens_nil : keptTokens [] = [] := rfl

@[simp] theorem keptTokens_append : keptTokens (ts ++ us) = keptTokens ts ++ keptTokens us :=
  List.filter_append ..

theorem keptTokens_cons (h : t.kind.isKept = true) : keptTokens (t :: ts) = t :: keptTokens ts :=
  List.filter_cons_of_pos h

theorem keptTokens_cons_of_not (h : t.kind.isKept = false) :
    keptTokens (t :: ts) = keptTokens ts :=
  List.filter_cons_of_neg (by simp [h])

end Kept

namespace Tree

/-- The tokens of a tree, as they are read from left to right.  A quantifier
stands in front of its binding, any other operator between its operands. -/
def tokens : Tree → List Token
  | enclosed opening body closing => opening :: body.tokens ++ [closing]
  | terminal token => [token]
  | unary op operand => op :: operand.tokens
  | binary op left right =>
    match op.kind with
    | .kwForall | .kwExists => op :: left.tokens ++ right.tokens
    | _ => left.tokens ++ op :: right.tokens

variable {op : Token} {left right : Tree}

theorem tokens_quantified (h : op.kind = .kwForall ∨ op.kind = .kwExists) :
    (binary op left right).tokens = op :: left.tokens ++ right.tokens := by
  rcases h with h | h <;> simp only [tokens, h]

theorem tokens_infix (h : ¬ (op.kind = .kwForall ∨ op.kind = .kwExists)) :
    (binary op left right).tokens = left.tokens ++ op :: right.tokens := by
  rw [tokens]
  split
  · next hkind => exact absurd (.inl hkind) h
  · next hkind => exact absurd (.inr hkind) h
  · rfl

end Tree

/-- An expression gives up the dots of its quantifiers alone. -/
theorem Derives.keptTokens {level : Level} {ts : List Token} {t : Tree}
    (h : Derives level ts t) : ArithLogic.keptTokens ts = t.tokens := by
  induction h with
  | atom hatom => exact keptTokens_cons (TokenKind.isKept_of_isAtom hatom)
  | enclosed hopening hclosing _ ih =>
    rw [keptTokens_append, keptTokens_cons (by rw [hopening]; rfl), ih,
      keptTokens_cons (by rw [hclosing]; rfl), keptTokens_nil]
    rfl
  | sign hop _ ih =>
    rw [keptTokens_cons (by rcases hop with h | h <;> rw [h] <;> rfl), ih]
    rfl
  | negation hop _ ih =>
    rw [keptTokens_cons (by rw [hop]; rfl), ih]
    rfl
  | operation hop _ _ ihl ihr =>
    rw [keptTokens_append, keptTokens_cons (TokenKind.isKept_of_infixLevel? hop), ihl, ihr,
      Tree.tokens_infix (by rintro (h | h) <;> rw [h] at hop <;> cases hop)]
  | quantified hop hname hcolon _ hdot _ ihtype ihbody =>
    rw [keptTokens_append, keptTokens_cons (by rcases hop with h | h <;> rw [h] <;> rfl),
      keptTokens_cons (TokenKind.isKept_of_isAtom (TokenKind.isAtom_of_isName hname)),
      keptTokens_cons (by rw [hcolon]; rfl), keptTokens_cons_of_not (by rw [hdot]; rfl), ihtype,
      ihbody, Tree.tokens_quantified hop, Tree.tokens_infix (by simp [hcolon])]
    rfl
  | loosen _ ih => exact ih

/-- A statement gives up `let` as well. -/
theorem DerivesStatement.keptTokens {ts : List Token} {t : Tree} (h : DerivesStatement ts t) :
    ArithLogic.keptTokens ts = t.tokens := by
  cases h with
  | expression h => exact h.keptTokens
  | declaration hname hcolon htype =>
    rw [keptTokens_cons (TokenKind.isKept_of_isAtom (TokenKind.isAtom_of_isName hname)),
      keptTokens_cons (by rw [hcolon]; rfl), htype.keptTokens, Tree.tokens_infix (by simp [hcolon])]
    rfl
  | definition hkeyword hname hassign hvalue =>
    rw [keptTokens_cons_of_not (by rw [hkeyword]; rfl),
      keptTokens_cons (TokenKind.isKept_of_isAtom (TokenKind.isAtom_of_isName hname)),
      keptTokens_cons (by rw [hassign]; rfl), hvalue.keptTokens,
      Tree.tokens_infix (by simp [hassign])]
    rfl

/-- A program gives up its semicolons too. -/
theorem DerivesProgram.keptTokens {ts : List Token} {trees : List Tree}
    (h : DerivesProgram ts trees) : ArithLogic.keptTokens ts = trees.flatMap Tree.tokens := by
  induction h with
  | empty => rfl
  | last h => rw [h.keptTokens, List.flatMap_singleton]
  | cons h hsemicolon _ ih =>
    rw [keptTokens_append, keptTokens_cons_of_not (by rw [hsemicolon]; rfl), h.keptTokens, ih,
      List.flatMap_cons]

/-! ## texts -/

/-- A computation that has a result has succeeded with it. -/
theorem eq_ok_of_toOption {ε α : Type} {x : Except ε α} {a : α}
    (h : x.toOption = some a) : x = .ok a := by
  cases x with
  | error error => cases h
  | ok found => exact congrArg Except.ok (Option.some.inj h)

/-- A text is an expression if its tokens are derived as one. -/
theorem parseExpression_eq_ok_iff {source : String} {tree : Tree} :
    parseExpression source = .ok tree ↔
      ∃ ts, tokenize source = .ok ts ∧ Derives .quantified ts tree := by
  simp only [parseExpression, bind, Except.bind]
  cases tokenize source with
  | error error => simp
  | ok ts => simp [expressionOfTokens_eq_ok_iff]

/-- And a program if they are derived as that. -/
theorem parseProgram_eq_ok_iff {source : String} {trees : List Tree} :
    parseProgram source = .ok trees ↔ ∃ ts, tokenize source = .ok ts ∧ DerivesProgram ts trees := by
  simp only [parseProgram, bind, Except.bind]
  cases tokenize source with
  | error error => simp
  | ok ts => simp [programOfTokens_eq_ok_iff]

/-- A text is read as an expression, or as a program, exactly if its tokens are
derived as one, and then as the tree, or the trees, of the derivation.  No list
of tokens has another tree, and the tree holds all of them in their order but
for `let`, dots and semicolons. -/
theorem parse_ok_iff_derives {source : String} {ts : List Token} (h : tokenize source = .ok ts) :
    (∀ t, parseExpression source = .ok t ↔ Derives .quantified ts t) ∧
    (∀ trees, parseProgram source = .ok trees ↔ DerivesProgram ts trees) ∧
    (∀ us t t', Derives .quantified us t → Derives .quantified us t' → t = t') ∧
    (∀ us trees trees', DerivesProgram us trees → DerivesProgram us trees' → trees = trees') ∧
    (∀ us t, Derives .quantified us t → keptTokens us = t.tokens) ∧
    ∀ us trees, DerivesProgram us trees → keptTokens us = trees.flatMap Tree.tokens := by
  have hexpression : parseExpression source = expressionOfTokens source.utf8ByteSize ts := by
    rw [parseExpression, h]
    rfl
  have hprogram : parseProgram source = programOfTokens source.utf8ByteSize ts := by
    rw [parseProgram, h]
    rfl
  refine ⟨fun t => ?_, fun trees => ?_, fun _ _ _ => Derives.unique,
    fun _ _ _ => DerivesProgram.unique, fun _ _ => Derives.keptTokens,
    fun _ _ => DerivesProgram.keptTokens⟩
  · rw [hexpression]
    exact expressionOfTokens_eq_ok_iff
  · rw [hprogram]
    exact programOfTokens_eq_ok_iff

/-- Arrows group to the right, and in no other way. -/
theorem parse_ok_iff_derives_arrows :
    let p : Token := ⟨.identifier, "p", ⟨0, 1⟩⟩
    let q : Token := ⟨.identifier, "q", ⟨5, 6⟩⟩
    let r : Token := ⟨.identifier, "r", ⟨10, 11⟩⟩
    let first : Token := ⟨.arrow, "->", ⟨2, 4⟩⟩
    let second : Token := ⟨.arrow, "->", ⟨7, 9⟩⟩
    tokenize "p -> q -> r" = .ok [p, first, q, second, r] ∧
      Derives .quantified [p, first, q, second, r]
        (.binary first (.terminal p) (.binary second (.terminal q) (.terminal r))) ∧
      ¬ Derives .quantified [p, first, q, second, r]
        (.binary second (.binary first (.terminal p) (.terminal q)) (.terminal r)) := by
  intro p q r first second
  have htokens : tokenize "p -> q -> r" = .ok [p, first, q, second, r] :=
    eq_ok_of_toOption (by decide +kernel)
  obtain ⟨hexpression, -, hunique, -⟩ := parse_ok_iff_derives htokens
  have hright := (hexpression (.binary first (.terminal p)
    (.binary second (.terminal q) (.terminal r)))).1 (eq_ok_of_toOption (by decide +kernel))
  exact ⟨htokens, hright, fun hleft => absurd (hunique _ _ _ hright hleft) (by decide)⟩

end ArithLogic
