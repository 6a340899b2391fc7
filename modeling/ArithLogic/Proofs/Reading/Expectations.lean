import ArithLogic.Proofs.Reading.Exactness

/-!
# ArithLogic.Proofs.Reading.Expectations

What a place lists is what can come next there.  An item of the list stands for
the kinds of tokens that can begin its construct (`Expected.Covers`), which the
grammar determines: a construct begins with a primary, or with a sign, a
negation or a quantifier as far as its level reaches (`Derives.begins_head`).
In every state that tokens lead to, a token is read, or ends the statement as a
semicolon, exactly if an item covers it (`State.Reads.covers_iff`), and the text
may end there exactly if the end of the input is listed
(`State.Reads.endOfInput_mem_expected_iff`).
-/

namespace ArithLogic

open Parser

/-! ## beginnings -/

/-- Some expression of the level begins with a token of the kind. -/
def TokenKind.Begins (kind : TokenKind) (level : Level) : Prop :=
  ∃ (t : Token) (ts : List Token) (tree : Tree), t.kind = kind ∧ Derives level (t :: ts) tree

/-- Some statement begins with a token of the kind. -/
def TokenKind.BeginsStatement (kind : TokenKind) : Prop :=
  ∃ (t : Token) (ts : List Token) (tree : Tree), t.kind = kind ∧ DerivesStatement (t :: ts) tree

/-- A token of the kind can stand where the item is expected. -/
def Expected.Covers : Expected → TokenKind → Prop
  | .token own, kind => kind = own
  | .statement, kind => kind.BeginsStatement
  | .expression, kind => kind.Begins .quantified
  | .implication, kind => kind.Begins .implication
  | .sign, kind => kind.Begins .sign
  | .primary, kind => kind.Begins .primary
  | .character _, _ | .digit, _ | .otherCharacter, _ | .endOfInput, _ => False

/-- The kinds of tokens an expression of the level begins with. -/
def TokenKind.begins (kind : TokenKind) (level : Level) : Bool :=
  match kind with
  | .openParen => true
  | .plus | .minus => level ≤ .sign
  | .kwNot => level ≤ .negation
  | .kwForall | .kwExists => level ≤ .quantified
  | kind => kind.isAtom

namespace TokenKind

variable {kind : TokenKind} {loose tight : Level}

theorem begins_of_isAtom (h : kind.isAtom = true) (level : Level) : kind.begins level = true := by
  cases kind <;> first | rfl | cases h

/-- A looser expression may begin with whatever a tighter one does. -/
theorem begins_of_le (h : kind.begins tight = true) (hle : loose ≤ tight) :
    kind.begins loose = true := by
  cases kind <;> first
    | exact h
    | exact decide_eq_true (Level.le_trans hle (of_decide_eq_true h))

end TokenKind

/-- An expression begins with a token that its level admits. -/
theorem Derives.begins_head {level : Level} {ts : List Token} {t : Token} {tree : Tree}
    (h : Derives level ts tree) (ht : ts.head? = some t) : t.kind.begins level = true := by
  induction h with
  | atom hatom =>
    cases ht
    exact TokenKind.begins_of_isAtom hatom _
  | enclosed hopening =>
    cases ht
    rw [hopening]
    rfl
  | sign hop =>
    cases ht
    rcases hop with hop | hop <;> rw [hop] <;> rfl
  | negation hop =>
    cases ht
    rw [hop]
    rfl
  | @operation op level ls rs l r _ hleft _ ihl =>
    cases ls with
    | nil => exact absurd rfl hleft.ne_nil
    | cons first ls => exact TokenKind.begins_of_le (ihl ht) level.le_leftOperand
  | quantified hop =>
    cases ht
    rcases hop with hop | hop <;> rw [hop] <;> rfl
  | loosen _ ih => exact TokenKind.begins_of_le (ih ht) (Level.le_next _)

/-- A token of each kind; what a token can be part of depends on nothing else. -/
def TokenKind.token (kind : TokenKind) : Token := ⟨kind, kind.spelling, ⟨0, 0⟩⟩

/-- A name is an expression of every level. -/
theorem Derives.name (level : Level) :
    Derives level [TokenKind.identifier.token] (.terminal TokenKind.identifier.token) :=
  (Derives.atom rfl).mono level.le_primary

namespace TokenKind

variable {kind : TokenKind} {level : Level}

/-- Nothing else is needed to begin an expression. -/
theorem begins_iff : kind.Begins level ↔ kind.begins level = true := by
  constructor
  · rintro ⟨t, ts, tree, rfl, h⟩
    exact h.begins_head rfl
  · intro h
    have hname := Derives.name
    have hidentifier : identifier.token.kind.isName = true := rfl
    have hcolon : colon.token.kind = .colon := rfl
    have hdot : dot.token.kind = .dot := rfl
    have hclosing : closeParen.token.kind = .closeParen := rfl
    have of_le {tight : Level} {ts : List Token} {tree : Tree}
        (hderives : Derives tight (kind.token :: ts) tree) (hle : level ≤ tight) :
        kind.Begins level :=
      ⟨kind.token, ts, tree, rfl, hderives.mono hle⟩
    cases kind <;> first
      | exact of_le (.enclosed rfl hclosing (hname _)) level.le_primary
      | exact of_le (.sign (.inl rfl) (hname _)) (of_decide_eq_true h)
      | exact of_le (.sign (.inr rfl) (hname _)) (of_decide_eq_true h)
      | exact of_le (.negation rfl (hname _)) (of_decide_eq_true h)
      | exact of_le (.quantified (.inl rfl) hidentifier hcolon (hname _) hdot (hname _))
          (of_decide_eq_true h)
      | exact of_le (.quantified (.inr rfl) hidentifier hcolon (hname _) hdot (hname _))
          (of_decide_eq_true h)
      | exact of_le (.atom h) level.le_primary

/-- A statement begins with `let` or as an expression does. -/
theorem beginsStatement_iff :
    kind.BeginsStatement ↔ kind = .kwLet ∨ kind.begins .quantified = true := by
  constructor
  · rintro ⟨t, ts, tree, rfl, h⟩
    cases h with
    | expression h => exact .inr (h.begins_head rfl)
    | declaration hname => exact .inr (begins_of_isAtom (isAtom_of_isName hname) _)
    | definition hkeyword => exact .inl hkeyword
  · rintro (rfl | h)
    · have hkeyword : kwLet.token.kind = .kwLet := rfl
      have hidentifier : identifier.token.kind.isName = true := rfl
      have hassign : assign.token.kind = .assign := rfl
      exact ⟨_, _, _, hkeyword, .definition hkeyword hidentifier hassign (.name _)⟩
    · obtain ⟨t, ts, tree, hkind, hderives⟩ := begins_iff.2 h
      exact ⟨t, ts, tree, hkind, .expression hderives⟩

end TokenKind

/-- The kinds of tokens that can stand where the item is expected. -/
def Expected.covers : Expected → TokenKind → Bool
  | .token own, kind => kind == own
  | .statement, kind => kind == .kwLet || kind.begins .quantified
  | .expression, kind => kind.begins .quantified
  | .implication, kind => kind.begins .implication
  | .sign, kind => kind.begins .sign
  | .primary, kind => kind.begins .primary
  | .character _, _ | .digit, _ | .otherCharacter, _ | .endOfInput, _ => false

@[simp] theorem Expected.covers_token (own kind : TokenKind) :
    (Expected.token own).covers kind = (kind == own) := rfl

theorem Expected.covers_iff {item : Expected} {kind : TokenKind} :
    item.Covers kind ↔ item.covers kind = true := by
  cases item <;> simp [Covers, covers, TokenKind.begins_iff, TokenKind.beginsStatement_iff]

theorem Expected.exists_covers_iff {items : List Expected} {kind : TokenKind} :
    (∃ item ∈ items, item.Covers kind) ↔ (items.any fun item => item.covers kind) = true := by
  simp only [List.any_eq_true, covers_iff]

/-! ## places -/

/-- A token of the kind is read where the operand is due. -/
def Slot.admits (slot : Slot) (kind : TokenKind) : Bool :=
  match kind with
  | .openParen => true
  | .plus | .minus => slot.allowsSign
  | .kwNot => slot.allowsNegation
  | .kwForall | .kwExists => slot.allowsQuantifier
  | .kwLet => slot = .statement
  | kind => kind.isAtom

/-- A place lists what is read there. -/
theorem Slot.any_covers (slot : Slot) (kind : TokenKind) :
    (slot.expected.any fun item => item.covers kind) = slot.admits kind := by
  cases slot <;> cases kind <;> rfl

theorem Slot.endOfInput_mem_expected_iff {slot : Slot} :
    Expected.endOfInput ∈ slot.expected ↔ slot = .statement := by
  cases slot <;> decide

namespace Parser.State

variable {goal : Goal} {s : State} {frames : List Frame} {due : Level} {ts us : List Token}
  {t : Token} {operand : Tree}

theorem isSome_stepOperand (s : State) (t : Token) :
    (s.stepOperand t).isSome = s.slot.admits t.kind := by
  unfold stepOperand Slot.admits
  cases t.kind <;> simp only <;> (try split) <;> simp_all [TokenKind.isAtom]

end Parser.State

/-! ## open constructs -/

namespace Frame

def isParen : Frame → Bool
  | paren _ => true
  | _ => false

/-- The construct needs a further token behind its operand. -/
def needsToken : Frame → Bool
  | paren _ | boundType .. => true
  | _ => false

theorem isSome_complete? (frame : Frame) (operand : Tree) :
    (frame.complete? operand).isSome = !frame.needsToken := by
  cases frame <;> rfl

end Frame

/-- All constructs are completed that need no further token. -/
theorem collapse_eq_nil_iff {frames : List Frame} (operand : Tree) :
    (collapse (fun _ => true) operand frames).2 = [] ↔
      frames.any Frame.needsToken = false := by
  induction frames generalizing operand with
  | nil => simp [collapse]
  | cons frame frames ih =>
    rw [collapse, if_pos rfl, List.any_cons]
    have hcomplete := frame.isSome_complete? operand
    cases hneeds : frame.needsToken <;> rw [hneeds] at hcomplete
    · obtain ⟨tree, htree⟩ := Option.isSome_iff_exists.1 hcomplete
      simp only [htree, ih, Bool.false_or]
    · obtain hnone := Option.not_isSome_iff_eq_none.1 (Bool.eq_false_iff.1 hcomplete)
      simp only [hnone, reduceCtorEq, Bool.true_or]

namespace Opened

variable {goal : Goal} {frames : List Frame} {due : Level} {ts : List Token}

/-- The constructs around one that is no primary are not due a primary. -/
theorem outer_ne_primary {frame : Frame} {outer own : Level} {us : List Token}
    (hframe : frame.Spells due own us) (hadmits : outer ≤ own)
    (hparen : frame.isParen = false) : outer ≠ .primary := by
  rintro rfl
  obtain rfl := Level.eq_primary hadmits
  cases hframe with
  | operation hop => exact absurd (Level.IsInfix.cases ⟨_, hop⟩) (by decide)
  | paren => cases hparen

/-- A quantifier's type is read inside a parenthesis, unless it is due. -/
theorem any_needsToken (h : Opened goal frames due ts) (hdue : due ≠ .primary) :
    frames.any Frame.needsToken = frames.any Frame.isParen := by
  induction h with
  | nil | defined => rfl
  | declared => exact absurd rfl hdue
  | @cons frame frames outer due own ts us _ hframe hadmits ih =>
    have hinner := fun hparen => ih (outer_ne_primary hframe hadmits hparen)
    cases hframe with
    | paren => rfl
    | boundType => exact absurd rfl hdue
    | _ => exact congrArg (false || ·) (hinner rfl)

/-- A closing parenthesis completes what has been read since the last open one. -/
theorem isParen_head_collapse (h : Opened goal frames due ts) (hdue : due ≠ .primary)
    (operand : Tree) :
    (ArithLogic.collapse Frame.endsBeforeClosing operand frames).2.head?.any Frame.isParen =
      frames.any Frame.isParen := by
  induction h generalizing operand with
  | nil | defined => rfl
  | declared => exact absurd rfl hdue
  | @cons frame frames outer due own ts us _ hframe hadmits ih =>
    have hinner := fun hparen => ih (outer_ne_primary hframe hadmits hparen)
    cases hframe with
    | paren => rfl
    | boundType => exact absurd rfl hdue
    | _ => exact hinner rfl _

end Opened

namespace Parser.State

variable {goal : Goal} {s : State} {frames : List Frame} {due : Level} {ts us : List Token}
  {t : Token} {operand : Tree}

theorem hasOpenParen_eq (s : State) : s.hasOpenParen = s.frames.any Frame.isParen := by
  unfold hasOpenParen
  congr 1

/-- A text may end where no construct needs a further token. -/
theorem isSome_finish?_iff :
    (finish? ⟨goal, frames, .continuation operand⟩).isSome = true ↔
      frames.any Frame.needsToken = false := by
  rw [← collapse_eq_nil_iff operand]
  simp only [finish?]
  rcases collapse (fun _ => true) operand frames with ⟨tree, _ | ⟨frame, rest⟩⟩ <;> simp

theorem isSome_close (h : Opened goal frames due ts) (hdue : due ≠ .primary) (before : Due) :
    (close ⟨goal, frames, before⟩ operand t).isSome = frames.any Frame.isParen := by
  rw [← h.isParen_head_collapse hdue operand]
  simp only [close]
  rcases collapse Frame.endsBeforeClosing operand frames with ⟨tree, _ | ⟨frame, rest⟩⟩
  · rfl
  · cases frame <;> rfl

/-- What an operand may go on with is an operator, a closing parenthesis, or the
colon of a declaration. -/
theorem isSome_stepContinuation (h : Opened goal frames due ts)
    (hgoes : ∀ frame, frames.head? = some frame → frame.GoesOn) :
    (stepContinuation ⟨goal, frames, .continuation operand⟩ operand t).isSome =
      (t.kind.infixLevel?.isSome || (t.kind == .closeParen && frames.any Frame.isParen) ||
        t.kind == .colon && (loneName? ⟨goal, frames, .continuation operand⟩).isSome) := by
  have hclose : (close ⟨goal, frames, .continuation operand⟩ operand t).isSome =
      frames.any Frame.isParen := isSome_close h (h.due_ne_primary hgoes) _
  rw [stepContinuation_eq hgoes]
  cases hkind : t.kind <;> simp [TokenKind.infixLevel?, hclose]

theorem expected_continuation (hgoes : ∀ frame, frames.head? = some frame → frame.GoesOn) :
    expected ⟨goal, frames, .continuation operand⟩ =
      infixOperators.map .token ++
        if frames.any Frame.isParen then [.token .closeParen]
        else (if (loneName? ⟨goal, frames, .continuation operand⟩).isSome then [.token .colon]
          else []) ++ goal.terminators := by
  have hparen := hasOpenParen_eq ⟨goal, frames, .continuation operand⟩
  cases frames with
  | nil => rfl
  | cons frame frames =>
    rw [← hparen]
    cases frame <;> first | rfl | exact (hgoes _ rfl).elim

theorem infixOperators_any_covers (kind : TokenKind) :
    ((infixOperators.map .token).any fun item => Expected.covers item kind) =
      kind.infixLevel?.isSome := by
  cases kind <;> rfl

/-- A name that is alone stands in no parenthesis. -/
theorem isParen_of_isSome_loneName?
    (h : (loneName? ⟨goal, frames, .continuation operand⟩).isSome = true) :
    frames.any Frame.isParen = false := by
  cases frames with
  | nil => rfl
  | cons frame frames => cases goal <;> cases h

/-! ## states -/

/-- A statement may end at a semicolon, an expression only with the text. -/
theorem terminators_any_covers (goal : Goal) (kind : TokenKind) :
    (goal.terminators.any fun item => item.covers kind) =
      (kind == .semicolon && goal == .statement) := by
  cases goal <;> cases kind <;> rfl

theorem endOfInput_mem_terminators (goal : Goal) : Expected.endOfInput ∈ goal.terminators := by
  cases goal <;> decide

/-- Where a name is due, names are listed. -/
theorem names_any_covers (kind : TokenKind) :
    (names.any fun item => item.covers kind) = kind.isName := by
  cases kind <;> rfl

/-- The type of a bound or declared name is one primary. -/
theorem exists_typeFrame
    (h : ¬ ∀ frame, frames.head? = some frame → frame.GoesOn) :
    ∃ frame outer, frames = frame :: outer ∧ ¬ frame.GoesOn := by
  cases frames with
  | nil => exact (h (fun _ hnil => nomatch hnil)).elim
  | cons frame outer =>
    refine ⟨frame, outer, rfl, fun hgoes => h ?_⟩
    rintro frame ⟨⟩
    exact hgoes

namespace Reads

/-- A state lists the tokens that it reads, and those that end what has been
read as a statement. -/
theorem covers_iff (h : Reads goal s ts) :
    (∃ item ∈ s.expected, item.Covers t.kind) ↔
      (s.step t).isSome = true ∨
        t.kind = .semicolon ∧ goal = .statement ∧ s.finish?.isSome = true := by
  rw [Expected.exists_covers_iff]
  cases h with
  | @operand frames =>
    have hstep := isSome_stepOperand ⟨goal, frames, .operand⟩ t
    simp only [expected, State.step, hstep, Slot.any_covers, State.finish?, Option.isSome_none,
      Bool.false_eq_true, and_false, or_false]
  | boundName | definedName =>
    simp only [expected, State.step, names_any_covers, State.finish?, Option.isSome_none,
      Bool.false_eq_true, and_false, or_false]
    split <;> simp_all
  | boundColon | assign =>
    simp only [expected, State.step, State.finish?, Option.isSome_none, Bool.false_eq_true,
      and_false, or_false, List.any_cons, List.any_nil, Bool.or_false, Expected.covers_token,
      beq_iff_eq]
    split <;> simp_all
  | @continuation frames due ts us operand hopened ho =>
    by_cases hgoes : ∀ frame, frames.head? = some frame → frame.GoesOn
    · have hneeds := hopened.any_needsToken (hopened.due_ne_primary hgoes)
      simp only [State.step, isSome_stepContinuation hopened hgoes, expected_continuation hgoes,
        isSome_finish?_iff, hneeds, List.any_append, infixOperators_any_covers]
      cases hparen : frames.any Frame.isParen with
      | true =>
        have hlone : (loneName? ⟨goal, frames, .continuation operand⟩).isSome = false :=
          Bool.eq_false_iff.2 fun hlone => by simp [isParen_of_isSome_loneName? hlone] at hparen
        simp [hlone]
      | false =>
        have hends := terminators_any_covers goal t.kind
        cases hlone : (loneName? ⟨goal, frames, .continuation operand⟩).isSome <;>
          simp only [if_true, if_false, Bool.false_eq_true, List.any_append, hends, List.any_cons,
            List.any_nil, Expected.covers_token] <;>
          simp [or_assoc]
    · obtain ⟨frame, outer, rfl, hframe⟩ := exists_typeFrame hgoes
      cases frame with
      | boundType =>
        simp only [State.step, State.stepContinuation, expected, List.any_cons, List.any_nil,
          Bool.or_false, Expected.covers_token, beq_iff_eq, isSome_finish?_iff]
        split <;> simp_all [Frame.needsToken]
      | declared =>
        cases hopened with
        | declared hgoal =>
          simp [State.step, State.stepContinuation, expected, terminators_any_covers, hgoal,
            isSome_finish?_iff, Frame.needsToken]
        | cons _ hframe => cases hframe
      | _ => exact (hframe trivial).elim

/-- The end of the input is listed where the text may end. -/
theorem endOfInput_mem_expected_iff (h : Reads goal s ts) :
    .endOfInput ∈ s.expected ↔ s.finish?.isSome = true ∨ s = .initial .statement := by
  cases h with
  | @operand frames due ts hopened =>
    simp only [expected, Slot.endOfInput_mem_expected_iff, State.finish?, Option.isSome_none,
      Bool.false_eq_true, false_or]
    constructor
    · intro hslot
      obtain ⟨rfl, rfl, -⟩ := eq_nil_of_slot hopened hslot
      rfl
    · intro hinitial
      rw [hinitial]
      rfl
  | boundName | definedName | boundColon | assign =>
    simp [expected, names, State.finish?, State.initial]
  | @continuation frames due ts us operand hopened ho =>
    have hinitial : (⟨goal, frames, .continuation operand⟩ : State) ≠ .initial .statement := by
      simp [State.initial]
    by_cases hgoes : ∀ frame, frames.head? = some frame → frame.GoesOn
    · have hneeds := hopened.any_needsToken (hopened.due_ne_primary hgoes)
      simp only [expected_continuation hgoes, isSome_finish?_iff, hneeds, hinitial, or_false]
      have hends := endOfInput_mem_terminators goal
      cases frames.any Frame.isParen <;> simp [hends]
    · obtain ⟨frame, outer, rfl, hframe⟩ := exists_typeFrame hgoes
      cases frame with
      | boundType => simp [expected, isSome_finish?_iff, Frame.needsToken, hinitial]
      | declared =>
        cases hopened with
        | declared hgoal =>
          simp [expected, endOfInput_mem_terminators, isSome_finish?_iff, Frame.needsToken]
        | cons _ hframe => cases hframe
      | _ => exact (hframe trivial).elim

end Reads

end Parser.State

end ArithLogic
