import ArithLogic.Tree.Grammar
import ArithLogic.Tree.Parser

/-!
# ArithLogic.Proofs.Reading.Completeness

The parser reads whatever the grammar derives.  Reading the tokens of an
expression leaves open the constructs along its right edge, with the last
operand in hand (`Edge`): completing them gives the tree, and they end in
front of every infix operator whose left operand the expression may be.  The
induction is over the derivation, and carries what must be true of the
constructs that were open before (`FramesOpen`, `Slot.Permits`).
-/

namespace ArithLogic

open Parser

/-! ## levels and places -/

namespace Level

/-- Some infix operator is of the level. -/
def IsInfix (level : Level) : Prop := ∃ kind : TokenKind, kind.infixLevel? = some level

variable {level : Level}

/-- Quantifiers, signs and negations are no infix operators. -/
theorem IsInfix.cases (h : level.IsInfix) :
    level = equivalence ∨ level = implication ∨ level = disjunction ∨ level = conjunction ∨
      level = equality ∨ level = ordering ∨ level = sum ∨ level = product := by
  obtain ⟨kind, hkind⟩ := h
  cases kind <;> cases hkind <;> decide

theorem le_trans {a b c : Level} (h : a ≤ b) (h' : b ≤ c) : a ≤ c := Nat.le_trans h h'

theorem lt_of_lt_of_le {a b c : Level} (h : a < b) (h' : b ≤ c) : a < c := Nat.lt_of_lt_of_le h h'

theorem not_lt_of_le {a b : Level} (h : a ≤ b) : ¬ b < a := Nat.not_lt.2 h

/-- Nothing is looser than a quantifier. -/
theorem quantified_le (level : Level) : quantified ≤ level := Nat.zero_le _

theorem le_leftOperand (level : Level) : level ≤ level.leftOperand := by
  cases level <;> decide

theorem le_rightOperand (level : Level) : level ≤ level.rightOperand := by
  cases level <;> decide

theorem le_primary (level : Level) : level ≤ primary := by
  cases level <;> decide

/-- Nothing is tighter than a primary. -/
theorem eq_primary (h : primary ≤ level) : level = primary := by
  cases level <;> first | rfl | exact absurd h (by decide)

end Level

/-- An expression of the level may stand in the place. -/
structure Slot.Permits (slot : Slot) (level : Level) : Prop where
  sign : level ≤ .sign → slot.allowsSign = true
  negation : level ≤ .negation → slot.allowsNegation = true
  quantifier : level ≤ .quantified → slot.allowsQuantifier = true

namespace Slot.Permits

variable {slot : Slot} {loose tight : Level}

theorem tighten (h : slot.Permits loose) (hle : loose ≤ tight) : slot.Permits tight :=
  ⟨fun h' => h.sign (Level.le_trans hle h'), fun h' => h.negation (Level.le_trans hle h'),
    fun h' => h.quantifier (Level.le_trans hle h')⟩

/-- Anything may stand where an expression is due. -/
theorem expression (level : Level) : Slot.expression.Permits level :=
  ⟨fun _ => rfl, fun _ => rfl, fun _ => rfl⟩

/-- A sign may stand in front of a signed number. -/
theorem signed : Slot.signed.Permits .sign :=
  ⟨fun _ => rfl, fun h => absurd h (by decide), fun h => absurd h (by decide)⟩

theorem negated : Slot.negation.Permits .negation :=
  ⟨fun _ => rfl, fun _ => rfl, fun h => absurd h (by decide)⟩

theorem primary : Slot.primary.Permits .primary :=
  ⟨fun h => absurd h (by decide), fun h => absurd h (by decide), fun h => absurd h (by decide)⟩

/-- The right operand that an operator demands may stand behind it. -/
theorem right {level : Level} (h : level.IsInfix) : level.rightSlot.Permits level.rightOperand := by
  rcases h.cases with rfl | rfl | rfl | rfl | rfl | rfl | rfl | rfl <;>
    exact ⟨(by decide), (by decide), (by decide)⟩

end Slot.Permits

/-! ## open constructs -/

namespace Frame

/-- The construct stays open in front of an infix operator of the level, which
may follow. -/
def StaysOpen (level : Level) : Frame → Prop
  | boundType .. | declared .. => False
  | frame => frame.endsBefore level = false

end Frame

/-- The innermost construct stays open in front of every infix operator that
is of the level or tighter. -/
def FramesOpen (level : Level) (frames : List Frame) : Prop :=
  ∀ frame, frames.head? = some frame → ∀ own : Level, own.IsInfix → level ≤ own →
    frame.StaysOpen own

theorem FramesOpen.tighten {loose tight : Level} {frames : List Frame} (h : FramesOpen loose frames)
    (hle : loose ≤ tight) : FramesOpen tight frames :=
  fun frame hframe own hown htight => h frame hframe own hown (Level.le_trans hle htight)

/-- No infix operator makes a primary. -/
theorem framesOpen_primary (frames : List Frame) : FramesOpen .primary frames := by
  intro frame _ own hown hle
  rcases hown.cases with rfl | rfl | rfl | rfl | rfl | rfl | rfl | rfl <;>
    exact absurd hle (by decide)

/-- An operation stays open as long as its right operand goes on. -/
theorem framesOpen_operation {op : Token} {level : Level} {left : Tree} {frames : List Frame}
    (hop : op.kind.infixLevel? = some level) :
    FramesOpen level.rightOperand (.operation left op :: frames) := by
  rintro frame ⟨⟩ own hown hle
  show (Frame.operation left op).endsBefore own = false
  simp only [Frame.endsBefore, hop]
  rcases Level.IsInfix.cases ⟨_, hop⟩ with rfl | rfl | rfl | rfl | rfl | rfl | rfl | rfl <;>
    rcases hown.cases with rfl | rfl | rfl | rfl | rfl | rfl | rfl | rfl <;>
    first | rfl | exact absurd hle (by decide)

/-- Completing constructs from the inside outwards. -/
def plug : Tree → List Frame → Option Tree
  | operand, [] => some operand
  | operand, frame :: frames => (frame.complete? operand).bind fun tree => plug tree frames

theorem plug_append (operand : Tree) (inner outer : List Frame) :
    plug operand (inner ++ outer) = (plug operand inner).bind fun tree => plug tree outer := by
  induction inner generalizing operand with
  | nil => rfl
  | cons frame inner ih =>
    simp only [List.cons_append, plug, ih]
    cases frame.complete? operand <;> rfl

/-- Constructs that end are completed. -/
theorem collapse_append {ends : Frame → Bool} {operand tree : Tree} {inner outer : List Frame}
    (hends : ∀ frame ∈ inner, ends frame = true) (hplug : plug operand inner = some tree) :
    collapse ends operand (inner ++ outer) = collapse ends tree outer := by
  induction inner generalizing operand with
  | nil =>
    cases hplug
    rfl
  | cons frame inner ih =>
    obtain ⟨built, hbuilt, hrest⟩ := Option.bind_eq_some_iff.1 hplug
    rw [List.cons_append, collapse, if_pos (hends frame List.mem_cons_self), hbuilt]
    exact ih (fun frame h => hends frame (List.mem_cons_of_mem _ h)) hrest

/-- Constructs that stay open are left. -/
theorem collapse_of_head {ends : Frame → Bool} {operand : Tree} {frames : List Frame}
    (h : ∀ frame, frames.head? = some frame → ends frame = false) :
    collapse ends operand frames = (operand, frames) := by
  cases frames with
  | nil => rfl
  | cons frame frames => exact collapse_of_not_ends (h frame rfl)

/-- The constructs along the right edge of a tree of the level: completing
them around the operand gives the tree, and they end where the tree does. -/
structure Edge (level : Level) (frames : List Frame) (operand tree : Tree) : Prop where
  plug : plug operand frames = some tree
  ends : ∀ frame ∈ frames, ∀ own : Level, own.IsInfix → own.leftOperand ≤ level →
    frame.endsBefore own = true
  closes : ∀ frame ∈ frames, frame.endsBeforeClosing = true
  whole : level = .primary → frames = []

namespace Edge

variable {level : Level} {frames : List Frame} {operand tree : Tree}

/-- Nothing is open. -/
theorem complete (level : Level) (tree : Tree) : Edge level [] tree tree :=
  ⟨rfl, (fun _ h => nomatch h), (fun _ h => nomatch h), fun _ => rfl⟩

/-- One more construct is open around the tree. -/
theorem append {outer : Level} {frame : Frame} {whole : Tree} (h : Edge level frames operand tree)
    (hcomplete : frame.complete? tree = some whole)
    (hlevel : ∀ own : Level, own.IsInfix → own.leftOperand ≤ outer → own.leftOperand ≤ level)
    (hends : ∀ own : Level, own.IsInfix → own.leftOperand ≤ outer → frame.endsBefore own = true)
    (hcloses : frame.endsBeforeClosing = true) (houter : outer ≠ .primary) :
    Edge outer (frames ++ [frame]) operand whole where
  plug := by
    rw [plug_append, h.plug]
    simp only [Option.bind_some, ArithLogic.plug, hcomplete]
  ends other hother own hown hle := by
    rcases List.mem_append.1 hother with hinner | hlast
    · exact h.ends other hinner own hown (hlevel own hown hle)
    · rw [List.mem_singleton.1 hlast]
      exact hends own hown hle
  closes other hother := by
    rcases List.mem_append.1 hother with hinner | hlast
    · exact h.closes other hinner
    · rw [List.mem_singleton.1 hlast]
      exact hcloses
  whole hprimary := absurd hprimary houter

/-- A looser expression ends in front of fewer operators. -/
theorem loosen {loose : Level} (h : Edge level frames operand tree) (hle : loose ≤ level) :
    Edge loose frames operand tree :=
  { h with
    ends := fun frame hframe own hown hown' =>
      h.ends frame hframe own hown (Level.le_trans hown' hle)
    whole := fun hprimary => h.whole (Level.eq_primary (hprimary ▸ hle)) }

/-- A primary is complete by itself. -/
theorem eq_of_primary (h : Edge .primary frames operand tree) : frames = [] ∧ operand = tree := by
  obtain rfl := h.whole rfl
  exact ⟨rfl, Option.some.inj h.plug⟩

end Edge

/-! ## reading tokens -/

namespace Frame

/-- The operand of the construct may go on with an infix operator or a closing
parenthesis. -/
def GoesOn : Frame → Prop
  | boundType .. | declared .. => False
  | _ => True

theorem StaysOpen.goesOn {frame : Frame} {level : Level} (h : frame.StaysOpen level) :
    frame.GoesOn := by
  cases frame <;> trivial

theorem StaysOpen.endsBefore {frame : Frame} {level : Level} (h : frame.StaysOpen level) :
    frame.endsBefore level = false := by
  cases frame <;> first | exact h | exact h.elim

theorem goesOn_of_closes {frame : Frame} (h : frame.endsBeforeClosing = true) : frame.GoesOn := by
  cases frame <;> trivial

end Frame

namespace Parser.State

variable {goal : Goal} {frames inner : List Frame} {operand tree : Tree} {t : Token} {level : Level}

/-- Reads tokens, as long as each can come next. -/
def steps (s : State) : List Token → Option State
  | [] => some s
  | t :: ts => (s.step t).bind fun next => next.steps ts

theorem steps_append (s : State) (ts us : List Token) :
    s.steps (ts ++ us) = (s.steps ts).bind fun next => next.steps us := by
  induction ts generalizing s with
  | nil => rfl
  | cons t ts ih =>
    simp only [List.cons_append, steps]
    cases s.step t with
    | none => rfl
    | some next => exact ih next

/-- A token that is an expression by itself. -/
theorem step_atom (h : t.kind.isAtom = true) :
    step ⟨goal, frames, .operand⟩ t = some ⟨goal, frames, .continuation (.terminal t)⟩ := by
  simp only [step, stepOperand]
  cases hkind : t.kind <;> simp only [hkind] at h ⊢ <;> first | rfl | cases h

theorem step_openParen (h : t.kind = .openParen) :
    step ⟨goal, frames, .operand⟩ t = some ⟨goal, .paren t :: frames, .operand⟩ := by
  simp only [step, stepOperand, h]
  rfl

theorem step_sign (h : t.kind = .plus ∨ t.kind = .minus)
    (hslot : (slot ⟨goal, frames, .operand⟩).allowsSign = true) :
    step ⟨goal, frames, .operand⟩ t = some ⟨goal, .sign t :: frames, .operand⟩ := by
  rcases h with h | h <;> simp only [step, stepOperand, h, if_pos hslot] <;> rfl

theorem step_not (h : t.kind = .kwNot)
    (hslot : (slot ⟨goal, frames, .operand⟩).allowsNegation = true) :
    step ⟨goal, frames, .operand⟩ t = some ⟨goal, .negation t :: frames, .operand⟩ := by
  simp only [step, stepOperand, h, if_pos hslot]
  rfl

theorem step_quantifier (h : t.kind = .kwForall ∨ t.kind = .kwExists)
    (hslot : (slot ⟨goal, frames, .operand⟩).allowsQuantifier = true) :
    step ⟨goal, frames, .operand⟩ t = some ⟨goal, frames, .boundName t⟩ := by
  rcases h with h | h <;> simp only [step, stepOperand, h, if_pos hslot]

theorem step_boundName {quantifier : Token} (h : t.kind.isName = true) :
    step ⟨goal, frames, .boundName quantifier⟩ t =
      some ⟨goal, frames, .boundColon quantifier t⟩ := by
  simp only [step, if_pos h]

theorem step_boundColon {quantifier name : Token} (h : t.kind = .colon) :
    step ⟨goal, frames, .boundColon quantifier name⟩ t =
      some ⟨goal, .boundType quantifier name t :: frames, .operand⟩ := by
  simp only [step, if_pos h]
  rfl

theorem step_dot {quantifier name colon : Token} (h : t.kind = .dot) :
    step ⟨goal, .boundType quantifier name colon :: frames, .continuation operand⟩ t =
      some ⟨goal, .quantified quantifier (.binary colon (.terminal name) operand) :: frames,
        .operand⟩ := by
  simp only [step, stepContinuation, if_pos h]
  rfl

/-- What an operand may go on with. -/
theorem stepContinuation_eq {s : State}
    (h : ∀ frame, s.frames.head? = some frame → frame.GoesOn) :
    s.stepContinuation operand t =
      match t.kind.infixLevel? with
      | some level =>
        let (left, frames) := collapse (Frame.endsBefore level) operand s.frames
        some ({ s with frames }.enter (.operation left t))
      | none =>
        match t.kind with
        | .closeParen => s.close operand t
        | .colon => s.loneName?.map fun name => s.enter (.declared name t)
        | _ => none := by
  obtain ⟨goal, frames, due⟩ := s
  cases frames with
  | nil => rfl
  | cons frame frames => cases frame <;> first | rfl | exact (h _ rfl).elim

/-- The innermost construct of an edge, or of what is open around it. -/
theorem goesOn_head (hedge : Edge level inner operand tree)
    (h : ∀ frame, frames.head? = some frame → frame.GoesOn) {frame : Frame}
    (hframe : (inner ++ frames).head? = some frame) : frame.GoesOn := by
  cases inner with
  | nil => exact h frame hframe
  | cons _ inner =>
    cases hframe
    exact Frame.goesOn_of_closes (hedge.closes _ List.mem_cons_self)

/-- An infix operator after its left operand. -/
theorem step_operation {own : Level} (hop : t.kind.infixLevel? = some own)
    (hedge : Edge own.leftOperand inner operand tree) (hopen : FramesOpen own frames) :
    step ⟨goal, inner ++ frames, .continuation operand⟩ t =
      some ⟨goal, .operation tree t :: frames, .operand⟩ := by
  have hown : own.IsInfix := ⟨_, hop⟩
  have hstays : ∀ frame, frames.head? = some frame → frame.StaysOpen own :=
    fun frame hframe => hopen frame hframe own hown (Nat.le_refl _)
  have hcollapse : collapse (Frame.endsBefore own) operand (inner ++ frames) = (tree, frames) := by
    rw [collapse_append (fun frame hframe => hedge.ends frame hframe own hown (Nat.le_refl _))
      hedge.plug]
    exact collapse_of_head fun frame hframe => (hstays frame hframe).endsBefore
  simp only [step]
  rw [stepContinuation_eq fun frame => goesOn_head hedge fun frame h => (hstays frame h).goesOn, hop]
  simp only [hcollapse]
  rfl

/-- A closing parenthesis after what it encloses. -/
theorem step_closeParen {opening : Token} (ht : t.kind = .closeParen)
    (hedge : Edge level inner operand tree) :
    step ⟨goal, inner ++ .paren opening :: frames, .continuation operand⟩ t =
      some ⟨goal, frames, .continuation (.enclosed opening tree t)⟩ := by
  have hcollapse : collapse Frame.endsBeforeClosing operand (inner ++ .paren opening :: frames) =
      (tree, .paren opening :: frames) := by
    rw [collapse_append hedge.closes hedge.plug]
    exact collapse_of_not_ends rfl
  simp only [step]
  rw [stepContinuation_eq fun frame => goesOn_head hedge (by rintro frame ⟨⟩; trivial)]
  simp only [ht, TokenKind.infixLevel?, close, hcollapse]

/-- The end of the text after a whole expression. -/
theorem finish?_of_edge (hedge : Edge level inner operand tree) :
    finish? ⟨goal, inner, .continuation operand⟩ = some tree := by
  have hcollapse : collapse (fun _ => true) operand (inner ++ []) = (tree, []) := by
    rw [collapse_append (fun _ _ => rfl) hedge.plug]
    rfl
  rw [List.append_nil] at hcollapse
  simp only [finish?, hcollapse]

end Parser.State

/-- The parser reads the tokens of an expression wherever one of its level may
stand. -/
theorem Derives.steps {level : Level} {ts : List Token} {t : Tree} (h : Derives level ts t)
    (goal : Goal) (frames : List Frame)
    (hslot : (State.slot ⟨goal, frames, .operand⟩).Permits level) (hopen : FramesOpen level frames) :
    ∃ inner operand, (State.mk goal frames .operand).steps ts =
        some ⟨goal, inner ++ frames, .continuation operand⟩ ∧ Edge level inner operand t := by
  induction h generalizing frames with
  | @atom t hatom =>
    refine ⟨[], .terminal t, ?_, .complete _ _⟩
    simp only [State.steps, State.step_atom hatom]
    rfl
  | @enclosed opening closing ts body hopening hclosing _ ih =>
    obtain ⟨inner, operand, hbody, hedge⟩ := ih (.paren opening :: frames)
      (.expression _) (by rintro frame ⟨⟩ own - -; rfl)
    refine ⟨[], .enclosed opening body closing, ?_, .complete _ _⟩
    rw [List.cons_append, State.steps, State.step_openParen hopening, Option.bind_some,
      State.steps_append, hbody, Option.bind_some, State.steps,
      State.step_closeParen hclosing hedge]
    rfl
  | @sign op ts t hop _ ih =>
    obtain ⟨inner, operand, hnumber, hedge⟩ := ih (.sign op :: frames) .signed (by
      rintro frame ⟨⟩ own hown hle
      rcases hown.cases with rfl | rfl | rfl | rfl | rfl | rfl | rfl | rfl <;>
        exact absurd hle (by decide))
    refine ⟨inner ++ [.sign op], operand, ?_, hedge.append rfl (fun _ _ => id)
      (fun _ _ _ => rfl) rfl (by decide)⟩
    rw [State.steps, State.step_sign hop (hslot.sign (Nat.le_refl _)), Option.bind_some, hnumber,
      List.append_assoc]
    rfl
  | @negation op ts t hop _ ih =>
    obtain ⟨inner, operand, hformula, hedge⟩ := ih (.negation op :: frames) .negated (by
      rintro frame ⟨⟩ own hown hle
      exact decide_eq_false (Nat.not_lt.2 hle))
    refine ⟨inner ++ [.negation op], operand, ?_, hedge.append rfl (fun _ _ => id) ?_ rfl
      (by decide)⟩
    · rw [State.steps, State.step_not hop (hslot.negation (Nat.le_refl _)), Option.bind_some,
        hformula, List.append_assoc]
      rfl
    · intro own hown hle
      rcases hown.cases with rfl | rfl | rfl | rfl | rfl | rfl | rfl | rfl <;>
        first | rfl | exact absurd hle (by decide)
  | @operation op level ls rs l r hop _ _ ihl ihr =>
    have hinfix : level.IsInfix := ⟨_, hop⟩
    obtain ⟨innerl, operandl, hleft, hedgel⟩ := ihl frames
      (hslot.tighten (Level.le_leftOperand level)) (hopen.tighten (Level.le_leftOperand level))
    have hright : (State.slot ⟨goal, .operation l op :: frames, .operand⟩).Permits
        level.rightOperand := by
      simp only [State.slot, Frame.slot, hop]
      exact .right hinfix
    obtain ⟨innerr, operandr, hright, hedger⟩ := ihr _ hright (framesOpen_operation hop)
    refine ⟨innerr ++ [.operation l op], operandr, ?_, hedger.append rfl ?_ ?_ rfl ?_⟩
    · rw [State.steps_append, hleft, Option.bind_some, State.steps,
        State.step_operation hop hedgel hopen, Option.bind_some, hright, List.append_assoc]
      rfl
    · exact fun own _ hle => Level.le_trans hle (Level.le_rightOperand level)
    · intro own hown hle
      simp only [Frame.endsBefore, hop]
      rcases hinfix.cases with rfl | rfl | rfl | rfl | rfl | rfl | rfl | rfl <;>
        rcases hown.cases with rfl | rfl | rfl | rfl | rfl | rfl | rfl | rfl <;>
        first | rfl | exact absurd hle (by decide)
    · rcases hinfix.cases with rfl | rfl | rfl | rfl | rfl | rfl | rfl | rfl <;> decide
  | @quantified op name colon dot ts bs type body hop hname hcolon _ hdot _ ihtype ihbody =>
    obtain ⟨innert, operandt, htype, hedget⟩ := ihtype
      (.boundType op name colon :: frames) .primary (framesOpen_primary _)
    obtain ⟨rfl, rfl⟩ := hedget.eq_of_primary
    obtain ⟨inner, operand, hbody, hedge⟩ := ihbody
      (.quantified op (.binary colon (.terminal name) operandt) :: frames)
      (.expression _) (by rintro frame ⟨⟩ own - -; rfl)
    refine ⟨inner ++ [.quantified op (.binary colon (.terminal name) operandt)], operand, ?_,
      hedge.append rfl (fun _ _ => id) ?_ rfl (by decide)⟩
    · rw [List.cons_append, List.cons_append, List.cons_append, State.steps,
        State.step_quantifier hop (hslot.quantifier (Nat.le_refl _)), Option.bind_some, State.steps,
        State.step_boundName hname, Option.bind_some, State.steps, State.step_boundColon hcolon,
        Option.bind_some, State.steps_append, htype, Option.bind_some, State.steps,
        List.nil_append, State.step_dot hdot, Option.bind_some, hbody, List.append_assoc]
      rfl
    · intro own hown hle
      rcases hown.cases with rfl | rfl | rfl | rfl | rfl | rfl | rfl | rfl <;>
        exact absurd hle (by decide)
  | loosen _ ih =>
    obtain ⟨inner, operand, hsteps, hedge⟩ :=
      ih frames (hslot.tighten (Level.le_next _)) (hopen.tighten (Level.le_next _))
    exact ⟨inner, operand, hsteps, hedge.loosen (Level.le_next _)⟩

/-- Reading takes the steps, and ends where they lead. -/
theorem Parser.readAll_of_steps {s s' : State} {ts : List Token} {tree : Tree} (stop : Nat)
    (h : s.steps ts = some s') (hfinish : s'.finish? = some tree) :
    readAll State.step State.expected State.finish? stop s ts = .ok tree := by
  induction ts generalizing s with
  | nil =>
    cases h
    rw [readAll, hfinish]
  | cons t ts ih =>
    obtain ⟨next, hnext, hrest⟩ := Option.bind_eq_some_iff.1 h
    rw [readAll, hnext]
    exact ih hrest

/-- Whatever the grammar derives as an expression is read as just that. -/
theorem Derives.expressionOfTokens {ts : List Token} {t : Tree} (h : Derives .quantified ts t)
    (stop : Nat) : Parser.expressionOfTokens stop ts = .ok t := by
  obtain ⟨inner, operand, hsteps, hedge⟩ :=
    h.steps .expression [] (.expression _) fun _ hmem => by cases hmem
  rw [List.append_nil] at hsteps
  exact Parser.readAll_of_steps stop hsteps (State.finish?_of_edge hedge)

end ArithLogic
