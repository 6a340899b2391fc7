import ArithLogic.Proofs.Reading.Completeness

/-!
# ArithLogic.Proofs.Reading.Soundness

The parser reads nothing but what the grammar derives.  The tokens read so far
are those of the open constructs, outermost first, followed by what has been
read of the operand at hand (`State.Reads`).  Each open construct knows the
level that its missing operand must have and the level that it will have itself
(`Frame.Spells`), and it stands in a place that admits its own level
(`Opened`).  Reading a token keeps this (`State.Reads.step`), and a text may
end only where every construct can be completed, so its tokens are derived
(`State.Reads.finish?`).
-/

namespace ArithLogic

open Parser

/-! ## open constructs -/

/-- The tokens were read of the construct, which is due an operand of the first
level and will be of the second. -/
inductive Frame.Spells : Frame → (due own : Level) → List Token → Prop
  | sign {op : Token} : op.kind = .plus ∨ op.kind = .minus → Spells (.sign op) .sign .sign [op]
  | negation {op : Token} : op.kind = .kwNot → Spells (.negation op) .negation .negation [op]
  | operation {left : Tree} {op : Token} {level : Level} {ls : List Token} :
      op.kind.infixLevel? = some level → Derives level.leftOperand ls left →
      Spells (.operation left op) level.rightOperand level (ls ++ [op])
  | paren {opening : Token} :
      opening.kind = .openParen → Spells (.paren opening) .quantified .primary [opening]
  | boundType {quantifier name colon : Token} :
      quantifier.kind = .kwForall ∨ quantifier.kind = .kwExists → name.kind.isName →
      colon.kind = .colon →
      Spells (.boundType quantifier name colon) .primary .quantified [quantifier, name, colon]
  | quantified {quantifier name colon dot : Token} {ts : List Token} {type : Tree} :
      quantifier.kind = .kwForall ∨ quantifier.kind = .kwExists → name.kind.isName →
      colon.kind = .colon → Derives .primary ts type → dot.kind = .dot →
      Spells (.quantified quantifier (.binary colon (.terminal name) type)) .quantified .quantified
        (quantifier :: name :: colon :: ts ++ [dot])

/-- The tokens were read of the open constructs, innermost first, and what is
missing is of the level.  Only the outermost construct of a statement binds a
name for the statements that follow. -/
inductive Opened (goal : Goal) : List Frame → Level → List Token → Prop
  | nil : Opened goal [] .quantified []
  | declared {name colon : Token} :
      goal = .statement → name.kind.isName → colon.kind = .colon →
      Opened goal [.declared name colon] .primary [name, colon]
  | defined {keyword name assign : Token} :
      goal = .statement → keyword.kind = .kwLet → name.kind.isName → assign.kind = .assign →
      Opened goal [.defined name assign] .quantified [keyword, name, assign]
  | cons {frame : Frame} {frames : List Frame} {outer due own : Level} {ts us : List Token} :
      Opened goal frames outer ts → frame.Spells due own us → outer ≤ own →
      Opened goal (frame :: frames) due (ts ++ us)

/-- The tokens are a whole text, with the tree. -/
def Parser.Goal.Derives : Goal → List Token → Tree → Prop
  | .expression, ts, tree => ArithLogic.Derives .quantified ts tree
  | .statement, ts, tree => DerivesStatement ts tree

theorem Parser.Goal.derives_of_expression {goal : Goal} {ts : List Token} {tree : Tree}
    (h : ArithLogic.Derives .quantified ts tree) : goal.Derives ts tree := by
  cases goal with
  | expression => exact h
  | statement => exact .expression h

namespace Frame.Spells

variable {frame : Frame} {due own level : Level} {us os : List Token} {operand tree : Tree}

/-- A construct is completed by an operand of the level that is due. -/
theorem complete (h : frame.Spells due own us) (ho : Derives due os operand)
    (hcomplete : frame.complete? operand = some tree) : Derives own (us ++ os) tree := by
  cases h with
  | sign hop => cases hcomplete; exact .sign hop ho
  | negation hop => cases hcomplete; exact .negation hop ho
  | operation hop hleft =>
    cases hcomplete
    rw [List.append_assoc]
    exact .operation hop hleft ho
  | paren | boundType => cases hcomplete
  | quantified hq hname hcolon htype hdot =>
    cases hcomplete
    rw [List.append_assoc]
    exact .quantified hq hname hcolon htype hdot ho

/-- What stays open in front of an infix operator is due no tighter an operand
than that operator makes. -/
theorem due_le (h : frame.Spells due own us) (hlevel : level.IsInfix)
    (hends : frame.endsBefore level = false) (hdue : due ≠ .primary) : due ≤ level := by
  cases h with
  | sign => cases hends
  | negation => exact Nat.not_lt.1 (of_decide_eq_false hends)
  | @operation left op own ls hop =>
    simp only [Frame.endsBefore, hop] at hends
    rcases Level.IsInfix.cases ⟨_, hop⟩ with rfl | rfl | rfl | rfl | rfl | rfl | rfl | rfl <;>
      rcases hlevel.cases with rfl | rfl | rfl | rfl | rfl | rfl | rfl | rfl <;>
      first | exact absurd hends (by decide) | decide
  | paren | quantified => exact Nat.zero_le _
  | boundType => exact absurd rfl hdue

/-- What ends in front of an infix operator may be its left operand. -/
theorem leftOperand_le (h : frame.Spells due own us) (hlevel : level.IsInfix)
    (hends : frame.endsBefore level = true) : level.leftOperand ≤ own ∧ own ≠ .primary := by
  cases h with
  | sign => rcases hlevel.cases with rfl | rfl | rfl | rfl | rfl | rfl | rfl | rfl <;> decide
  | negation =>
    have hlt : level < .negation := of_decide_eq_true hends
    rcases hlevel.cases with rfl | rfl | rfl | rfl | rfl | rfl | rfl | rfl <;>
      first | decide | exact absurd hlt (by decide)
  | @operation left op own ls hop =>
    simp only [Frame.endsBefore, hop] at hends
    rcases Level.IsInfix.cases ⟨_, hop⟩ with rfl | rfl | rfl | rfl | rfl | rfl | rfl | rfl <;>
      rcases hlevel.cases with rfl | rfl | rfl | rfl | rfl | rfl | rfl | rfl <;>
      first | exact absurd hends (by decide) | decide
  | paren | boundType | quantified => cases hends

end Frame.Spells

/-- The level of an operand that may be signed, negated or quantified. -/
structure Slot.Demands (slot : Slot) (level : Level) : Prop where
  sign : slot.allowsSign = true → level ≤ .sign
  negation : slot.allowsNegation = true → level ≤ .negation
  quantifier : slot.allowsQuantifier = true → level = .quantified

namespace Opened

variable {goal : Goal} {frames : List Frame} {due : Level} {ts os : List Token} {operand : Tree}

/-- A place admits nothing looser than what is due there. -/
theorem demands (h : Opened goal frames due ts) :
    (State.slot ⟨goal, frames, .operand⟩).Demands due := by
  cases h with
  | nil => cases goal <;> exact ⟨fun _ => by decide, fun _ => by decide, fun _ => rfl⟩
  | declared => exact ⟨(absurd · Bool.false_ne_true), (absurd · Bool.false_ne_true), (absurd · Bool.false_ne_true)⟩
  | defined => exact ⟨fun _ => by decide, fun _ => by decide, fun _ => rfl⟩
  | cons _ hframe =>
    cases hframe with
    | sign => exact ⟨fun _ => by decide, (absurd · Bool.false_ne_true), (absurd · Bool.false_ne_true)⟩
    | negation => exact ⟨fun _ => by decide, fun _ => by decide, (absurd · Bool.false_ne_true)⟩
    | operation hop =>
      simp only [State.slot, Frame.slot, hop]
      rcases Level.IsInfix.cases ⟨_, hop⟩ with rfl | rfl | rfl | rfl | rfl | rfl | rfl | rfl <;>
        exact ⟨by decide, by decide, by decide⟩
    | paren | quantified => exact ⟨fun _ => by decide, fun _ => by decide, fun _ => rfl⟩
    | boundType => exact ⟨(absurd · Bool.false_ne_true), (absurd · Bool.false_ne_true), (absurd · Bool.false_ne_true)⟩

/-- Where nothing is open nothing has been read. -/
theorem eq_nil (h : Opened goal [] due ts) : due = .quantified ∧ ts = [] := by
  cases h
  exact ⟨rfl, rfl⟩

/-- Only a type has to be a primary. -/
theorem due_ne_primary (h : Opened goal frames due ts)
    (hgoes : ∀ frame, frames.head? = some frame → frame.GoesOn) : due ≠ .primary := by
  cases h with
  | nil | defined => decide
  | declared => exact (hgoes _ rfl).elim
  | cons _ hframe =>
    cases hframe with
    | operation hop =>
      rcases Level.IsInfix.cases ⟨_, hop⟩ with rfl | rfl | rfl | rfl | rfl | rfl | rfl | rfl <;>
        decide
    | boundType => exact (hgoes _ rfl).elim
    | _ => decide

/-- In front of an infix operator the constructs that end make its left operand,
and the others leave a place for it. -/
theorem collapse_endsBefore {level l : Level} (h : Opened goal frames due ts)
    (hdue : due ≠ .primary) (hlevel : level.IsInfix) (ho : Derives l os operand) (hle : due ≤ l)
    (hleft : level.leftOperand ≤ l) :
    ∃ due' us ls, Opened goal (collapse (Frame.endsBefore level) operand frames).2 due' us ∧
      due' ≤ level ∧
      Derives level.leftOperand ls (collapse (Frame.endsBefore level) operand frames).1 ∧
      ts ++ os = us ++ ls := by
  induction h generalizing operand l os with
  | nil => exact ⟨_, [], os, .nil, Nat.zero_le _, ho.mono hleft, rfl⟩
  | declared => exact absurd rfl hdue
  | defined hgoal hkeyword hname hassign =>
    exact ⟨_, _, os, .defined hgoal hkeyword hname hassign, Nat.zero_le _, ho.mono hleft, rfl⟩
  | @cons frame frames outer due own ts us hopened hframe hadmits ih =>
    cases hends : frame.endsBefore level with
    | false =>
      rw [collapse_of_not_ends hends]
      exact ⟨due, _, os, .cons hopened hframe hadmits, hframe.due_le hlevel hends hdue,
        ho.mono hleft, rfl⟩
    | true =>
      obtain ⟨hown, hnotPrimary⟩ := hframe.leftOperand_le hlevel hends
      rw [collapse, if_pos hends]
      cases hcomplete : frame.complete? operand with
      | none => cases frame <;> simp [Frame.complete?, Frame.endsBefore] at hcomplete hends
      | some tree =>
        have houter : outer ≠ .primary := fun heq =>
          hnotPrimary (Level.eq_primary (heq ▸ hadmits))
        obtain ⟨due', vs, ls, hrest, hdue', hderives, htokens⟩ :=
          ih houter (hframe.complete (ho.mono hle) hcomplete) hadmits hown
        exact ⟨due', vs, ls, hrest, hdue', hderives, by rw [List.append_assoc, htokens]⟩

/-- Completing constructs from the inside outwards leaves an operand of the
level that is due, or the whole text. -/
theorem collapse (ends : Frame → Bool) (h : Opened goal frames due ts)
    (ho : Derives due os operand) :
    (∃ due' us bs, Opened goal (ArithLogic.collapse ends operand frames).2 due' us ∧
      Derives due' bs (ArithLogic.collapse ends operand frames).1 ∧ ts ++ os = us ++ bs) ∨
    ((ArithLogic.collapse ends operand frames).2 = [] ∧
      goal.Derives (ts ++ os) (ArithLogic.collapse ends operand frames).1) := by
  induction h generalizing operand os with
  | nil => exact .inl ⟨_, [], os, .nil, ho, rfl⟩
  | @declared name colon hgoal hname hcolon =>
    rw [ArithLogic.collapse]
    split
    · subst hgoal
      exact .inr ⟨rfl, .declaration hname hcolon ho⟩
    · exact .inl ⟨_, _, os, .declared hgoal hname hcolon, ho, rfl⟩
  | @defined keyword name assign hgoal hkeyword hname hassign =>
    rw [ArithLogic.collapse]
    split
    · subst hgoal
      exact .inr ⟨rfl, .definition hkeyword hname hassign ho⟩
    · exact .inl ⟨_, _, os, .defined hgoal hkeyword hname hassign, ho, rfl⟩
  | @cons frame frames outer due own ts us hopened hframe hadmits ih =>
    rw [ArithLogic.collapse]
    split
    · split
      · next tree hcomplete =>
        rw [List.append_assoc]
        exact ih ((hframe.complete ho hcomplete).mono hadmits)
      · exact .inl ⟨due, _, os, .cons hopened hframe hadmits, ho, rfl⟩
    · exact .inl ⟨due, _, os, .cons hopened hframe hadmits, ho, rfl⟩

end Opened

/-! ## states -/

/-- A primary of one token is that token. -/
theorem Derives.eq_singleton {level : Level} {ts : List Token} {t : Token}
    (h : Derives level ts (.terminal t)) : ts = [t] := by
  generalize htree : Tree.terminal t = tree at h
  induction h with
  | atom => cases htree; rfl
  | loosen _ ih => exact ih htree
  | _ => cases htree

namespace Parser

/-- The tokens lead to the state from the beginning of a text. -/
inductive State.Reads (goal : Goal) : State → List Token → Prop
  | operand {frames : List Frame} {due : Level} {ts : List Token} :
      Opened goal frames due ts → Reads goal ⟨goal, frames, .operand⟩ ts
  | continuation {frames : List Frame} {due : Level} {ts us : List Token} {operand : Tree} :
      Opened goal frames due ts → Derives .primary us operand →
      Reads goal ⟨goal, frames, .continuation operand⟩ (ts ++ us)
  | boundName {frames : List Frame} {ts : List Token} {quantifier : Token} :
      Opened goal frames .quantified ts →
      quantifier.kind = .kwForall ∨ quantifier.kind = .kwExists →
      Reads goal ⟨goal, frames, .boundName quantifier⟩ (ts ++ [quantifier])
  | boundColon {frames : List Frame} {ts : List Token} {quantifier name : Token} :
      Opened goal frames .quantified ts →
      quantifier.kind = .kwForall ∨ quantifier.kind = .kwExists → name.kind.isName →
      Reads goal ⟨goal, frames, .boundColon quantifier name⟩ (ts ++ [quantifier, name])
  | definedName {keyword : Token} :
      goal = .statement → keyword.kind = .kwLet → Reads goal ⟨goal, [], .definedName⟩ [keyword]
  | assign {keyword name : Token} :
      goal = .statement → keyword.kind = .kwLet → name.kind.isName →
      Reads goal ⟨goal, [], .assign name⟩ [keyword, name]

namespace State.Reads

variable {goal : Goal} {s s' : State} {ts us : List Token} {t : Token} {frames : List Frame}
  {due : Level} {operand tree : Tree}

theorem initial (goal : Goal) : Reads goal (.initial goal) [] := .operand .nil

/-- A construct is opened in a place that admits it. -/
theorem enter {frame : Frame} {own inner : Level} (h : Opened goal frames due ts)
    (hframe : frame.Spells inner own us) (hadmits : due ≤ own) (before : Due) :
    Reads goal (State.enter ⟨goal, frames, before⟩ frame) (ts ++ us) :=
  .operand (.cons h hframe hadmits)

/-- A definition begins where a statement may begin. -/
theorem eq_nil_of_slot (h : Opened goal frames due ts)
    (hslot : State.slot ⟨goal, frames, .operand⟩ = .statement) :
    goal = .statement ∧ frames = [] ∧ ts = [] := by
  cases h with
  | nil => cases goal <;> first | exact ⟨rfl, rfl, rfl⟩ | cases hslot
  | declared | defined => cases hslot
  | cons _ hframe =>
    cases hframe with
    | operation hop =>
      simp only [State.slot, Frame.slot, hop] at hslot
      rcases Level.IsInfix.cases ⟨_, hop⟩ with rfl | rfl | rfl | rfl | rfl | rfl | rfl | rfl <;>
        cases hslot
    | _ => cases hslot

/-- Reading a token where an operand is due. -/
theorem stepOperand (h : Opened goal frames due ts)
    (hstep : State.stepOperand ⟨goal, frames, .operand⟩ t = some s') :
    Reads goal s' (ts ++ [t]) := by
  have hdemands := h.demands
  unfold State.stepOperand at hstep
  split at hstep
  · next hkind =>
    cases hstep
    exact enter h (.paren hkind) due.le_primary _
  · next hkind =>
    split at hstep
    · next hallows =>
      cases hstep
      exact enter h (.sign (.inl hkind)) (hdemands.sign hallows) _
    · cases hstep
  · next hkind =>
    split at hstep
    · next hallows =>
      cases hstep
      exact enter h (.sign (.inr hkind)) (hdemands.sign hallows) _
    · cases hstep
  · next hkind =>
    split at hstep
    · next hallows =>
      cases hstep
      exact enter h (.negation hkind) (hdemands.negation hallows) _
    · cases hstep
  · next hkind =>
    split at hstep
    · next hallows =>
      cases hstep
      exact .boundName (hdemands.quantifier hallows ▸ h) (.inl hkind)
    · cases hstep
  · next hkind =>
    split at hstep
    · next hallows =>
      cases hstep
      exact .boundName (hdemands.quantifier hallows ▸ h) (.inr hkind)
    · cases hstep
  · next hkind =>
    split at hstep
    · next hslot =>
      cases hstep
      obtain ⟨hgoal, rfl, rfl⟩ := eq_nil_of_slot h hslot
      exact .definedName hgoal hkind
    · cases hstep
  · split at hstep
    · next hatom =>
      cases hstep
      exact .continuation h (.atom hatom)
    · cases hstep

/-- Reading a closing parenthesis. -/
theorem close (h : Opened goal frames due ts) (ho : Derives .primary us operand)
    (ht : t.kind = .closeParen)
    (hclose : State.close ⟨goal, frames, .continuation operand⟩ operand t = some s') :
    Reads goal s' (ts ++ us ++ [t]) := by
  unfold State.close at hclose
  split at hclose
  · next body opening outer hcollapse =>
    cases hclose
    have hcompleted := h.collapse Frame.endsBeforeClosing (ho.mono due.le_primary)
    simp only [hcollapse] at hcompleted
    rcases hcompleted with ⟨due', vs, bs, hopened, hbody, htokens⟩ | ⟨hnil, -⟩
    · cases hopened with
      | cons houter hframe =>
        cases hframe with
        | paren hopening =>
          have hderives := Derives.enclosed hopening ht hbody
          rw [htokens, List.append_assoc, List.append_assoc]
          exact .continuation houter hderives
    · cases hnil
  · cases hclose

/-- Reading a colon behind a name that begins a statement. -/
theorem declare {name : Token} (h : Opened goal frames due ts) (ho : Derives .primary us operand)
    (ht : t.kind = .colon)
    (hname : State.loneName? ⟨goal, frames, .continuation operand⟩ = some name) :
    Reads goal (State.enter ⟨goal, frames, .continuation operand⟩ (.declared name t))
      (ts ++ us ++ [t]) := by
  unfold State.loneName? at hname
  split at hname
  · next token hgoal hframes hdue =>
    split at hname
    · next hisName =>
      cases hname
      cases hdue
      subst hframes
      obtain ⟨-, rfl⟩ := h.eq_nil
      rw [ho.eq_singleton]
      exact .operand (.declared hgoal hisName ht)
    · cases hname
  · cases hname

/-- Reading a dot behind the type of a bound name. -/
theorem quantify {quantifier name colon : Token}
    (h : Opened goal (.boundType quantifier name colon :: frames) due ts)
    (ho : Derives .primary us operand) (ht : t.kind = .dot) :
    Reads goal (State.enter ⟨goal, frames, .continuation operand⟩
      (.quantified quantifier (.binary colon (.terminal name) operand))) (ts ++ us ++ [t]) := by
  cases h with
  | @cons _ _ _ _ _ vs _ hopened hframe hadmits =>
    cases hframe with
    | boundType hq hname hcolon =>
      have htokens : vs ++ [quantifier, name, colon] ++ us ++ [t] =
          vs ++ (quantifier :: name :: colon :: us ++ [t]) := by simp
      rw [htokens]
      exact enter hopened (.quantified hq hname hcolon ho ht) hadmits _

/-- Reading a token after an operand. -/
theorem stepContinuation (h : Opened goal frames due ts) (ho : Derives .primary us operand)
    (hstep : State.stepContinuation ⟨goal, frames, .continuation operand⟩ operand t = some s') :
    Reads goal s' (ts ++ us ++ [t]) := by
  by_cases hgoes : ∀ frame, frames.head? = some frame → frame.GoesOn
  · rw [State.stepContinuation_eq hgoes] at hstep
    split at hstep
    · next level hop =>
      obtain ⟨due', vs, ls, hopened, hadmits, hleft, htokens⟩ :=
        h.collapse_endsBefore (h.due_ne_primary hgoes) ⟨_, hop⟩ ho due.le_primary
          level.leftOperand.le_primary
      cases hstep
      rw [htokens, List.append_assoc]
      exact enter hopened (.operation hop hleft) hadmits _
    · split at hstep
      · next hkind => exact close h ho hkind hstep
      · next hkind =>
        obtain ⟨name, hname, rfl⟩ := Option.map_eq_some_iff.1 hstep
        exact declare h ho hkind hname
      · cases hstep
  · -- the operand is a type
    cases frames with
    | nil => exact (hgoes (fun _ h => nomatch h)).elim
    | cons frame outer =>
      cases frame with
      | boundType quantifier name colon =>
        simp only [State.stepContinuation] at hstep
        split at hstep
        · next hdot =>
          cases hstep
          exact quantify h ho hdot
        · cases hstep
      | declared => cases hstep
      | _ => exact (hgoes (by rintro frame ⟨⟩; trivial)).elim

/-- Reading a token that can come next. -/
theorem step (h : Reads goal s ts) (hstep : s.step t = some s') : Reads goal s' (ts ++ [t]) := by
  cases h with
  | operand hopened => exact stepOperand hopened hstep
  | continuation hopened ho => exact stepContinuation hopened ho hstep
  | boundName hopened hq =>
    simp only [State.step] at hstep
    split at hstep
    · next hname =>
      cases hstep
      rw [List.append_assoc]
      exact .boundColon hopened hq hname
    · cases hstep
  | boundColon hopened hq hname =>
    simp only [State.step] at hstep
    split at hstep
    · next hcolon =>
      cases hstep
      rw [List.append_assoc]
      exact enter hopened (.boundType hq hname hcolon) (Nat.le_refl _) _
    · cases hstep
  | definedName hgoal hkeyword =>
    simp only [State.step] at hstep
    split at hstep
    · next hname =>
      cases hstep
      exact .assign hgoal hkeyword hname
    · cases hstep
  | assign hgoal hkeyword hname =>
    simp only [State.step] at hstep
    split at hstep
    · next hassign =>
      cases hstep
      exact .operand (.defined hgoal hkeyword hname hassign)
    · cases hstep

/-- Where a text may end it has been derived. -/
theorem finish? (h : Reads goal s ts) (hfinish : s.finish? = some tree) : goal.Derives ts tree := by
  cases h with
  | continuation hopened ho =>
    simp only [State.finish?] at hfinish
    split at hfinish
    · next hcollapse =>
      cases hfinish
      have hcompleted := hopened.collapse (fun _ => true) (ho.mono (Level.le_primary _))
      simp only [hcollapse] at hcompleted
      rcases hcompleted with ⟨due', vs, bs, hnil, hderives, htokens⟩ | ⟨-, hderives⟩
      · obtain ⟨rfl, rfl⟩ := hnil.eq_nil
        rw [htokens]
        exact Goal.derives_of_expression hderives
      · exact hderives
    · cases hfinish
  | _ => cases hfinish

/-- At the beginning of a statement nothing has been read. -/
theorem eq_nil (h : Reads goal (.initial goal) ts) : ts = [] := by
  cases h with
  | operand hopened => exact hopened.eq_nil.2

end State.Reads

end Parser

end ArithLogic
