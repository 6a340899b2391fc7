import ArithLogic.Analysis
import ArithLogic.Proofs.Context.Reachable
import ArithLogic.Proofs.Printing.Layout

/-!
# ArithLogic.Proofs.Printing.Lines

What the width of the lines does to a printed term.  A term says where its text
may break: before a connective, and after the dot of a quantifier
(`Term.marks`).  Whatever the width, the text is what the marks say, with some of
its gaps at the end of a line (`Term.laid_render`), and with none of them there if
the term fits in one line (`Term.render_of_length_le`).
-/

namespace ArithLogic

open Lexer

namespace Term

/-- The names of the term are words. -/
def Worded : Term → Prop
  | id name | var name _ | bind name _ => IsWord name.text.toList
  | bool _ | int _ | type _ => True
  | additive _ left right | relation _ left right | connective _ left right =>
    left.Worded ∧ right.Worded
  | scaling _ _ operand | sign _ operand | not operand => operand.Worded
  | quantifier _ name _ body => IsWord name.text.toList ∧ body.Worded

/-- The text of an operand, in parentheses if `needed`. -/
def operandMarks (needed : Bool) (ms : List Mark) : List Mark :=
  if needed then inked (spelled .openParen) ++ ms ++ inked (spelled .closeParen) else ms

/-- The text of an operation; what stands in front of the operator is given. -/
def infixMarks (kind : NodeKind) (op : TokenKind) (blank : Mark) (left right : Term)
    (ls rs : List Mark) : List Mark :=
  operandMarks (left.level < kind.level.leftOperand) ls ++ blank :: inked (spelled op) ++
    .char ' ' :: operandMarks (right.level < kind.level.rightOperand) rs

/-- The text of a name with its type. -/
def bindingMarks (name : Symbol) (ty : Ty) : List Mark :=
  inked name.text.toList ++ .char ' ' :: inked (spelled .colon) ++
    .char ' ' :: inked ty.spelling.toList

/-- The text of a term that lies in the bodies of so many quantifiers.  A line may
end before the operator of a connective, and after the dot of a quantifier, where
its body begins. -/
def marks : Term → (bodies : Nat) → List Mark
  | id name, _ | var name _, _ => inked name.text.toList
  | bool value, _ => inked (spelled (if value then .kwTrue else .kwFalse))
  | int value, _ => inked (toString value).toList
  | type ty, _ => inked ty.spelling.toList
  | additive op left right, bodies =>
    infixMarks (.additive op) op.token (.char ' ') left right (left.marks bodies)
      (right.marks bodies)
  | scaling .mul factor operand, bodies =>
    inked (toString factor).toList ++ .char ' ' :: inked (spelled .star) ++
      .char ' ' :: operandMarks (operand.level < Level.product.rightOperand) (operand.marks bodies)
  | scaling .div factor operand, bodies =>
    operandMarks (operand.level < Level.product.leftOperand) (operand.marks bodies) ++
      .char ' ' :: inked (spelled .slash) ++ .char ' ' :: inked (toString factor).toList
  | sign op operand, bodies =>
    inked (spelled op.token) ++ operandMarks (operand.level < Level.sign) (operand.marks bodies)
  | relation op left right, bodies =>
    infixMarks (.relation op) op.token (.char ' ') left right (left.marks bodies)
      (right.marks bodies)
  | connective op left right, bodies =>
    infixMarks (.connective op) op.token (.gap bodies) left right (left.marks bodies)
      (right.marks bodies)
  | not operand, bodies =>
    inked (spelled .kwNot) ++
      .char ' ' :: operandMarks (operand.level < Level.negation) (operand.marks bodies)
  | bind name ty, _ => bindingMarks name ty
  | quantifier op name ty body, bodies =>
    inked (spelled op.token) ++ .char ' ' :: bindingMarks name ty ++
      .char ' ' :: inked (spelled .dot) ++ .gap (bodies + 1) :: body.marks (bodies + 1)

/-- The text of a term on one line. -/
def line (t : Term) : List Char := (t.marks 0).map Mark.toChar

/-! ## what is printed -/

section Marked

variable {bodies depth : Nat} {ls rs ms : List Mark} {left right : Doc Style}

/-- Two texts with a blank between them. -/
theorem marked_spaced (hl : left.Marked bodies ls) (hr : right.Marked bodies rs) :
    (left ++ .space ++ right).Marked bodies (ls ++ .char ' ' :: rs) := by
  have h := Doc.Marked.append (.append hl .space) hr
  rwa [List.append_assoc] at h

theorem marked_operand {needed : Bool} {body : Nat → Doc Style}
    (h : ∀ depth, (body depth).Marked bodies ms) :
    (operandDoc needed body depth).Marked bodies (operandMarks needed ms) := by
  cases needed with
  | false => exact h depth
  | true => exact .group (.append (.append .text (h (depth + 1))) .text)

/-- A line may end before the operator if it is a connective. -/
theorem marked_operation {kind : NodeKind} {op : TokenKind} (hl : left.Marked bodies ls)
    (hr : right.Marked bodies rs) :
    (infixDoc kind op left right).Marked bodies
      (ls ++ (if kind.isLogical then .gap bodies else .char ' ') :: inked (spelled op) ++
        .char ' ' :: rs) := by
  have hblank : (if kind.isLogical then .line else .space : Doc Style).Marked bodies
      [if kind.isLogical then .gap bodies else .char ' '] := by
    cases kind.isLogical with
    | false => exact .space
    | true => exact .line
  have hbehind := Doc.Marked.append hblank
    (.append (.text : (symbolDoc op).Marked bodies (inked (spelled op))) (.append .space hr))
  rw [List.append_assoc]
  exact .group (.append hl hbehind)

end Marked

/-- The document of a term lays out its text. -/
theorem marked_doc (t : Term) (depth bodies : Nat) : (t.doc depth).Marked bodies (t.marks bodies) := by
  have hbinding : ∀ name ty (bodies : Nat),
      (bindingDoc name ty).Marked bodies (bindingMarks name ty) :=
    fun _ _ _ => marked_spaced (marked_spaced .text .text) .text
  induction t generalizing depth bodies with
  | id | var | int | type => exact .text
  | bool value => cases value <;> exact .text
  | additive op l r ihl ihr | relation op l r ihl ihr | connective op l r ihl ihr =>
    exact marked_operation (marked_operand fun depth => ihl depth bodies)
      (marked_operand fun depth => ihr depth bodies)
  | scaling op factor t ih =>
    cases op with
    | mul => exact marked_operation .text (marked_operand fun depth => ih depth bodies)
    | div => exact marked_operation (marked_operand fun depth => ih depth bodies) .text
  | sign op t ih => exact .append .text (marked_operand fun depth => ih depth bodies)
  | not t ih => exact .group (marked_spaced .text (marked_operand fun depth => ih depth bodies))
  | bind name ty => exact hbinding name ty bodies
  | quantifier op name ty body ih =>
    exact .group (.append (marked_spaced (marked_spaced .text (hbinding name ty bodies)) .text)
      (.nest (.append .line (ih depth (bodies + 1)))))

/-- Every break of the document of a term lies in a group. -/
theorem grouped_doc (t : Term) (depth : Nat) : (t.doc depth).Grouped := by
  induction t generalizing depth with
  | sign op t ih =>
    refine ⟨trivial, ?_⟩
    unfold operandDoc
    split
    · trivial
    · exact ih depth
  | scaling op => cases op <;> trivial
  | bind => exact ⟨⟨⟨⟨trivial, trivial⟩, trivial⟩, trivial⟩, trivial⟩
  | _ => trivial

/-- Whatever the width, the text is that of the term, with some of the gaps at the
end of a line. -/
theorem laid_render (t : Term) (width : Nat) : Laid (t.marks 0) (t.render width).toList :=
  (t.marked_doc 0 0).laid width 0 0

/-! ## joined lines -/

theorem phrase_operand {needed : Bool} {ms : List Mark} (h : Phrase ms) :
    Phrase (operandMarks needed ms) := by
  cases needed with
  | false => exact h
  | true => exact ((Phrase.fixed rfl).append h.clean).append (Phrase.fixed rfl).clean

theorem phrase_binding {name : Symbol} (h : IsWord name.text.toList) (ty : Ty) :
    Phrase (bindingMarks name ty) :=
  ((Phrase.word h).spaced (.fixed rfl)).spaced (.word ty.isWord_spelling)

/-- The text of a term is well set if its names are words. -/
theorem phrase_marks {t : Term} (h : t.Worded) (bodies : Nat) : Phrase (t.marks bodies) := by
  induction t generalizing bodies with
  | id | var => exact .word h
  | bool value => exact .fixed (by cases value <;> rfl)
  | int value => exact .literal value
  | type ty => exact .word ty.isWord_spelling
  | additive op _ _ ihl ihr | relation op _ _ ihl ihr =>
    exact ((phrase_operand (ihl h.1 bodies)).spaced (.fixed (by cases op <;> rfl))).spaced
      (phrase_operand (ihr h.2 bodies))
  | connective op _ _ ihl ihr =>
    exact ((phrase_operand (ihl h.1 bodies)).gapped bodies (.fixed (by cases op <;> rfl))).spaced
      (phrase_operand (ihr h.2 bodies))
  | scaling op factor t ih =>
    cases op with
    | mul => exact ((Phrase.literal factor).spaced (.fixed rfl)).spaced (phrase_operand (ih h bodies))
    | div => exact ((phrase_operand (ih h bodies)).spaced (.fixed rfl)).spaced (.literal factor)
  | sign op t ih =>
    have hsign : Phrase (inked (spelled op.token)) := .fixed (by cases op <;> rfl)
    exact hsign.append (phrase_operand (ih h bodies)).clean
  | not t ih => exact (Phrase.fixed rfl).spaced (phrase_operand (ih h bodies))
  | bind name ty => exact phrase_binding h ty
  | quantifier op name ty body ih =>
    have hword : Phrase (inked (spelled op.token)) := .fixed (by cases op <;> rfl)
    exact ((hword.spaced (phrase_binding h.1 ty)).spaced (.fixed rfl)).gapped _ (ih h.2 _)

variable {t : Term}

/-- Joining the lines of a printed term gives its one line. -/
theorem joinLines_render (h : t.Worded) (width : Nat) :
    joinLines false (t.render width).toList = t.line :=
  (t.laid_render width).joinLines_eq (phrase_marks h 0).clean

/-- A term that fits in a line is printed in one. -/
theorem render_of_length_le (h : t.Worded) {width : Nat} (hfits : t.line.length ≤ width) :
    (t.render width).toList = t.line := by
  have hmarked := t.marked_doc 0 0
  have hwidth : (t.doc 0).flatWidth = t.line.length := by
    rw [hmarked.flatWidth fun c hc => (phrase_marks h 0).clean.lt_of_mem hc, line, List.length_map]
  have hlayout : (t.doc 0).layout width 0 0 0 = ((t.doc 0).flat, 0 + (t.doc 0).flatWidth) :=
    (t.grouped_doc 0).layout_eq (by omega)
  rw [render, pieces, Doc.pieces, hlayout, hmarked.flat, line]

end Term

namespace Context

variable {cx : Context} {e : NodeRef}

/-- The text of an expression in lines of any width.  Joined, its lines are the one
line, and they are that line if it fits.  A line ends only at a gap, before a
connective or after the dot of a quantifier, and the next one is indented by two
columns for each quantifier in whose body the gap lies. -/
theorem WellFormed.render_lines (h : cx.WellFormed) (he : e.index < cx.size)
    (hnames : ∀ t, cx.term? e = some t → t.Worded) :
    ∃ t, cx.term? e = some t ∧ ∀ width : Nat,
      joinLines false (cx.render e width).toList = t.line ∧
      (t.line.length ≤ width → (cx.render e width).toList = t.line) ∧
      ∀ before behind : List Char, (cx.render e width).toList = before ++ '\n' :: behind →
        ∃ front bodies tail rest, t.marks 0 = front ++ .gap bodies :: tail ∧
          joinLines false before = front.map Mark.toChar ∧
          behind = List.replicate (2 * bodies) ' ' ++ rest ∧ rest.head? ≠ some ' ' := by
  obtain ⟨t, hterm⟩ := h.exists_term he
  have hworded := hnames t hterm
  refine ⟨t, hterm, fun width => ?_⟩
  have htext : cx.render e width = t.render width := by rw [render, hterm]
  rw [htext]
  exact ⟨Term.joinLines_render hworded width, Term.render_of_length_le hworded,
    fun _ _ => (t.laid_render width).exists_gap (Term.phrase_marks hworded 0).clean⟩

/-- `forall x : bool . x and x` has 25 characters, and stays on one line where there
is room for them. -/
theorem WellFormed.render_lines_forall :
    let name : Tree := .terminal ⟨.identifier, "x", .origin⟩
    let tree : Tree := .binary ⟨.kwForall, "forall", .origin⟩
      (.binary ⟨.colon, ":", .origin⟩ name (.terminal ⟨.kwBool, "bool", .origin⟩))
      (.binary ⟨.kwAnd, "and", .origin⟩ name name)
    let line : String := "forall x : bool . x and x"
    ∃ e s', (elaborate tree).run ⟨.initial, #[]⟩ = .ok (.ok e, s') ∧
      s'.context.render e.expr 10 = "forall x : bool .\n  x and x" ∧
      (∀ width, 25 ≤ width → (s'.context.render e.expr width).toList = line.toList) ∧
      ∀ width, joinLines false (s'.context.render e.expr width).toList = line.toList := by
  intro name tree line
  have hrun : (elaborate tree).run ⟨.initial, #[]⟩ = .ok (.ok ⟨⟨11⟩, .bool⟩, _) := rfl
  have hw := (Reachable.elaborate .initial hrun).wellFormed
  have hvar := hw.term?_eq (show node? _ ⟨8⟩ = some (.var ⟨0, "x"⟩ ⟨2⟩) from rfl)
  have hvar' := hw.term?_eq (show node? _ ⟨9⟩ = some (.var ⟨0, "x"⟩ ⟨2⟩) from rfl)
  have hand := hw.term?_eq (show node? _ ⟨10⟩ = some (.connective .and ⟨8⟩ ⟨9⟩) from rfl)
  have hforall := hw.term?_eq (show node? _ ⟨11⟩ = some (.quantifier .all ⟨7⟩ ⟨10⟩) from rfl)
  let x : Term := .var ⟨0, "x"⟩ ⟨2⟩
  have hterm : term? _ ⟨11⟩ = some (.quantifier .all ⟨0, "x"⟩ .bool (.connective .and x x)) :=
    hforall.trans (by simp only [termOf?, hand, hvar, hvar']; rfl)
  have hworded : (Term.quantifier .all ⟨0, "x"⟩ .bool (.connective .and x x)).Worded := by
    have hname : IsWord ("x").toList := isWord_cons (by decide) (by decide)
    exact ⟨hname, hname, hname⟩
  obtain ⟨t, ht, hlines⟩ := hw.render_lines (e := ⟨11⟩) (by decide) (by
    intro t ht
    cases hterm.symm.trans ht
    exact hworded)
  cases hterm.symm.trans ht
  have hline : (Term.quantifier .all ⟨0, "x"⟩ .bool (.connective .and x x)).line = line.toList := by
    decide
  refine ⟨_, _, hrun, ?_, fun width hwidth => ?_, fun width => ?_⟩
  · rw [render, hterm]
    decide +kernel
  · have hlength : line.toList.length = 25 := by decide
    rw [(hlines width).2.1 (by rw [hline, hlength]; exact hwidth), hline]
  · rw [(hlines width).1, hline]

end Context

end ArithLogic
