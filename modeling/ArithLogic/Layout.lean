import ArithLogic.Text.Width

/-!
# ArithLogic.Layout

Laying out text in lines of limited width.  A document is text with marked
places where a line may end; a group is put on one line if it fits, together
with whatever must follow it on that line, and otherwise breaks at its own
marked places.  Layout yields *pieces*, in which every text keeps its style,
so that plain and coloured output come from the same layout.
-/

namespace ArithLogic

/-- Text to be laid out, styled with `σ`. -/
inductive Doc (σ : Type)
  /-- A text that is never broken. -/
  | text (style : σ) (content : String)
  /-- A blank. -/
  | space
  /-- A blank, or the end of a line. -/
  | line
  /-- One document after the other. -/
  | append (first second : Doc σ)
  /-- The lines that begin within are indented by more columns. -/
  | nest (columns : Nat) (body : Doc σ)
  /-- All on one line, if that fits. -/
  | group (body : Doc σ)
  deriving DecidableEq

/-- What a layout consists of. -/
inductive Piece (σ : Type)
  | text (style : σ) (content : String)
  | space
  | newline (indent : Nat)
  deriving DecidableEq

namespace Doc

variable {σ : Type}

instance : Append (Doc σ) := ⟨append⟩

/-- The width on one line. -/
def flatWidth : Doc σ → Nat
  | text _ content => Text.width content
  | space | line => 1
  | append first second => first.flatWidth + second.flatWidth
  | nest _ body | group body => body.flatWidth

/-- The pieces on one line. -/
def flat : Doc σ → List (Piece σ)
  | text style content => [.text style content]
  | space | line => [.space]
  | append first second => first.flat ++ second.flat
  | nest _ body | group body => body.flat

/-- What is left of `room` columns after the document on one line; nothing
if it is wider than that. -/
def remaining? : Doc σ → (room : Nat) → Option Nat
  | text _ content, room =>
    if Text.width content ≤ room then some (room - Text.width content) else none
  | space, room | line, room => if 1 ≤ room then some (room - 1) else none
  | append first second, room => do second.remaining? (← first.remaining? room)
  | nest _ body, room | group body, room => body.remaining? room

/-- The columns before the first place where a line may end, and whether there
is such a place. -/
def lead : Doc σ → Nat × Bool
  | text _ content => (Text.width content, false)
  | space => (1, false)
  | line => (0, true)
  | append first second =>
    match first.lead with
    | (columns, true) => (columns, true)
    | (columns, false) =>
      let (more, ends) := second.lead
      (columns + more, ends)
  | nest _ body | group body => body.lead

/-- The columns up to the first place where a line may end; `after` is the
same number for what follows the document. -/
def reach (after : Nat) (doc : Doc σ) : Nat :=
  match doc.lead with
  | (columns, true) => columns
  | (columns, false) => columns + after

/-- Whether a document that starts at `column` stays within the line, together
with the `after` columns that must follow it there. -/
def fits (limit after column : Nat) (doc : Doc σ) : Bool :=
  column ≤ limit &&
    match doc.remaining? (limit - column) with
    | some room => after ≤ room
    | none => false

/-- The pieces of a document that starts at `column`, and the column where it
ends.  Lines that begin in it are indented by `indent`, and `after` is the
reach of what follows it. -/
def layout (limit : Nat) : Doc σ → (indent after column : Nat) → List (Piece σ) × Nat
  | text style content, _, _, column => ([.text style content], column + Text.width content)
  | space, _, _, column => ([.space], column + 1)
  | line, indent, _, _ => ([.newline indent], indent)
  | append first second, indent, after, column =>
    let (before, middle) := first.layout limit indent (second.reach after) column
    let (behind, stop) := second.layout limit indent after middle
    (before ++ behind, stop)
  | nest columns body, indent, after, column => body.layout limit (indent + columns) after column
  | group body, indent, after, column =>
    if body.fits limit after column then (body.flat, column + body.flatWidth)
    else body.layout limit indent after column

/-- The pieces of a whole document. -/
def pieces (limit : Nat) (doc : Doc σ) : List (Piece σ) := (doc.layout limit 0 0 0).1

@[simp] theorem flat_append (a b : Doc σ) : (a ++ b).flat = a.flat ++ b.flat := rfl

@[simp] theorem flatWidth_append (a b : Doc σ) :
    (a ++ b).flatWidth = a.flatWidth + b.flatWidth := rfl

theorem reach_append (a b : Doc σ) (after : Nat) :
    (append a b).reach after = a.reach (b.reach after) := by
  simp only [reach, lead]
  cases ha : a.lead with
  | mk columns ends =>
    cases ends with
    | true => rfl
    | false =>
      cases hb : b.lead with
      | mk more endsB => cases endsB <;> simp [Nat.add_assoc]

theorem remaining?_eq (doc : Doc σ) (room : Nat) :
    doc.remaining? room = if doc.flatWidth ≤ room then some (room - doc.flatWidth) else none := by
  induction doc generalizing room with
  | append a b iha ihb =>
    have hwidth : (append a b).flatWidth = a.flatWidth + b.flatWidth := rfl
    rw [hwidth, remaining?, iha, Option.bind_eq_bind]
    by_cases ha : a.flatWidth ≤ room
    · rw [if_pos ha, Option.bind_some, ihb]
      by_cases hb : b.flatWidth ≤ room - a.flatWidth
      · rw [if_pos hb, if_pos (by omega), Nat.sub_sub]
      · rw [if_neg hb, if_neg (by omega)]
    · rw [if_neg ha, if_neg (by omega), Option.bind_none]
  | nest _ _ ih => exact ih room
  | group _ ih => exact ih room
  | _ => rfl

/-- Fitting is a matter of the width alone. -/
theorem fits_iff {doc : Doc σ} {limit after column : Nat} :
    doc.fits limit after column = true ↔ column + doc.flatWidth + after ≤ limit := by
  simp only [fits, remaining?_eq, Bool.and_eq_true, decide_eq_true_eq]
  split
  · next room hroom =>
    split at hroom
    · cases hroom; simp only [decide_eq_true_eq]; omega
    · cases hroom
  · next hroom =>
    split at hroom
    · cases hroom
    · simp only [Bool.false_eq_true, and_false, false_iff]; omega

/-- The reach never goes beyond the whole line. -/
theorem reach_le (doc : Doc σ) (after : Nat) : doc.reach after ≤ doc.flatWidth + after := by
  induction doc generalizing after with
  | append a b iha ihb =>
    rw [reach_append]
    have ha := iha (b.reach after)
    have hb := ihb after
    simp only [flatWidth]; omega
  | nest _ _ ih => exact ih after
  | group _ ih => exact ih after
  | line => exact Nat.zero_le _
  | _ => exact Nat.le_refl _

end Doc

namespace Piece

variable {σ : Type}

/-- The text of a piece, without its style. -/
def plain : Piece σ → String
  | text _ content => content
  | space => " "
  | newline indent => "\n" ++ String.ofList (List.replicate indent ' ')

/-- The pieces with every break replaced by a blank. -/
def unbroken : Piece σ → Piece σ
  | newline _ => space
  | piece => piece

end Piece

/-- The text of pieces, without their styles. -/
def plainText {σ : Type} (pieces : List (Piece σ)) : String :=
  String.join (pieces.map Piece.plain)

/-- Whatever the width, a layout differs from the line it would be in breaks
alone. -/
theorem Doc.map_unbroken_layout {σ : Type} (doc : Doc σ) (limit indent after column : Nat) :
    (doc.layout limit indent after column).1.map Piece.unbroken = doc.flat := by
  have hflat : ∀ d : Doc σ, d.flat.map Piece.unbroken = d.flat := by
    intro d
    induction d with
    | append a b iha ihb => simp [flat, iha, ihb]
    | nest _ _ ih => exact ih
    | group _ ih => exact ih
    | _ => rfl
  induction doc generalizing indent after column with
  | append a b iha ihb => simp [layout, flat, iha, ihb]
  | nest _ _ ih => exact ih ..
  | group body ih =>
    simp only [layout]
    split
    · exact hflat body
    · exact ih ..
  | _ => rfl

end ArithLogic
