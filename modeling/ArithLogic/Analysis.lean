import ArithLogic.Context.Unfold
import ArithLogic.Elaboration.Statement
import ArithLogic.NormalForm
import ArithLogic.Term.Printer
import ArithLogic.Tree.Parser

/-!
# ArithLogic.Analysis

From a source text to its meaning: reading it as a program, elaborating the
program in a context, and bringing its formulas into normal form.
-/

namespace ArithLogic

/-- Reads a text as a program, and says what was recorded meanwhile. -/
def readProgram (source : String) : List Event × Except SyntaxError (List Tree) :=
  match tokenize source with
  | .error error => ([], .error error)
  | .ok tokens =>
    match Parser.programOfTokens source.utf8ByteSize tokens with
    | .error error => ([.lexed tokens.length], .error error)
    | .ok statements => ([.lexed tokens.length, .parsed statements.length], .ok statements)

/-- Reading with a record reads the same program. -/
theorem readProgram_snd (source : String) : (readProgram source).2 = parseProgram source := by
  unfold readProgram parseProgram
  cases tokenize source with
  | error => rfl
  | ok tokens =>
    show _ = Parser.programOfTokens source.utf8ByteSize tokens
    cases h : Parser.programOfTokens source.utf8ByteSize tokens <;> simp [h]

/-- The normal form of a formula, or of its negation if `negate`. -/
def Elaboration.normalFormOf (e : Elaboration) (negate : Bool) : Action Elaboration :=
  if negate then e.negatedForm else e.normalForm

/-- Elaborates a program, and brings every formula into normal form. -/
def elaborateAndNormalize (statements : List Tree) (negate : Bool) : Action Unit := do
  for outcome in ← elaborateProgram statements do
    if let .ok e := outcome then
      if ← Action.inspect fun cx => e.isFormula cx then
        let _ ← e.normalFormOf negate

/-- Everything recorded while a text is read, elaborated in a context of its
own and brought into normal form. -/
def analysisEvents (source : String) (negate : Bool) : Except Breach (List Event) :=
  match readProgram source with
  | (events, .error _) => .ok events
  | (events, .ok statements) => do
    let (_, s) ← (elaborateAndNormalize statements negate).run ⟨.initial, #[.contextCreated]⟩
    return events ++ s.events.toList ++ [.contextReleased s.context.size s.context.decls.size]

/-- The text of an expression; nothing is printed of a handle that denotes
nothing. -/
def Context.render (cx : Context) (e : NodeRef) (width : Nat) : String :=
  match cx.term? e with
  | some t => t.render width
  | none => ""

/-- The text of an expression, with colours. -/
def Context.renderColored (cx : Context) (e : NodeRef) (width : Nat) : String :=
  match cx.term? e with
  | some t => t.renderColored width
  | none => ""

/-- The width of lines where no other is given. -/
def defaultWidth : Nat := 80

end ArithLogic
