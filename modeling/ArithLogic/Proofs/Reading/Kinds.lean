import ArithLogic.Proofs.Reading.Viability
import Mathlib.Data.List.Forall2

/-!
# ArithLogic.Proofs.Reading.Kinds

The parser looks at the kinds of tokens and at nothing else.  Whatever is done
to tokens that leaves their kinds alone is done to the states that the parser
goes through (`State.step_map`), and to the trees that it builds.  So two lists
of tokens of the same kinds are read alike (`readAll_alike`): as trees that
differ in the tokens alone, or both are refused at the same position, for want
of the same things.
-/

namespace ArithLogic

/-! ## trees, frames and states over other tokens -/

/-- The tree over other tokens. -/
def Tree.map (f : Token → Token) : Tree → Tree
  | enclosed opening body closing => enclosed (f opening) (body.map f) (f closing)
  | terminal token => terminal (f token)
  | unary op operand => unary (f op) (operand.map f)
  | binary op left right => binary (f op) (left.map f) (right.map f)

/-- The frame over other tokens. -/
def Frame.map (f : Token → Token) : Frame → Frame
  | sign op => sign (f op)
  | negation op => negation (f op)
  | operation left op => operation (left.map f) (f op)
  | paren opening => paren (f opening)
  | boundType quantifier name colon => boundType (f quantifier) (f name) (f colon)
  | quantified quantifier binding => quantified (f quantifier) (binding.map f)
  | declared name colon => declared (f name) (f colon)
  | defined name assign => defined (f name) (f assign)

namespace Parser

/-- What is due, over other tokens. -/
def Due.map (f : Token → Token) : Due → Due
  | operand => operand
  | continuation tree => continuation (tree.map f)
  | boundName quantifier => boundName (f quantifier)
  | boundColon quantifier name => boundColon (f quantifier) (f name)
  | definedName => definedName
  | assign name => assign (f name)

/-- The state over other tokens. -/
def State.map (f : Token → Token) (s : State) : State :=
  ⟨s.goal, s.frames.map (Frame.map f), s.due.map f⟩

/-- The state of a program over other tokens. -/
def ProgramState.map (f : Token → Token) (s : ProgramState) : ProgramState :=
  ⟨s.finished.map (Tree.map f), s.current.map f⟩

end Parser

/-! ## one token -/

section Map

variable {f : Token → Token}

namespace Frame

theorem complete?_map (frame : Frame) (operand : Tree) :
    (frame.map f).complete? (operand.map f) = (frame.complete? operand).map (Tree.map f) := by
  cases frame <;> rfl

theorem endsBeforeClosing_map (frame : Frame) :
    (frame.map f).endsBeforeClosing = frame.endsBeforeClosing := by
  cases frame <;> rfl

theorem slot_map (hf : ∀ t, (f t).kind = t.kind) (frame : Frame) :
    (frame.map f).slot = frame.slot := by
  cases frame <;> simp only [map, slot, hf]

theorem endsBefore_map (hf : ∀ t, (f t).kind = t.kind) (level : Level) (frame : Frame) :
    (frame.map f).endsBefore level = frame.endsBefore level := by
  cases frame <;> simp only [map, endsBefore, hf]

end Frame

/-- Frames are completed alike over all tokens. -/
theorem collapse_map {ends : Frame → Bool}
    (hends : ∀ frame : Frame, ends (frame.map f) = ends frame) (operand : Tree)
    (frames : List Frame) :
    collapse ends (operand.map f) (frames.map (Frame.map f)) =
      ((collapse ends operand frames).1.map f,
        (collapse ends operand frames).2.map (Frame.map f)) := by
  induction frames generalizing operand with
  | nil => rfl
  | cons frame frames ih =>
    rw [List.map_cons, collapse, collapse, hends, Frame.complete?_map]
    split
    · cases frame.complete? operand with
      | none => rfl
      | some tree => exact ih tree
    · rfl

namespace Parser.State

theorem slot_map (hf : ∀ t, (f t).kind = t.kind) (s : State) : (s.map f).slot = s.slot := by
  obtain ⟨goal, frames, due⟩ := s
  cases frames with
  | nil => rfl
  | cons frame frames => exact frame.slot_map hf

theorem hasOpenParen_map (s : State) : (s.map f).hasOpenParen = s.hasOpenParen := by
  simp only [hasOpenParen, map, List.any_map]
  congr 1
  funext frame
  cases frame <;> rfl

theorem loneName?_map (hf : ∀ t, (f t).kind = t.kind) (s : State) :
    (s.map f).loneName? = s.loneName?.map f := by
  obtain ⟨goal, frames, due⟩ := s
  cases goal with
  | expression => rfl
  | statement =>
    cases frames with
    | cons => rfl
    | nil =>
      cases due with
      | continuation operand =>
        cases operand with
        | terminal token =>
          simp only [loneName?, map, Due.map, Tree.map, List.map_nil, hf]
          split <;> rfl
        | _ => rfl
      | _ => rfl

/-- The same can come next. -/
theorem expected_map (hf : ∀ t, (f t).kind = t.kind) (s : State) :
    (s.map f).expected = s.expected := by
  have hlone : (s.map f).loneName?.isSome = s.loneName?.isSome := by
    rw [s.loneName?_map hf, Option.isSome_map]
  have hslot := s.slot_map hf
  have hopen := s.hasOpenParen_map (f := f)
  obtain ⟨goal, frames, due⟩ := s
  cases due with
  | operand => exact congrArg Slot.expected hslot
  | continuation operand =>
    cases frames with
    | nil => simp only [expected, hlone, hopen]; rfl
    | cons frame frames => cases frame <;> simp only [expected, hlone, hopen] <;> rfl
  | _ => rfl

theorem stepOperand_map (hf : ∀ t, (f t).kind = t.kind) (s : State) (t : Token) :
    (s.map f).stepOperand (f t) = (s.stepOperand t).map (map f) := by
  simp only [stepOperand, hf, s.slot_map hf]
  cases t.kind <;> simp only <;> first | rfl | split <;> rfl

theorem close_map (s : State) (operand : Tree) (t : Token) :
    (s.map f).close (operand.map f) (f t) = (s.close operand t).map (map f) := by
  simp only [close, map, collapse_map Frame.endsBeforeClosing_map]
  obtain ⟨body, frames⟩ := collapse Frame.endsBeforeClosing operand s.frames
  cases frames with
  | nil => rfl
  | cons frame frames => cases frame <;> rfl

theorem goesOn_map {frame : Frame} (h : frame.GoesOn) : (frame.map f).GoesOn := by
  cases frame <;> trivial

theorem stepContinuation_map (hf : ∀ t, (f t).kind = t.kind) (s : State) (operand : Tree)
    (t : Token) :
    (s.map f).stepContinuation (operand.map f) (f t) =
      (s.stepContinuation operand t).map (map f) := by
  by_cases hgoes : ∀ frame, s.frames.head? = some frame → frame.GoesOn
  · have hgoes' : ∀ frame, (s.map f).frames.head? = some frame → frame.GoesOn := by
      intro frame hframe
      rw [map, List.head?_map] at hframe
      obtain ⟨inner, hinner, rfl⟩ := Option.map_eq_some_iff.1 hframe
      exact goesOn_map (hgoes inner hinner)
    rw [stepContinuation_eq hgoes, stepContinuation_eq hgoes', hf]
    cases t.kind.infixLevel? with
    | some level =>
      simp only [map, collapse_map (Frame.endsBefore_map hf level)]
      rfl
    | none =>
      cases t.kind with
      | closeParen => exact s.close_map operand t
      | colon =>
        simp only [s.loneName?_map hf]
        cases s.loneName? <;> rfl
      | _ => rfl
  · -- the operand is a type
    obtain ⟨goal, frames, due⟩ := s
    cases frames with
    | nil => exact (hgoes (by simp)).elim
    | cons frame frames =>
      cases frame with
      | boundType quantifier name colon =>
        simp only [stepContinuation, map, List.map_cons, Frame.map, hf]
        split <;> rfl
      | declared => rfl
      | _ => exact (hgoes (by rintro frame ⟨⟩; trivial)).elim

/-- A step is the same over all tokens of the kind. -/
theorem step_map (hf : ∀ t, (f t).kind = t.kind) (s : State) (t : Token) :
    (s.map f).step (f t) = (s.step t).map (map f) := by
  obtain ⟨goal, frames, due⟩ := s
  cases due with
  | operand => exact stepOperand_map hf ⟨goal, frames, .operand⟩ t
  | continuation operand =>
    exact stepContinuation_map hf ⟨goal, frames, .continuation operand⟩ operand t
  | _ =>
    simp only [step, map, Due.map, hf]
    split <;> rfl

theorem finish?_map (s : State) : (s.map f).finish? = s.finish?.map (Tree.map f) := by
  obtain ⟨goal, frames, due⟩ := s
  cases due with
  | continuation operand =>
    have hall : collapse (fun _ => true) (operand.map f) (frames.map (Frame.map f)) = _ :=
      collapse_map (fun _ => rfl) operand frames
    simp only [finish?, map, Due.map, hall]
    obtain ⟨tree, left⟩ := collapse (fun _ => true) operand frames
    cases left <;> rfl
  | _ => rfl

/-- Only the beginning looks like the beginning. -/
theorem map_eq_initial_iff (s : State) (goal : Goal) :
    s.map f = initial goal ↔ s = initial goal := by
  obtain ⟨goal', frames, due⟩ := s
  cases due <;> cases frames <;> simp [map, initial, Due.map]

end Parser.State

namespace Parser.ProgramState

theorem step_map (hf : ∀ t, (f t).kind = t.kind) (s : ProgramState) (t : Token) :
    (s.map f).step (f t) = (s.step t).map (map f) := by
  simp only [step, map, s.current.step_map hf, s.current.finish?_map, hf]
  cases s.current.step t with
  | some current => rfl
  | none =>
    simp only [Option.map_none]
    split
    · cases s.current.finish? <;> rfl
    · rfl

theorem finish?_map (s : ProgramState) :
    (s.map f).finish? = s.finish?.map (List.map (Tree.map f)) := by
  simp only [finish?, map, s.current.map_eq_initial_iff, s.current.finish?_map]
  split
  · simp
  · cases s.current.finish? <;> simp

end Parser.ProgramState

end Map

/-! ## whole lists -/

/-- The error is at the token of the position, or at the end of the text, at
byte `stop`, if that is where the tokens end. -/
def SyntaxError.AtToken (e : SyntaxError) (stop : Nat) (ts : List Token) (position : Nat) : Prop :=
  match ts[position]? with
  | some t => e.found = .token t ∧ e.span = t.span
  | none => position = ts.length ∧ e.found = .endOfInput ∧ e.span = ⟨stop, stop⟩

/-- Two lists of tokens are read alike, with results that correspond, or both
are refused by the parser at the same position, for want of the same. -/
inductive ReadAlike {α β : Type} (Same : α → β → Prop) (stop stop' : Nat) (ts us : List Token) :
    Except SyntaxError α → Except SyntaxError β → Prop
  | read {a : α} {b : β} : Same a b → ReadAlike Same stop stop' ts us (.ok a) (.ok b)
  | refused (position : Nat) {e e' : SyntaxError} :
      e.stage = .parsing → e'.stage = .parsing → e.AtToken stop ts position →
      e'.AtToken stop' us position → e.expected = e'.expected →
      ReadAlike Same stop stop' ts us (.error e) (.error e')

theorem ReadAlike.cons {α β : Type} {Same : α → β → Prop} {stop stop' : Nat} {ts us : List Token}
    {r : Except SyntaxError α} {r' : Except SyntaxError β}
    (h : ReadAlike Same stop stop' ts us r r') (t u : Token) : ReadAlike Same stop stop' (t :: ts) (u :: us) r r' := by
  cases h with
  | read hsame => exact .read hsame
  | refused position hstage hstage' hat hat' hexpected =>
    refine .refused (position + 1) hstage hstage' ?_ ?_ hexpected
    · simpa [SyntaxError.AtToken] using hat
    · simpa [SyntaxError.AtToken] using hat'

namespace Parser

/-- What corresponds step by step is read alike. -/
theorem readAll_alike {σ τ α β : Type} {step : σ → Token → Option σ} {expected : σ → List Expected}
    {finish? : σ → Option α} {step' : τ → Token → Option τ} {expected' : τ → List Expected}
    {finish?' : τ → Option β} {Tokens : Token → Token → Prop} {Same : α → β → Prop}
    {stop stop' : Nat} (States : σ → τ → Prop)
    (hstep : ∀ s s' t u, States s s' → Tokens t u → Option.Rel States (step s t) (step' s' u))
    (hexpected : ∀ s s', States s s' → expected s = expected' s')
    (hfinish : ∀ s s', States s s' → Option.Rel Same (finish? s) (finish?' s'))
    {ts us : List Token} (htokens : List.Forall₂ Tokens ts us) {s : σ} {s' : τ}
    (hstates : States s s') :
    ReadAlike Same stop stop' ts us (readAll step expected finish? stop s ts)
      (readAll step' expected' finish?' stop' s' us) := by
  induction htokens generalizing s s' with
  | nil =>
    have hfinish := hfinish s s' hstates
    rw [readAll, readAll]
    cases h : finish? s <;> cases h' : finish?' s' <;> rw [h, h'] at hfinish <;> cases hfinish
    · exact .refused 0 rfl rfl ⟨rfl, rfl, rfl⟩ ⟨rfl, rfl, rfl⟩ (hexpected _ _ hstates)
    · next hsame => exact .read hsame
  | @cons t u ts us htoken _ ih =>
    have hstep := hstep s s' t u hstates htoken
    rw [readAll, readAll]
    cases h : step s t <;> cases h' : step' s' u <;> rw [h, h'] at hstep <;> cases hstep
    · exact .refused 0 rfl rfl ⟨rfl, rfl⟩ ⟨rfl, rfl⟩ (hexpected _ _ hstates)
    · next hnext => exact (ih hnext).cons t u

section Alike

variable {f g : Token → Token} {stop stop' : Nat} {ts us : List Token}

theorem rel_of_map_eq {α β γ : Type} {F : α → γ} {G : β → γ} {o : Option α} {o' : Option β}
    (h : o.map F = o'.map G) : Option.Rel (fun a b => F a = G b) o o' := by
  cases o <;> cases o' <;> simp at h
  · exact .none
  · exact .some h

theorem forall₂_of_map_eq (h : ts.map f = us.map g) :
    List.Forall₂ (fun t u => f t = g u) ts us := by
  rwa [← List.forall₂_map_right_iff, ← List.forall₂_map_left_iff, List.forall₂_eq_eq_eq]

/-- Tokens that become the same, their kinds being kept, are read alike as an
expression, which becomes the same. -/
theorem expressionOfTokens_alike (hf : ∀ t, (f t).kind = t.kind) (hg : ∀ t, (g t).kind = t.kind)
    (h : ts.map f = us.map g) :
    ReadAlike (fun a b : Tree => a.map f = b.map g) stop stop' ts us (expressionOfTokens stop ts)
      (expressionOfTokens stop' us) := by
  refine readAll_alike (fun s s' : State => s.map f = s'.map g) ?_ ?_ ?_
    (forall₂_of_map_eq h) rfl
  · intro s s' t u hs ht
    refine rel_of_map_eq ?_
    rw [← s.step_map hf, ← s'.step_map hg, hs, ht]
  · intro s s' hs
    rw [← s.expected_map hf, ← s'.expected_map hg, hs]
  · intro s s' hs
    refine rel_of_map_eq ?_
    rw [← s.finish?_map, ← s'.finish?_map, hs]

/-- And so as a program. -/
theorem programOfTokens_alike (hf : ∀ t, (f t).kind = t.kind) (hg : ∀ t, (g t).kind = t.kind)
    (h : ts.map f = us.map g) :
    ReadAlike (fun as bs : List Tree => as.map (Tree.map f) = bs.map (Tree.map g)) stop stop' ts us
      (programOfTokens stop ts) (programOfTokens stop' us) := by
  refine readAll_alike (fun s s' : ProgramState => s.map f = s'.map g) ?_ ?_ ?_
    (forall₂_of_map_eq h) rfl
  · intro s s' t u hs ht
    refine rel_of_map_eq ?_
    rw [← s.step_map hf, ← s'.step_map hg, hs, ht]
  · intro s s' hs
    rw [← s.current.expected_map hf, ← s'.current.expected_map hg]
    exact congrArg (fun s : ProgramState => s.current.expected) hs
  · intro s s' hs
    refine rel_of_map_eq ?_
    rw [← s.finish?_map, ← s'.finish?_map, hs]

end Alike

end Parser

end ArithLogic
