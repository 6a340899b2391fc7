import ArithLogic.Analysis
import ArithLogic.Proofs.NormalForm.Refinement

/-!
# ArithLogic.Proofs.Context.Indiscernible

Expressions that are structurally equal behave alike.  Structural equality looks
at the declarations of variables and never at how they are spelled, printing
looks at the spelling alone, and normal form at handles, of which it uses some
again and builds others anew.  They agree because equal expressions denote one
term (`WellFormed.exists_term_of_same`): its text is the text of both, and its
normal form is what the normal forms of both denote.
-/

namespace ArithLogic

namespace Context

variable {cx : Context} {a b : NodeRef}

/-- Expressions that are alike denote one term. -/
theorem WellFormed.exists_term_of_same (h : cx.WellFormed) (ha : a.index < cx.size)
    (hb : b.index < cx.size) (hsame : cx.same a b = true) :
    ∃ t, cx.term? a = some t ∧ cx.term? b = some t := by
  obtain ⟨t, ht⟩ := h.exists_term ha
  exact ⟨t, ht, ((h.same_iff ha hb).1 hsame).symm.trans ht⟩

/-- Handles that denote one term print alike, with and without colours. -/
theorem render_congr (h : cx.term? a = cx.term? b) (width : Nat) :
    cx.render a width = cx.render b width ∧ cx.renderColored a width = cx.renderColored b width := by
  simp only [render, renderColored, h, and_self]

end Context

/-- Brought into normal form one after the other, handles that denote one term
come out alike. -/
theorem exists_normalize_same {s : Session} {a b : NodeRef} {t : Term} (hw : s.context.WellFormed)
    (ha : s.context.term? a = some t) (hb : s.context.term? b = some t) (negated : Bool) :
    ∃ a' s₁ b' s₂, Action.normalize a negated s = .ok (a', s₁) ∧
      Action.normalize b negated s₁ = .ok (b', s₂) ∧ s₂.context.same a' b' = true := by
  obtain ⟨a', s₁, hruna, hg₁, ha'⟩ := exists_normalize_term hw ha negated
  obtain ⟨b', s₂, hrunb, hg₂, hb'⟩ :=
    exists_normalize_term hg₁.wellFormed (hg₁.within.term? hb) negated
  -- the nodes that the first run appended declare nothing
  rw [hg₁.declaresFormula] at hb'
  exact ⟨a', s₁, b', s₂, hruna, hrunb, hg₂.wellFormed.same_of_term? (hg₂.within.term? ha') hb'⟩

/-- In every context that is reached, two expressions that are structurally equal
denote one term.  Under either polarity their normal forms, built one after the
other, are structurally equal again, and in lines of any width their texts are
the same, with and without colours. -/
theorem Context.Reachable.same_indiscernible {s : Session} (h : s.context.Reachable)
    {a b : NodeRef} (ha : a.index < s.context.size) (hb : b.index < s.context.size)
    (hsame : s.context.same a b = true) :
    (∃ t, s.context.term? a = some t ∧ s.context.term? b = some t) ∧
    (∀ negated, ∃ a' s₁ b' s₂, Action.normalize a negated s = .ok (a', s₁) ∧
      Action.normalize b negated s₁ = .ok (b', s₂) ∧ s₂.context.same a' b' = true) ∧
    ∀ width, s.context.render a width = s.context.render b width ∧
      s.context.renderColored a width = s.context.renderColored b width := by
  have hw := h.wellFormed
  obtain ⟨t, hta, htb⟩ := hw.exists_term_of_same ha hb hsame
  exact ⟨⟨t, hta, htb⟩, exists_normalize_same hw hta htb,
    Context.render_congr (hta.trans htb.symm)⟩

/-- The formula `p <-> p` over one node is indiscernible from the same formula
over two. -/
theorem Context.Reachable.same_indiscernible_selfEquivalence :
    let cx := ((selfEquivalence.add (.var ⟨0, "p"⟩ ⟨2⟩)).2.add (.connective .iff ⟨6⟩ ⟨8⟩)).2
    cx.Reachable ∧ cx.same ⟨7⟩ ⟨9⟩ = true ∧
      (∃ a' s₁ b' s₂, Action.normalize ⟨7⟩ true ⟨cx, #[]⟩ = .ok (a', s₁) ∧
        Action.normalize ⟨9⟩ true s₁ = .ok (b', s₂) ∧ s₂.context.same a' b' = true) ∧
      ∀ width, cx.render ⟨7⟩ width = cx.render ⟨9⟩ width := by
  intro cx
  have hvar : selfEquivalence.Accepts (.var ⟨0, "p"⟩ ⟨2⟩) :=
    accepts_of_children (by simp [Node.children]) rfl (by simp) (by simp)
  have hmade := selfEquivalence_built.upheld.reachable.make hvar
  have hreached : cx.Reachable := hmade.make (accepts_connective (by decide) (by decide))
  have hsame : cx.same ⟨7⟩ ⟨9⟩ = true := by
    have hvars : cx.same ⟨6⟩ ⟨8⟩ = true :=
      hreached.wellFormed.same_eq (x := .var ⟨0, "p"⟩ ⟨2⟩) (y := .var ⟨0, "p"⟩ ⟨2⟩) rfl rfl
    rw [hreached.wellFormed.same_eq (x := .connective .iff ⟨6⟩ ⟨6⟩)
      (y := .connective .iff ⟨6⟩ ⟨8⟩) rfl rfl]
    simp [sameNodes, hvars]
  obtain ⟨-, hnormal, htext⟩ :=
    same_indiscernible (s := ⟨cx, #[]⟩) hreached (by decide) (by decide) hsame
  exact ⟨hreached, hsame, hnormal true, fun width => (htext width).1⟩

end ArithLogic
