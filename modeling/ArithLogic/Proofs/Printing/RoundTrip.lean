import ArithLogic.Analysis
import ArithLogic.Proofs.Context.Denotation
import ArithLogic.Proofs.Context.Preservation
import ArithLogic.Proofs.Printing.Text

/-!
# ArithLogic.Proofs.Printing.RoundTrip

Reading undoes printing.  The text of an expression of a context, in lines of
any width, is read as one expression again, and the tree is the surface tree
of what was printed, once its parentheses are dropped and the places of its
tokens are forgotten.  Nothing is said of types here: the expression may be of
any shape that names, literals and bindings allow (`Term.Printable`).
-/

namespace ArithLogic.Context

variable {cx : Context} {e : NodeRef}

/-- The text of a printable expression is read as its surface tree. -/
theorem WellFormed.parse_render (h : cx.WellFormed) (he : e.index < cx.size)
    (hp : ∀ t, cx.term? e = some t → t.Printable) (width : Nat) :
    ∃ t tree, cx.term? e = some t ∧ parseExpression (cx.render e width) = .ok tree ∧
      tree.bare = t.surface := by
  obtain ⟨t, hterm⟩ := h.exists_term he
  obtain ⟨tree, hparse, hwritten, -⟩ := Term.exists_parseExpression (hp t hterm) width
  refine ⟨t, tree, hterm, ?_, hwritten.bare⟩
  rw [render, hterm]
  exact hparse

/-- The text `--2` is read as the two signs in front of the literal. -/
theorem WellFormed.parse_render_signs :
    let cx := ((initial.add (.int 2)).2.add (.sign .neg ⟨5⟩)).2.add (.sign .neg ⟨6⟩)
    ∃ tree, parseExpression (cx.2.render cx.1 80) = .ok tree ∧
      tree.bare = .unary (Term.fixedToken .minus)
        (.unary (Term.fixedToken .minus) (Term.literalTree 2)) := by
  intro cx
  have hliteral : (initial.add (.int 2)).2.WellFormed :=
    wellFormed_initial.add ⟨by simp [Node.handles, Node.children], trivial, by simp⟩
  have hsign : ((initial.add (.int 2)).2.add (.sign .neg ⟨5⟩)).2.WellFormed :=
    hliteral.add ⟨by simp [Node.handles, Node.children], trivial, by simp⟩
  have hw : cx.2.WellFormed :=
    hsign.add ⟨by simp [Node.handles, Node.children], trivial, by simp⟩
  have hterm : cx.2.term? cx.1 = some (.sign .neg (.sign .neg (.int 2))) := by
    have houter : cx.2.node? ⟨7⟩ = some (.sign .neg ⟨6⟩) := rfl
    have hinner : cx.2.node? ⟨6⟩ = some (.sign .neg ⟨5⟩) := rfl
    have hint : cx.2.node? ⟨5⟩ = some (.int 2) := rfl
    show cx.2.term? ⟨7⟩ = _
    simp only [hw.term?_eq houter, hw.term?_eq hinner, hw.term?_eq hint, termOf?]
    rfl
  have hp : ∀ t, cx.2.term? cx.1 = some t → t.Printable := by
    intro t ht
    cases hterm.symm.trans ht
    exact (by decide : (0 : Int) ≤ 2)
  obtain ⟨t, tree, ht, hparse, hbare⟩ := hw.parse_render (by decide) hp 80
  cases hterm.symm.trans ht
  exact ⟨tree, hparse, hbare⟩

end ArithLogic.Context
