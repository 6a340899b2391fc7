import ArithLogic.Proofs.Context.Equality
import ArithLogic.Proofs.History
import ArithLogic.Proofs.Printing.Retyping

/-!
# ArithLogic.Proofs.Printing.Reelaboration

Printing, reading and elaborating gives an expression back.  Whatever an
analysis has made of an expression elaborates again, in the session where it
was printed, to an expression of the same type with the same text, which is
the same up to the declarations of bound variables.  Quantifiers declare their
variables anew, so the two are structurally equal exactly when no variable in
them is bound (`History.elaborate_render`).
-/

namespace ArithLogic

/-- The text of a result of an analysis, read in lines of any width and
elaborated in the context of the analysis, is an expression of the type of the
result that differs from it in the declarations of its bound variables, and in
nothing if there are none. -/
theorem History.elaborate_render {s : Session} {results : List Elaboration}
    (h : History s results) {r : Elaboration} (hr : r ∈ results)
    (hbinding : s.context.isBinding r.expr = false)
    (hkeeps : ∀ t, s.context.term? r.expr = some t → t.KeepsTypes) (width : Nat) :
    ∃ tree e s', parseExpression (s.context.render r.expr width) = .ok tree ∧
      (elaborate tree).run s = .ok (.ok ⟨e, r.ty⟩, s') ∧ s'.diagnostics = s.diagnostics ∧
      s'.context.AlphaEq s.context.scopes.find? [] r.expr e ∧
      (∀ w, s'.context.render e w = s.context.render r.expr w) ∧
      (s'.context.same r.expr e = true ↔ ¬ s.context.BoundOccurs [] r.expr) := by
  have hsettled := h.settled
  have hw := hsettled.wellFormed
  obtain ⟨hrange, hresolved⟩ := hsettled.results r hr
  have hscoped := hresolved hbinding
  obtain ⟨t, ht⟩ := hw.exists_term hrange
  obtain ⟨tree, hparse, hwritten, hshape⟩ :=
    Term.exists_parseExpression (hscoped.printable hw ht) width
  -- the text is derivable where it was printed, so it elaborates
  obtain ⟨t', n', -, htypes, hsame, hbound⟩ := hscoped.retype hw ht hwritten (hkeeps t ht)
    (hw.follows hsettled.within hsettled.depth) (Nat.le_refl _)
  obtain ⟨e, s', hcourse, -, ht'⟩ := htypes.reached hw rfl rfl rfl
  have hkept := hcourse.kept hw
  have hagain := hcourse.scoped hshape hw hsettled.noKind rfl
  have hlater := hkept.within.term? ht
  have hfaithful : s'.context.Faithful s.context.scopes.find? := fun _ _ hd =>
    hkept.within.declName? (hw.declName?_of_find? hd)
  refine ⟨tree, e, s', ?_, hcourse.run hw, hcourse.diagnostics rfl, ?_, fun w => ?_, ?_⟩
  · rw [Context.render, ht]
    exact hparse
  · exact (hscoped.within hkept.within).alphaEq hkept.wellFormed hagain hlater ht' hsame
      hfaithful.paired
  · rw [Context.render, ht', Context.render, ht]
    exact Term.render_eq_of_unresolved hsame w
  · rw [hkept.wellFormed.same_iff (hkept.within.index_lt hrange) (hkept.fresh _ rfl).2, hlater, ht',
      Option.some.injEq, ← hbound]
    exact eq_comm

/-- A quantified formula, read from its text, elaborates again to one with a
declaration of its own. -/
theorem History.elaborate_render_forall : ∃ s r tree e s', History s [r] ∧
    parseExpression (s.context.render r.expr 80) = .ok tree ∧
    (elaborate tree).run s = .ok (.ok ⟨e, .bool⟩, s') ∧ s'.context.same r.expr e = false := by
  have hparse : (parseProgram "forall x : int . x < 1").toOption = some
      [.binary ⟨.kwForall, "forall", ⟨0, 6⟩⟩
        (.binary ⟨.colon, ":", ⟨9, 10⟩⟩ (.terminal ⟨.identifier, "x", ⟨7, 8⟩⟩)
          (.terminal ⟨.kwInt, "int", ⟨11, 14⟩⟩))
        (.binary ⟨.less, "<", ⟨19, 20⟩⟩ (.terminal ⟨.identifier, "x", ⟨17, 18⟩⟩)
          (.terminal ⟨.literal, "1", ⟨21, 22⟩⟩))] := by decide +kernel
  let known : Context → Bool := fun cx =>
    cx.node? ⟨11⟩ == some (.quantifier .all ⟨7⟩ ⟨10⟩) && cx.node? ⟨7⟩ == some (.bind ⟨6⟩ .int) &&
      cx.node? ⟨10⟩ == some (.relation .lt ⟨8⟩ ⟨9⟩) && cx.node? ⟨8⟩ == some (.var ⟨0, "x"⟩ ⟨2⟩) &&
      cx.declares ⟨6⟩ ⟨2⟩ && cx.term? ⟨11⟩ == some (.quantifier .all ⟨0, "x"⟩ .int
        (.relation .lt (.var ⟨0, "x"⟩ ⟨2⟩) (.int 1)))
  obtain ⟨s, hhistory, hknown⟩ :=
    exists_of_program [⟨⟨11⟩, .bool⟩] known hparse (by decide +kernel)
  simp only [known, Bool.and_eq_true, beq_iff_eq, and_assoc] at hknown
  obtain ⟨hnode, hb, hbody, hvar, hdeclares, hterm⟩ := hknown
  have hbinding : s.context.isBinding ⟨11⟩ = false := by simp [Context.isBinding, hnode]
  have hkeeps : ∀ t, s.context.term? ⟨11⟩ = some t → t.KeepsTypes := by
    intro t ht
    cases hterm.symm.trans ht
    exact ⟨by decide, by decide, trivial, trivial⟩
  obtain ⟨tree, e, s', hagain, hrun, -, -, -, hsame⟩ :=
    hhistory.elaborate_render List.mem_cons_self hbinding hkeeps 80
  -- the variable on the left of the relation is bound
  have hbound : s.context.BoundOccurs [] ⟨11⟩ :=
    .body hnode hb (.child hbody List.mem_cons_self (.var hvar List.mem_cons_self hdeclares))
  exact ⟨s, _, tree, e, s', hhistory, hagain, hrun,
    Bool.eq_false_iff.2 fun heq => hsame.1 heq hbound⟩

end ArithLogic
