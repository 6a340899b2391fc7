import ArithLogic.Proofs.Context.Parts
import ArithLogic.Proofs.NormalForm.Refinement

/-!
# ArithLogic.Proofs.NormalForm.Shape

What normal forms look like, node by node.  The term of a normal form is normal,
so are all its parts, and a node that denotes a normal term is no implication
and no equivalence, and if it is a negation it stands in front of a name that is
a formula.  Hence no handle that is reached from a normal form leads to anything
else, whatever was brought into normal form (`normalize_reaches_normal`).
-/

namespace ArithLogic

variable {isFormula : DeclRef → Bool}

/-- The parts of a normal term are normal. -/
theorem Term.IsNormal.part {t u : Term} (h : t.IsNormal isFormula) (hu : u ∈ t.parts) :
    u.IsNormal isFormula := by
  cases t <;> simp only [Term.parts, List.mem_cons, List.not_mem_nil, or_false] at hu
  case additive | relation =>
    rcases hu with rfl | rfl
    · exact h.1
    · exact h.2
  case connective =>
    rcases hu with rfl | rfl
    · exact h.2.1
    · exact h.2.2
  case scaling | quantifier =>
    rcases hu with rfl | rfl
    · trivial
    · exact h
  case sign => exact hu ▸ h
  case not =>
    -- what stands behind the negation is a name
    subst hu
    cases u with
    | id | var => trivial
    | _ => exact h.elim
  case bind => rcases hu with rfl | rfl <;> trivial

namespace Context

variable {cx : Context} {e v : NodeRef} {node : Node NodeRef} {t : Term}

/-- Names denote themselves. -/
theorem WellFormed.node?_of_id (h : cx.WellFormed) {name : Symbol}
    (ht : cx.term? e = some (.id name)) : cx.node? e = some (.id name) := by
  obtain ⟨node, hnode⟩ := node?_of_term? ht
  rw [h.term?_eq hnode] at ht
  have hkind := kind_of_termOf? ht
  cases node <;> simp only [Term.kind, Node.kind, reduceCtorEq] at hkind
  cases ht
  exact hnode

/-- The handle leads to a name that is a formula: to one that is free, or to a
variable that was declared at type `bool`. -/
def IsFormulaName (cx : Context) (e : NodeRef) : Prop :=
  (∃ name, cx.node? e = some (.id name)) ∨
    ∃ name d decl, cx.node? e = some (.var name d) ∧ cx.decl? d = some decl ∧ decl.ty = .bool

/-- A node that denotes a normal term is no implication, no equivalence, and no
negation of anything but a name that is a formula. -/
theorem WellFormed.normal_node (h : cx.WellFormed) (hnode : cx.node? e = some node)
    (ht : cx.term? e = some t) (hnormal : t.IsNormal cx.declaresFormula) :
    node.kind ≠ .connective .imp ∧ node.kind ≠ .connective .iff ∧
      ∀ a, node = .not a → cx.IsFormulaName a := by
  cases node with
  | connective op l r =>
    obtain ⟨tl, tr, -, -, rfl⟩ := h.term?_connective hnode ht
    rcases hnormal.1 with rfl | rfl <;> simp [Node.kind]
  | not operand =>
    obtain ⟨u, hu, rfl⟩ := h.term?_not hnode ht
    refine ⟨by simp [Node.kind], by simp [Node.kind], ?_⟩
    rintro _ ⟨⟩
    obtain ⟨behind, hbehind⟩ := node?_of_term? hu
    cases u with
    | id name => exact .inl ⟨name, h.node?_of_id hu⟩
    | var name d =>
      obtain ⟨decl, hdecl, hty⟩ := declaresFormula_iff.1 hnormal
      rw [(h.eq_var_iff hbehind hu).2 rfl] at hbehind
      exact .inr ⟨name, d, decl, hbehind, hdecl, hty⟩
    | _ => exact hnormal.elim
  | _ => simp [Node.kind]

/-- What is reached from a normal expression is normal. -/
theorem WellFormed.normal_of_reaches (h : cx.WellFormed) (hv : cx.Reaches e v)
    (ht : cx.term? e = some t) (hnormal : t.IsNormal isFormula) :
    ∃ u, cx.term? v = some u ∧ u.IsNormal isFormula := by
  induction hv with
  | refl => exact ⟨t, ht, hnormal⟩
  | tail _ hpoints ih =>
    obtain ⟨u, hu, hnormal⟩ := ih
    obtain ⟨node, hnode, hc⟩ := hpoints
    obtain ⟨part, hpart, hterm⟩ := h.exists_part hnode hu hc
    exact ⟨part, hterm, hnormal.part hpart⟩

end Context

/-- In every context that is reached, every expression, typed or not, has a normal
form under either polarity, and whatever is reached from that is no implication
and no equivalence, and no negation of anything but a name or a variable that was
declared at type `bool`. -/
theorem normalize_reaches_normal {s : Session} (h : s.context.Reachable) {e : NodeRef}
    (he : e.index < s.context.size) (negated : Bool) :
    ∃ e' s', Action.normalize e negated s = .ok (e', s') ∧ ∀ v node, s'.context.Reaches e' v →
      s'.context.node? v = some node →
      node.kind ≠ .connective .imp ∧ node.kind ≠ .connective .iff ∧
        ∀ a, node = .not a → s'.context.IsFormulaName a := by
  have hw := h.wellFormed
  obtain ⟨t, ht⟩ := hw.exists_term he
  obtain ⟨e', s', hrun, hgrows, ht'⟩ := exists_normalize_term hw ht negated
  refine ⟨e', s', hrun, fun v node hv hnode => ?_⟩
  have hnormal := Term.isNormal_normalize s.context.declaresFormula t negated
  obtain ⟨u, hu, hnormal⟩ := hgrows.wellFormed.normal_of_reaches hv ht' hnormal
  rw [← hgrows.declaresFormula] at hnormal
  exact hgrows.wellFormed.normal_node hnode hu hnormal

/-- The formula `p <-> p` under a sign, where no formula belongs, comes out normal
too. -/
theorem normalize_reaches_normal_signed : ∃ e' s',
    Action.normalize ⟨8⟩ true ⟨(Context.selfEquivalence.add (.sign .neg ⟨7⟩)).2, #[]⟩ =
        .ok (e', s') ∧
      ∀ v node, s'.context.Reaches e' v → s'.context.node? v = some node →
        node.kind ≠ .connective .imp ∧ node.kind ≠ .connective .iff ∧
          ∀ a, node = .not a → s'.context.IsFormulaName a := by
  have haccepts : Context.selfEquivalence.Accepts (.sign .neg ⟨7⟩) :=
    Context.accepts_of_children (by decide) trivial (by simp) (by simp)
  have hreachable := Context.selfEquivalence_built.upheld.reachable.make haccepts
  exact normalize_reaches_normal
    (s := ⟨(Context.selfEquivalence.add (.sign .neg ⟨7⟩)).2, #[]⟩) hreachable (by decide) true

end ArithLogic
