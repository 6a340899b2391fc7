import ArithLogic.Proofs.Elaboration.Derivability

/-!
# ArithLogic.Proofs.Context.Equality

Structural equality in well formed contexts is equality of what is denoted:
`Context.same` holds of two handles exactly when they denote the same term
(`WellFormed.same_iff`).  The walk down both expressions compares variables by
declaration alone, which decides their names as well, and it never compares
two types, which are the same node or different.
-/

namespace ArithLogic.Context

variable {cx : Context}

/-- One layer of the comparison, with the children compared as handles. -/
def sameNodes (cx : Context) : Node NodeRef → Node NodeRef → Bool
  | .id x, .id y => x == y
  | .bool x, .bool y => x == y
  | .int x, .int y => x == y
  | .var _ x, .var _ y => x == y
  | .additive op l r, .additive op' l' r' => op == op' && cx.same r r' && cx.same l l'
  | .scaling op l r, .scaling op' l' r' => op == op' && cx.same r r' && cx.same l l'
  | .sign op x, .sign op' x' => op == op' && cx.same x x'
  | .relation op l r, .relation op' l' r' => op == op' && cx.same r r' && cx.same l l'
  | .connective op l r, .connective op' l' r' => op == op' && cx.same r r' && cx.same l l'
  | .not x, .not x' => cx.same x x'
  | .bind x t, .bind x' t' => t == t' && cx.same x x'
  | .quantifier op x y, .quantifier op' x' y' => op == op' && cx.same y y' && cx.same x x'
  | _, _ => false

/-- Handles are compared by the nodes behind them. -/
theorem WellFormed.same_eq (h : cx.WellFormed) {a b : NodeRef} {x y : Node NodeRef}
    (ha : cx.node? a = some x) (hb : cx.node? b = some y) :
    cx.same a b = (a == b || cx.sameNodes x y) := by
  obtain ⟨view, hview, rfl⟩ := h.exists_view? ha
  rw [same, hview, hb]
  cases view <;> cases y <;> rfl

/-- Nodes that are alike are of one kind. -/
theorem kind_of_sameNodes {x y : Node NodeRef} (h : cx.sameNodes x y = true) :
    x.kind = y.kind := by
  cases x <;> cases y <;> simp_all [sameNodes, Node.kind]

/-- Handles to types are the same if the types are. -/
theorem WellFormed.eq_of_type (h : cx.WellFormed) {a b : NodeRef} {ty : Ty}
    (ha : cx.node? a = some (.type ty)) (hb : cx.node? b = some (.type ty)) : a = b := by
  have hty : ∀ {e : NodeRef}, cx.node? e = some (.type ty) → e = ty.ref := fun he =>
    (h.type_iff _ ty).1 (by simp [type?, he])
  rw [hty ha, hty hb]

/-- A node that holds a name denotes the name. -/
theorem WellFormed.term?_of_symbol? (h : cx.WellFormed) {e : NodeRef} {name : Symbol}
    (he : cx.symbol? e = some name) : cx.term? e = some (.id name) :=
  h.term?_eq (node?_of_symbol? he)

/-- A node that holds a binding denotes the binding. -/
theorem WellFormed.term?_of_binding? (h : cx.WellFormed) {e : NodeRef} {binding : Symbol × Ty}
    (he : cx.binding? e = some binding) : cx.term? e = some (.bind binding.1 binding.2) := by
  obtain ⟨id, hnode, hname⟩ := node?_of_binding? he
  rw [h.term?_eq hnode, termOf?, hname]
  rfl

/-- Two nodes are alike exactly when they denote the same, if that is so of
their children. -/
theorem WellFormed.sameNodes_iff (h : cx.WellFormed) {a b : NodeRef} {x y : Node NodeRef}
    (ha : cx.node? a = some x) (hb : cx.node? b = some y) (hne : a ≠ b)
    (hchild : ∀ child ∈ x.children, ∀ other ∈ y.children,
      (cx.same child other = true ↔ cx.term? child = cx.term? other)) :
    cx.sameNodes x y = true ↔ cx.termOf? x = cx.termOf? y := by
  -- every child denotes a term
  have hterm : ∀ {e : NodeRef} {node : Node NodeRef}, cx.node? e = some node →
      ∀ child ∈ node.children, ∃ t, cx.term? child = some t := by
    intro e node hnode child hmem
    exact h.exists_term (Nat.lt_trans (h.children_older hnode child hmem) (index_lt_of_node? hnode))
  have hx := hterm ha
  have hy := hterm hb
  have hax := h.admits a x ha
  have hby := h.admits b y hb
  have hsame : ∀ {child other : NodeRef} {t t' : Term}, child ∈ x.children → other ∈ y.children →
      cx.term? child = some t → cx.term? other = some t' →
      (cx.same child other = true ↔ t = t') := by
    intro child other t t' hc ho ht ht'
    rw [hchild child hc other ho, ht, ht', Option.some.injEq]
  obtain ⟨tx, htx⟩ := h.exists_term (index_lt_of_node? ha)
  obtain ⟨ty, hty⟩ := h.exists_term (index_lt_of_node? hb)
  rw [h.term?_eq ha] at htx
  rw [h.term?_eq hb] at hty
  by_cases hkind : x.kind = y.kind
  · cases x <;> cases y <;> first | (exfalso; simp [Node.kind] at hkind; done) | skip
    case id.id | bool.bool | int.int => simp [sameNodes, termOf?]
    case type.type ty ty' =>
      simp only [sameNodes, termOf?, Option.some.injEq, Term.type.injEq, Bool.false_eq_true,
        false_iff]
      rintro rfl
      exact hne (h.eq_of_type ha hb)
    case var.var name d name' d' =>
      -- a variable is spelled as it was declared
      have hname : cx.declName? d = some name := hax
      have hname' : cx.declName? d' = some name' := hby
      simp only [sameNodes, termOf?, beq_iff_eq, Option.some.injEq, Term.var.injEq]
      refine ⟨?_, fun heq => heq.2⟩
      rintro rfl
      exact ⟨Option.some.inj (hname.symm.trans hname'), rfl⟩
    case additive.additive op l r op' l' r' | relation.relation op l r op' l' r'
        | connective.connective op l r op' l' r' =>
      obtain ⟨tl, hl⟩ := hx l (by simp [Node.children])
      obtain ⟨tr, hr⟩ := hx r (by simp [Node.children])
      obtain ⟨tl', hl'⟩ := hy l' (by simp [Node.children])
      obtain ⟨tr', hr'⟩ := hy r' (by simp [Node.children])
      have hleft := hsame (by simp [Node.children]) (by simp [Node.children]) hl hl'
      have hright := hsame (by simp [Node.children]) (by simp [Node.children]) hr hr'
      simp only [sameNodes, termOf?, hl, hr, hl', hr', Bool.and_eq_true, beq_iff_eq, hleft, hright]
      grind
    case sign.sign op operand op' operand' =>
      obtain ⟨t, ht⟩ := hx operand (by simp [Node.children])
      obtain ⟨t', ht'⟩ := hy operand' (by simp [Node.children])
      have hoperand := hsame (by simp [Node.children]) (by simp [Node.children]) ht ht'
      simp only [sameNodes, termOf?, ht, ht', Bool.and_eq_true, beq_iff_eq, hoperand]
      grind
    case not.not operand operand' =>
      obtain ⟨t, ht⟩ := hx operand (by simp [Node.children])
      obtain ⟨t', ht'⟩ := hy operand' (by simp [Node.children])
      have hoperand := hsame (by simp [Node.children]) (by simp [Node.children]) ht ht'
      simp only [sameNodes, termOf?, ht, ht', hoperand]
      grind
    case scaling.scaling op factor operand op' factor' operand' =>
      obtain ⟨value, hvalue⟩ := Option.ne_none_iff_exists'.1 hax
      obtain ⟨value', hvalue'⟩ := Option.ne_none_iff_exists'.1 hby
      obtain ⟨t, ht⟩ := hx operand (by simp [Node.children])
      obtain ⟨t', ht'⟩ := hy operand' (by simp [Node.children])
      have hfactor := hsame (by simp [Node.children]) (by simp [Node.children])
        (h.literal?_eq_some_iff.1 hvalue) (h.literal?_eq_some_iff.1 hvalue')
      have hoperand := hsame (by simp [Node.children]) (by simp [Node.children]) ht ht'
      simp only [sameNodes, termOf?, ht, ht', hvalue, hvalue', Bool.and_eq_true, beq_iff_eq, hfactor,
        hoperand]
      grind
    case bind.bind id ty id' ty' =>
      obtain ⟨name, hname⟩ := Option.ne_none_iff_exists'.1 hax
      obtain ⟨name', hname'⟩ := Option.ne_none_iff_exists'.1 hby
      have hid := hsame (by simp [Node.children]) (by simp [Node.children])
        (h.term?_of_symbol? hname) (h.term?_of_symbol? hname')
      simp only [sameNodes, termOf?, hname, hname', Bool.and_eq_true, beq_iff_eq, hid]
      grind
    case quantifier.quantifier op binding body op' binding' body' =>
      obtain ⟨⟨name, ty⟩, hpair⟩ := Option.ne_none_iff_exists'.1 hax
      obtain ⟨⟨name', ty'⟩, hpair'⟩ := Option.ne_none_iff_exists'.1 hby
      obtain ⟨t, ht⟩ := hx body (by simp [Node.children])
      obtain ⟨t', ht'⟩ := hy body' (by simp [Node.children])
      have hbinding := hsame (by simp [Node.children]) (by simp [Node.children])
        (h.term?_of_binding? hpair) (h.term?_of_binding? hpair')
      have hbody := hsame (by simp [Node.children]) (by simp [Node.children]) ht ht'
      simp only [sameNodes, termOf?, ht, ht', hpair, hpair', Bool.and_eq_true, beq_iff_eq, hbinding,
        hbody]
      grind
  · refine iff_of_false (fun hsame => hkind (kind_of_sameNodes hsame)) fun heq => hkind ?_
    rw [← kind_of_termOf? htx, ← kind_of_termOf? hty, Option.some.inj (htx.symm.trans (heq.trans hty))]

/-- Two handles are alike exactly when they denote the same term. -/
theorem WellFormed.same_iff (h : cx.WellFormed) {a b : NodeRef} (ha : a.index < cx.size)
    (hb : b.index < cx.size) : cx.same a b = true ↔ cx.term? a = cx.term? b := by
  obtain ⟨x, hx⟩ := node?_of_index_lt ha
  obtain ⟨y, hy⟩ := node?_of_index_lt hb
  by_cases hab : a = b
  · subst hab
    simp only [same_refl]
  · have hsame := h.sameNodes_iff hx hy hab fun child hmem other ho =>
      have := h.children_older hx child hmem
      h.same_iff (Nat.lt_trans this ha) (Nat.lt_trans (h.children_older hy other ho) hb)
    rw [h.same_eq hx hy, h.term?_eq hx, h.term?_eq hy, beq_eq_false_iff_ne.2 hab, Bool.false_or]
    exact hsame
termination_by a.index

/-- Handles that denote one term are alike. -/
theorem WellFormed.same_of_term? (h : cx.WellFormed) {a b : NodeRef} {t : Term}
    (ha : cx.term? a = some t) (hb : cx.term? b = some t) : cx.same a b = true :=
  (h.same_iff (index_lt_of_term? ha) (index_lt_of_term? hb)).2 (ha.trans hb.symm)

end ArithLogic.Context
