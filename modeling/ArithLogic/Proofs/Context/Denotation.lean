import ArithLogic.Proofs.Context.Scopes

/-!
# ArithLogic.Proofs.Context.Denotation

What handles denote in a well formed context.  Every handle in range denotes
a term, and that term is put together from what the parts of its node denote
(`WellFormed.term?_eq`).  From there on nobody looks at the recursion behind
`Context.term?` any more.
-/

namespace ArithLogic

/-- The node with its children replaced. -/
def Node.map {ρ σ : Type} (f : ρ → σ) : Node ρ → Node σ
  | id name => .id name
  | bool value => .bool value
  | int value => .int value
  | var name decl => .var name decl
  | additive op left right => .additive op (f left) (f right)
  | scaling op factor operand => .scaling op (f factor) (f operand)
  | sign op operand => .sign op (f operand)
  | relation op left right => .relation op (f left) (f right)
  | connective op left right => .connective op (f left) (f right)
  | not operand => .not (f operand)
  | bind name ty => .bind (f name) ty
  | quantifier op binding body => .quantifier op (f binding) (f body)
  | type ty => .type ty

/-- A node whose children all satisfy `p` is the restriction of itself. -/
theorem Node.exists_restrict? {ρ : Type} {p : ρ → Prop} [DecidablePred p] {node : Node ρ}
    (h : ∀ child ∈ node.children, p child) :
    ∃ view : Node { child // p child }, node.restrict? = some view ∧ view.map (·.1) = node := by
  cases node <;> simp_all [children, restrict?, map]

namespace Context

variable {cx later : Context} {e : NodeRef} {node : Node NodeRef} {t : Term}

theorem WellFormed.children_older (h : cx.WellFormed) (hnode : cx.node? e = some node) :
    ∀ child ∈ node.children, child.index < e.index := by
  intro child hchild
  refine h.older e node hnode child ?_
  cases node <;> simp_all [Node.handles, Node.children]

/-- A node of a well formed context can be viewed, and is what the view shows. -/
theorem WellFormed.exists_view? (h : cx.WellFormed) (hnode : cx.node? e = some node) :
    ∃ view, cx.view? e = some view ∧ view.map (·.1) = node := by
  obtain ⟨view, hview, hmap⟩ := Node.exists_restrict? (h.children_older hnode)
  exact ⟨view, by rw [view?, hnode]; exact hview, hmap⟩

/-- The term of a node whose children denote what they denote in `cx`. -/
def termOf? (cx : Context) : Node NodeRef → Option Term
  | .id name => some (.id name)
  | .bool value => some (.bool value)
  | .int value => some (.int value)
  | .var name decl => some (.var name decl)
  | .additive op left right => do return .additive op (← cx.term? left) (← cx.term? right)
  | .scaling op factor operand => do
    return .scaling op (← cx.literal? factor) (← cx.term? operand)
  | .sign op operand => do return .sign op (← cx.term? operand)
  | .relation op left right => do return .relation op (← cx.term? left) (← cx.term? right)
  | .connective op left right => do return .connective op (← cx.term? left) (← cx.term? right)
  | .not operand => do return .not (← cx.term? operand)
  | .bind name ty => do return .bind (← cx.symbol? name) ty
  | .quantifier op binding body => do
    let (name, ty) ← cx.binding? binding
    return .quantifier op name ty (← cx.term? body)
  | .type ty => some (.type ty)

/-- A handle denotes the term of the node behind it. -/
theorem WellFormed.term?_eq (h : cx.WellFormed) (hnode : cx.node? e = some node) :
    cx.term? e = cx.termOf? node := by
  obtain ⟨view, hview, rfl⟩ := h.exists_view? hnode
  rw [term?, hview]
  cases view <;> rfl

/-- What a binding binds is behind its two handles. -/
theorem binding?_of_node? {binding id : NodeRef} {name : Symbol} {ty : Ty}
    (hbinding : cx.node? binding = some (.bind id ty)) (hid : cx.symbol? id = some name) :
    cx.binding? binding = some (name, ty) := by
  rw [binding?, hbinding]
  simp only [hid, Option.map_some]

section Parts

variable {l r factor operand binding id body : NodeRef} {additive : Additive}
  {relation : Relation} {connective : Connective} {scaling : Scaling} {sign : Sign}
  {quantifier : Quantifier} {value : Int} {name : Symbol} {ty : Ty}

/-! What the parts of a node denote, by what the node denotes. -/

theorem WellFormed.term?_additive (h : cx.WellFormed)
    (hnode : cx.node? e = some (.additive additive l r)) (ht : cx.term? e = some t) :
    ∃ tl tr, cx.term? l = some tl ∧ cx.term? r = some tr ∧ t = .additive additive tl tr := by
  rw [h.term?_eq hnode] at ht
  obtain ⟨tl, hl, ht⟩ := Option.bind_eq_some_iff.1 ht
  obtain ⟨tr, hr, ht⟩ := Option.bind_eq_some_iff.1 ht
  exact ⟨tl, tr, hl, hr, (Option.some.inj ht).symm⟩

theorem WellFormed.term?_relation (h : cx.WellFormed)
    (hnode : cx.node? e = some (.relation relation l r)) (ht : cx.term? e = some t) :
    ∃ tl tr, cx.term? l = some tl ∧ cx.term? r = some tr ∧ t = .relation relation tl tr := by
  rw [h.term?_eq hnode] at ht
  obtain ⟨tl, hl, ht⟩ := Option.bind_eq_some_iff.1 ht
  obtain ⟨tr, hr, ht⟩ := Option.bind_eq_some_iff.1 ht
  exact ⟨tl, tr, hl, hr, (Option.some.inj ht).symm⟩

theorem WellFormed.term?_connective (h : cx.WellFormed)
    (hnode : cx.node? e = some (.connective connective l r)) (ht : cx.term? e = some t) :
    ∃ tl tr, cx.term? l = some tl ∧ cx.term? r = some tr ∧ t = .connective connective tl tr := by
  rw [h.term?_eq hnode] at ht
  obtain ⟨tl, hl, ht⟩ := Option.bind_eq_some_iff.1 ht
  obtain ⟨tr, hr, ht⟩ := Option.bind_eq_some_iff.1 ht
  exact ⟨tl, tr, hl, hr, (Option.some.inj ht).symm⟩

theorem WellFormed.term?_scaling (h : cx.WellFormed)
    (hnode : cx.node? e = some (.scaling scaling factor operand))
    (hvalue : cx.literal? factor = some value) (ht : cx.term? e = some t) :
    ∃ u, cx.term? operand = some u ∧ t = .scaling scaling value u := by
  rw [h.term?_eq hnode, termOf?, hvalue, Option.bind_eq_bind, Option.bind_some] at ht
  obtain ⟨u, ho, ht⟩ := Option.bind_eq_some_iff.1 ht
  exact ⟨u, ho, (Option.some.inj ht).symm⟩

theorem WellFormed.term?_sign (h : cx.WellFormed) (hnode : cx.node? e = some (.sign sign operand))
    (ht : cx.term? e = some t) : ∃ u, cx.term? operand = some u ∧ t = .sign sign u := by
  rw [h.term?_eq hnode] at ht
  obtain ⟨u, ho, ht⟩ := Option.bind_eq_some_iff.1 ht
  exact ⟨u, ho, (Option.some.inj ht).symm⟩

theorem WellFormed.term?_not (h : cx.WellFormed) (hnode : cx.node? e = some (.not operand))
    (ht : cx.term? e = some t) : ∃ u, cx.term? operand = some u ∧ t = .not u := by
  rw [h.term?_eq hnode] at ht
  obtain ⟨u, ho, ht⟩ := Option.bind_eq_some_iff.1 ht
  exact ⟨u, ho, (Option.some.inj ht).symm⟩

theorem WellFormed.term?_quantifier (h : cx.WellFormed)
    (hnode : cx.node? e = some (.quantifier quantifier binding body))
    (hbinding : cx.node? binding = some (.bind id ty)) (hid : cx.symbol? id = some name)
    (ht : cx.term? e = some t) :
    ∃ tb, cx.term? body = some tb ∧ t = .quantifier quantifier name ty tb := by
  rw [h.term?_eq hnode, termOf?, binding?_of_node? hbinding hid, Option.bind_eq_bind,
    Option.bind_some] at ht
  obtain ⟨tb, hb, ht⟩ := Option.bind_eq_some_iff.1 ht
  exact ⟨tb, hb, (Option.some.inj ht).symm⟩

end Parts

/-- Every handle in range denotes a term. -/
theorem WellFormed.exists_term (h : cx.WellFormed) {e : NodeRef} (he : e.index < cx.size) :
    ∃ t, cx.term? e = some t := by
  obtain ⟨node, hnode⟩ := node?_of_index_lt he
  have holder := h.children_older hnode
  have hadmits := h.admits e node hnode
  -- the children are older, so they denote terms by the induction
  have hchild : ∀ child ∈ node.children, ∃ t, cx.term? child = some t := fun child hmem =>
    have := holder child hmem
    h.exists_term (Nat.lt_trans this he)
  rw [h.term?_eq hnode]
  cases node with
  | id | bool | int | var | type => exact ⟨_, rfl⟩
  | additive op l r | relation op l r | connective op l r =>
    obtain ⟨tl, hl⟩ := hchild l (by simp [Node.children])
    obtain ⟨tr, hr⟩ := hchild r (by simp [Node.children])
    exact ⟨_, by simp only [termOf?, hl, hr]; rfl⟩
  | scaling op factor operand =>
    obtain ⟨value, hvalue⟩ := Option.ne_none_iff_exists'.1 hadmits
    obtain ⟨t, ht⟩ := hchild operand (by simp [Node.children])
    exact ⟨_, by simp only [termOf?, hvalue, ht]; rfl⟩
  | sign op operand =>
    obtain ⟨t, ht⟩ := hchild operand (by simp [Node.children])
    exact ⟨_, by simp only [termOf?, ht]; rfl⟩
  | not operand =>
    obtain ⟨t, ht⟩ := hchild operand (by simp [Node.children])
    exact ⟨_, by simp only [termOf?, ht]; rfl⟩
  | bind name ty =>
    obtain ⟨symbol, hsymbol⟩ := Option.ne_none_iff_exists'.1 hadmits
    exact ⟨_, by simp only [termOf?, hsymbol]; rfl⟩
  | quantifier op binding body =>
    obtain ⟨pair, hpair⟩ := Option.ne_none_iff_exists'.1 hadmits
    obtain ⟨t, ht⟩ := hchild body (by simp [Node.children])
    exact ⟨_, by simp only [termOf?, hpair, ht]; rfl⟩
termination_by e.index

end Context

end ArithLogic
