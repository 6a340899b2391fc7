import ArithLogic.Context.Unfold

/-!
# ArithLogic.Context.WellFormed

The contexts that the operations build.  Every handle is to something older
and of the right kind, the three types are the first nodes and no others, a
variable is spelled as it was declared, and every environment binds a name to
a declaration of that name.
-/

namespace ArithLogic.Context

/-- What a node of a context may refer to. -/
def Admits (cx : Context) : Node NodeRef → Prop
  | .scaling _ factor _ => cx.literal? factor ≠ none
  | .bind name _ => cx.symbol? name ≠ none
  | .quantifier _ binding _ => cx.binding? binding ≠ none
  | .var name decl => cx.declName? decl = some name
  | .id name => name.origin = cx.interner.origin → cx.interner.find? name.text = some name
  | _ => True

/-- A context that is as the operations build it. -/
structure WellFormed (cx : Context) : Prop where
  /-- Nodes refer to older nodes. -/
  older : ∀ e node, cx.node? e = some node → ∀ child ∈ node.handles, child.index < e.index
  /-- Nodes refer to nodes of the right kind. -/
  admits : ∀ e node, cx.node? e = some node → cx.Admits node
  /-- The type nodes are the ones that the types stand for. -/
  type_iff : ∀ e ty, cx.type? e = some ty ↔ e = ty.ref
  /-- A declaration is of a name. -/
  declared : ∀ d decl, cx.decl? d = some decl → cx.symbol? decl.name ≠ none
  /-- The initial value of a definition is a node. -/
  defined : ∀ d decl e, cx.decl? d = some decl → decl.init = some e → e.index < cx.size
  /-- Environments bind names to declarations of those names. -/
  bound : ∀ env ∈ cx.scopes.environments, ∀ name d, env.find? name = some d →
    cx.declName? d = some name
  /-- The outermost environment binds the names of the two types. -/
  top : ∃ env, cx.scopes.environments.getLast? = some env ∧
    env.find? ⟨cx.interner.origin, "bool"⟩ = some ⟨0⟩ ∧
    env.find? ⟨cx.interner.origin, "int"⟩ = some ⟨1⟩

/-- A handle to a node that a context holds can be followed. -/
theorem WellFormed.view?_isSome {cx : Context} (h : cx.WellFormed) {e : NodeRef}
    (he : e.index < cx.size) : (cx.view? e).isSome := by
  obtain ⟨node, hnode⟩ : ∃ node, cx.node? e = some node :=
    ⟨cx.nodes[e.index], Array.getElem?_eq_getElem he⟩
  have holder := h.older e node hnode
  rw [view?, hnode, Option.bind_some]
  cases node <;>
    simp_all [Node.restrict?, Node.handles, Node.children]

/-- The nodes of the initial context, by their places. -/
theorem node?_initial {e : NodeRef} {node : Node NodeRef} (h : initial.node? e = some node) :
    (e = ⟨0⟩ ∧ node = .type .bool) ∨ (e = ⟨1⟩ ∧ node = .type .int) ∨
      (e = ⟨2⟩ ∧ node = .type .kind) ∨ (e = ⟨3⟩ ∧ node = .id ⟨0, "bool"⟩) ∨
      (e = ⟨4⟩ ∧ node = .id ⟨0, "int"⟩) := by
  obtain ⟨index⟩ := e
  match index with
  | 0 | 1 | 2 | 3 | 4 => simp_all [node?, initial, eq_comm]
  | n + 5 => simp [node?, initial] at h

/-- The declarations of the initial context, by their places. -/
theorem decl?_initial {d : DeclRef} {decl : Decl} (h : initial.decl? d = some decl) :
    (d = ⟨0⟩ ∧ decl = ⟨⟨3⟩, .kind, some ⟨0⟩⟩) ∨ (d = ⟨1⟩ ∧ decl = ⟨⟨4⟩, .kind, some ⟨1⟩⟩) := by
  obtain ⟨index⟩ := d
  match index with
  | 0 | 1 => simp_all [decl?, initial, Ty.ref, eq_comm]
  | n + 2 => simp [decl?, initial] at h

/-- The context in which nothing has been built is well formed. -/
theorem wellFormed_initial : initial.WellFormed where
  older e node h child hchild := by
    rcases node?_initial h with ⟨rfl, rfl⟩ | ⟨rfl, rfl⟩ | ⟨rfl, rfl⟩ | ⟨rfl, rfl⟩ | ⟨rfl, rfl⟩ <;>
      simp [Node.handles, Node.children] at hchild
  admits e node h := by
    rcases node?_initial h with ⟨rfl, rfl⟩ | ⟨rfl, rfl⟩ | ⟨rfl, rfl⟩ | ⟨rfl, rfl⟩ | ⟨rfl, rfl⟩ <;>
      simp [Admits, initial, Interner.find?]
  type_iff e ty := by
    constructor
    · intro h
      unfold type? at h
      split at h
      · next found hnode =>
        cases h
        rcases node?_initial hnode with ⟨rfl, h⟩ | ⟨rfl, h⟩ | ⟨rfl, h⟩ | ⟨rfl, h⟩ | ⟨rfl, h⟩ <;>
          cases h <;> rfl
      · cases h
    · rintro rfl
      cases ty <;> rfl
  declared d decl h := by
    rcases decl?_initial h with ⟨rfl, rfl⟩ | ⟨rfl, rfl⟩ <;> simp [symbol?, node?, initial]
  defined d decl e h he := by
    rcases decl?_initial h with ⟨rfl, rfl⟩ | ⟨rfl, rfl⟩ <;> cases he <;> decide
  bound env henv name d h := by
    simp only [initial, List.mem_singleton] at henv
    subst henv
    simp only [Environment.find?, List.lookup_cons, List.lookup_nil] at h
    split at h
    · next heq => cases h; rw [eq_of_beq heq]; decide
    · split at h
      · next heq => cases h; rw [eq_of_beq heq]; decide
      · cases h
  top := ⟨_, rfl, by decide, by decide⟩

end ArithLogic.Context
