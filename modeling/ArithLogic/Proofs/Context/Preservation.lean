import ArithLogic.Proofs.Context.Extension

/-!
# ArithLogic.Proofs.Context.Preservation

The single operations on a context keep it well formed and keep what it
holds.  `Accepts` is what an operation that appends a node has to be given:
handles of the context, of the kinds that the node demands.
-/

namespace ArithLogic.Context

variable {cx later : Context}

/-- A node that may be appended: its handles are to nodes of the context and
of the right kinds.  No further node stands for a type. -/
structure Accepts (cx : Context) (node : Node NodeRef) : Prop where
  inRange : ∀ child ∈ node.handles, child.index < cx.size
  admits : cx.Admits node
  notType : ∀ ty, node ≠ .type ty

theorem Within.admits (h : cx.Within later) {node : Node NodeRef} (ha : cx.Admits node) :
    later.Admits node := by
  cases node with
  | scaling op factor operand =>
    obtain ⟨value, hvalue⟩ := Option.ne_none_iff_exists'.1 ha
    simp [Admits, h.literal? hvalue]
  | bind name ty =>
    obtain ⟨symbol, hsymbol⟩ := Option.ne_none_iff_exists'.1 ha
    simp [Admits, h.symbol? hsymbol]
  | quantifier op binding body =>
    obtain ⟨pair, hpair⟩ := Option.ne_none_iff_exists'.1 ha
    simp [Admits, h.binding? hpair]
  | var name d => exact h.declName? ha
  | id name => exact fun horigin => h.find? (ha (horigin.trans h.origin))
  | _ => trivial

/-! ## appending a node -/

theorem node?_add_self (cx : Context) (node : Node NodeRef) :
    (cx.add node).2.node? ⟨cx.size⟩ = some node := by
  rw [node?_add, if_pos rfl]

theorem Within.add (cx : Context) (node : Node NodeRef) : cx.Within (cx.add node).2 where
  node {e found} h := by
    rw [node?_add, if_neg (Nat.ne_of_lt (index_lt_of_node? h)), h]
  decl h := h
  text h := h
  origin := rfl

theorem WellFormed.add {node : Node NodeRef} (h : cx.WellFormed) (ha : cx.Accepts node) :
    (cx.add node).2.WellFormed := by
  have hwithin : cx.Within (cx.add node).2 := .add cx node
  -- whatever holds of the old nodes and of the new one holds of every node
  have hsplit : ∀ {e found}, (cx.add node).2.node? e = some found →
      (e = ⟨cx.size⟩ ∧ found = node) ∨ cx.node? e = some found := by
    intro e found hfound
    rw [node?_add] at hfound
    split at hfound
    · next heq => exact .inl ⟨by rw [← heq], (Option.some.inj hfound).symm⟩
    · exact .inr hfound
  refine { older := ?_, admits := ?_, type_iff := ?_, declared := ?_, defined := ?_, bound := ?_, top := h.top }
  · intro e found hfound child hchild
    rcases hsplit hfound with ⟨rfl, rfl⟩ | hold
    · exact ha.inRange child hchild
    · exact h.older e found hold child hchild
  · intro e found hfound
    rcases hsplit hfound with ⟨rfl, rfl⟩ | hold
    · exact hwithin.admits ha.admits
    · exact hwithin.admits (h.admits e found hold)
  · intro e ty
    constructor
    · intro htype
      rcases hsplit (node?_of_type? htype) with ⟨-, hnew⟩ | hold
      · exact absurd hnew.symm (ha.notType ty)
      · exact (h.type_iff e ty).1 (by simp [Context.type?, hold])
    · intro he
      exact hwithin.type? ((h.type_iff e ty).2 he)
  · intro d decl hdecl
    obtain ⟨name, hname⟩ := Option.ne_none_iff_exists'.1 (h.declared d decl hdecl)
    simp [hwithin.symbol? hname]
  · intro d decl e hdecl hinit
    exact hwithin.index_lt (h.defined d decl e hdecl hinit)
  · intro env henv name d hd
    exact hwithin.declName? (h.bound env henv name d hd)

/-! ## interning a name -/

theorem Within.intern (cx : Context) (text : String) : cx.Within (cx.intern text).2 where
  node h := h
  decl h := h
  text h := Interner.mem_intern.2 (.inr h)
  origin := Interner.origin_intern ..

theorem find?_intern (cx : Context) (text : String) :
    (cx.intern text).2.interner.find? text = some ⟨cx.interner.origin, text⟩ :=
  Interner.find?_eq_some_iff.2
    ⟨Interner.mem_intern.2 (.inl rfl), by simp [Context.intern]⟩

theorem WellFormed.intern (h : cx.WellFormed) (text : String) : (cx.intern text).2.WellFormed where
  older := h.older
  admits e node hnode := (Within.intern cx text).admits (h.admits e node hnode)
  type_iff := h.type_iff
  declared := h.declared
  defined := h.defined
  bound := h.bound
  top := by
    have horigin := (Within.intern cx text).origin
    obtain ⟨env, henv, hbool, hint⟩ := h.top
    exact ⟨env, henv, by rw [horigin]; exact hbool, by rw [horigin]; exact hint⟩

/-- A node may hold any name that was interned here, and any name that comes
from elsewhere. -/
theorem accepts_id {name : Symbol}
    (h : name.origin = cx.interner.origin → cx.interner.find? name.text = some name) :
    cx.Accepts (.id name) where
  inRange := by simp [Node.handles, Node.children]
  admits := h
  notType := by simp

theorem Within.addId (cx : Context) (text : String) : cx.Within (cx.addId text).2 :=
  (Within.intern cx text).trans (.add ..)

theorem WellFormed.addId (h : cx.WellFormed) (text : String) : (cx.addId text).2.WellFormed :=
  (h.intern text).add (accepts_id fun _ => find?_intern cx text)

@[simp] theorem addId_fst (cx : Context) (text : String) : (cx.addId text).1 = ⟨cx.size⟩ := rfl

@[simp] theorem size_addId (cx : Context) (text : String) :
    (cx.addId text).2.size = cx.size + 1 :=
  size_add ..

@[simp] theorem scopes_addId (cx : Context) (text : String) :
    (cx.addId text).2.scopes = cx.scopes := rfl

@[simp] theorem decls_addId (cx : Context) (text : String) :
    (cx.addId text).2.decls = cx.decls := rfl

theorem symbol?_addId (cx : Context) (text : String) :
    (cx.addId text).2.symbol? ⟨cx.size⟩ = some ⟨cx.interner.origin, text⟩ := by
  have hnode : (cx.addId text).2.node? ⟨cx.size⟩ = some (.id ⟨cx.interner.origin, text⟩) :=
    node?_add_self (cx.intern text).2 _
  rw [symbol?, hnode]

end ArithLogic.Context
