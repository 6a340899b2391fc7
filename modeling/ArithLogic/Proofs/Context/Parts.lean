import ArithLogic.Proofs.Context.Equality
import ArithLogic.Term.Typing
import Mathlib.Logic.Relation

/-!
# ArithLogic.Proofs.Context.Parts

What can be reached from a handle.  `cx.Reaches e v` follows the handles that
nodes hold, from `e` down to `v`, and `cx.Uses e d` says that a variable that
refers to the declaration `d` is reached.  However nodes are shared, the handles
of a node denote the parts of the term that it denotes
(`WellFormed.term?_handles`), so what is reached is what occurs in the term.
-/

namespace ArithLogic

/-- The terms right below a term, one for each handle of a node that denotes
it. -/
def Term.parts : Term → List Term
  | additive _ l r | relation _ l r | connective _ l r => [l, r]
  | scaling _ factor t => [int factor, t]
  | sign _ t | not t => [t]
  | bind name ty => [id name, type ty]
  | quantifier _ name ty body => [bind name ty, body]
  | id _ | bool _ | int _ | var _ _ | type _ => []

/-- A declaration occurs in a term if it is the term's own, or occurs in a part. -/
theorem Term.mem_decls_iff {t : Term} {d : DeclRef} :
    d ∈ t.decls ↔ (∃ name, t = .var name d) ∨ ∃ u ∈ t.parts, d ∈ u.decls := by
  cases t <;> simp [decls, parts, eq_comm]

/-- Handles are to children, or to types. -/
theorem Node.child_or_type_of_mem_handles {node : Node NodeRef} {c : NodeRef} (h : c ∈ node.handles) :
    c ∈ node.children ∨ ∃ ty : Ty, c = ty.ref := by
  cases node with
  | bind name ty =>
    rcases List.mem_cons.1 h with rfl | h
    · exact .inl List.mem_cons_self
    · exact .inr ⟨ty, List.mem_singleton.1 h⟩
  | _ => exact .inl h

namespace Context

variable {cx later : Context} {e c v : NodeRef} {node : Node NodeRef} {t : Term} {d : DeclRef}

/-! ## following handles -/

/-- The node behind `p` holds the handle `c`. -/
def Points (cx : Context) (p c : NodeRef) : Prop :=
  ∃ node, cx.node? p = some node ∧ c ∈ node.handles

/-- The handle `v` is `e`, or is reached from it by following handles. -/
def Reaches (cx : Context) : NodeRef → NodeRef → Prop := Relation.ReflTransGen cx.Points

/-- A variable that refers to the declaration is reached. -/
def Uses (cx : Context) (e : NodeRef) (d : DeclRef) : Prop :=
  ∃ v name, cx.Reaches e v ∧ cx.node? v = some (.var name d)

/-- What is reached is the handle itself, or is reached from one that its node
holds. -/
theorem reaches_iff (hnode : cx.node? e = some node) :
    cx.Reaches e v ↔ v = e ∨ ∃ c ∈ node.handles, cx.Reaches c v := by
  rw [Reaches, Relation.ReflTransGen.cases_head_iff]
  refine or_congr eq_comm ⟨?_, ?_⟩
  · rintro ⟨c, ⟨found, hfound, hc⟩, hv⟩
    cases hnode.symm.trans hfound
    exact ⟨c, hc, hv⟩
  · rintro ⟨c, hc, hv⟩
    exact ⟨c, ⟨node, hnode, hc⟩, hv⟩

/-- Only older nodes are reached. -/
theorem WellFormed.index_le_of_reaches (hw : cx.WellFormed) (h : cx.Reaches e v) :
    v.index ≤ e.index := by
  induction h with
  | refl => exact Nat.le_refl _
  | tail _ hstep ih =>
    obtain ⟨node, hnode, hc⟩ := hstep
    exact Nat.le_trans (Nat.le_of_lt (hw.older _ node hnode _ hc)) ih

/-- What a handle reaches does not change when nodes are appended. -/
theorem Within.reaches_iff (h : cx.Within later) (hw : cx.WellFormed) (he : e.index < cx.size) :
    later.Reaches e v ↔ cx.Reaches e v := by
  have hnode : ∀ {b : NodeRef}, b.index ≤ e.index → later.node? b = cx.node? b :=
    fun hle => h.node?_eq (Nat.lt_of_le_of_lt hle he)
  constructor
  · intro hreached
    induction hreached with
    | refl => exact .refl
    | tail _ hstep ih =>
      obtain ⟨node, hfound, hc⟩ := hstep
      rw [hnode (hw.index_le_of_reaches ih)] at hfound
      exact ih.tail ⟨node, hfound, hc⟩
  · intro hreached
    induction hreached with
    | refl => exact .refl
    | tail hbefore hstep ih =>
      obtain ⟨node, hfound, hc⟩ := hstep
      rw [← hnode (hw.index_le_of_reaches hbefore)] at hfound
      exact ih.tail ⟨node, hfound, hc⟩

/-- Only the nodes decide what is reached. -/
theorem reaches_of_nodes (h : later.nodes = cx.nodes) : later.Reaches = cx.Reaches := by
  have hpoints : later.Points = cx.Points := by
    funext p c
    simp only [Points, node?, h]
  exact congrArg Relation.ReflTransGen hpoints

/-- What a handle uses is what its node refers to, or what is used by a handle
that its node holds. -/
theorem uses_iff_handles (hnode : cx.node? e = some node) :
    cx.Uses e d ↔ (∃ name, node = .var name d) ∨ ∃ c ∈ node.handles, cx.Uses c d := by
  constructor
  · rintro ⟨v, name, hv, hvar⟩
    rcases (reaches_iff hnode).1 hv with rfl | ⟨c, hc, hv⟩
    · exact .inl ⟨name, Option.some.inj (hnode.symm.trans hvar)⟩
    · exact .inr ⟨c, hc, v, name, hv, hvar⟩
  · rintro (⟨name, rfl⟩ | ⟨c, hc, v, name, hv, hvar⟩)
    · exact ⟨e, name, .refl, hnode⟩
    · exact ⟨v, name, (reaches_iff hnode).2 (.inr ⟨c, hc, hv⟩), hvar⟩

/-! ## what handles denote -/

/-- The handle of a type denotes the type. -/
theorem WellFormed.term?_ref (h : cx.WellFormed) (ty : Ty) : cx.term? ty.ref = some (.type ty) :=
  h.term?_eq (h.node?_ref ty)

/-- The handles of a node denote the parts of the term that it denotes. -/
theorem WellFormed.term?_handles (h : cx.WellFormed) (hnode : cx.node? e = some node)
    (ht : cx.term? e = some t) : node.handles.map cx.term? = t.parts.map some := by
  rw [h.term?_eq hnode] at ht
  cases node with
  | id | bool | int | var | type => cases ht; rfl
  | additive op l r | relation op l r | connective op l r =>
    obtain ⟨tl, hl, ht⟩ := Option.bind_eq_some_iff.1 ht
    obtain ⟨tr, hr, ht⟩ := Option.bind_eq_some_iff.1 ht
    cases ht
    simp [Node.handles, Node.children, Term.parts, hl, hr]
  | sign op operand | not operand =>
    obtain ⟨u, hu, ht⟩ := Option.bind_eq_some_iff.1 ht
    cases ht
    simp [Node.handles, Node.children, Term.parts, hu]
  | scaling op factor operand =>
    obtain ⟨value, hvalue, ht⟩ := Option.bind_eq_some_iff.1 ht
    obtain ⟨u, hu, ht⟩ := Option.bind_eq_some_iff.1 ht
    cases ht
    simp [Node.handles, Node.children, Term.parts, h.literal?_eq_some_iff.1 hvalue, hu]
  | bind id ty =>
    obtain ⟨name, hname, ht⟩ := Option.bind_eq_some_iff.1 ht
    cases ht
    simp [Node.handles, Term.parts, h.term?_of_symbol? hname, h.term?_ref ty]
  | quantifier op binding body =>
    obtain ⟨⟨name, ty⟩, hpair, ht⟩ := Option.bind_eq_some_iff.1 ht
    obtain ⟨u, hu, ht⟩ := Option.bind_eq_some_iff.1 ht
    cases ht
    simp [Node.handles, Node.children, Term.parts, h.term?_of_binding? hpair, hu]

/-- A handle of a node denotes a part of the term that the node denotes. -/
theorem WellFormed.exists_part (h : cx.WellFormed) (hnode : cx.node? e = some node)
    (ht : cx.term? e = some t) (hc : c ∈ node.handles) :
    ∃ u ∈ t.parts, cx.term? c = some u := by
  have hmem := List.mem_map_of_mem (f := cx.term?) hc
  rw [h.term?_handles hnode ht, List.mem_map] at hmem
  obtain ⟨u, hu, hterm⟩ := hmem
  exact ⟨u, hu, hterm.symm⟩

/-- A part of the term that a node denotes is denoted by a handle of the node. -/
theorem WellFormed.exists_handle (h : cx.WellFormed) (hnode : cx.node? e = some node)
    (ht : cx.term? e = some t) {u : Term} (hu : u ∈ t.parts) :
    ∃ c ∈ node.handles, cx.term? c = some u := by
  have hmem := List.mem_map_of_mem (f := some) hu
  rw [← h.term?_handles hnode ht, List.mem_map] at hmem
  exact hmem

/-- Variables denote themselves, and nothing else does. -/
theorem WellFormed.eq_var_iff (h : cx.WellFormed) (hnode : cx.node? e = some node)
    (ht : cx.term? e = some t) {name : Symbol} : node = .var name d ↔ t = .var name d := by
  rw [h.term?_eq hnode] at ht
  constructor
  · rintro rfl
    exact (Option.some.inj ht).symm
  · rintro rfl
    have hkind := kind_of_termOf? ht
    cases node <;> simp only [Term.kind, Node.kind, reduceCtorEq] at hkind
    cases ht
    rfl

/-- A handle uses the declarations that occur in the term it denotes. -/
theorem WellFormed.uses_iff (h : cx.WellFormed) {e : NodeRef} {t : Term} (ht : cx.term? e = some t) :
    cx.Uses e d ↔ d ∈ t.decls := by
  obtain ⟨node, hnode⟩ := node?_of_term? ht
  -- the handles are to older nodes, so they use what occurs in their terms by the induction
  have hpart : ∀ {c : NodeRef} {u : Term}, c ∈ node.handles → cx.term? c = some u →
      (cx.Uses c d ↔ d ∈ u.decls) := fun {c u} hc hu =>
    have := h.older e node hnode c hc
    h.uses_iff hu
  rw [uses_iff_handles hnode, Term.mem_decls_iff]
  refine or_congr (exists_congr fun name => h.eq_var_iff hnode ht) ⟨?_, ?_⟩
  · rintro ⟨c, hc, huses⟩
    obtain ⟨u, hu, hterm⟩ := h.exists_part hnode ht hc
    exact ⟨u, hu, (hpart hc hterm).1 huses⟩
  · rintro ⟨u, hu, hd⟩
    obtain ⟨c, hc, hterm⟩ := h.exists_handle hnode ht hu
    exact ⟨c, hc, (hpart hc hterm).2 hd⟩
termination_by e.index

end Context

end ArithLogic
