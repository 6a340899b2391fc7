import ArithLogic.Proofs.Context.Operations
import ArithLogic.Proofs.Context.Parts
import Mathlib.Data.List.Forall2

/-!
# ArithLogic.Proofs.Context.Unfolding

A handle unfolds to a tree: at each node the node's label, and below it what
the handles of the node unfold to.  Nodes that are shared are unfolded at
every place where they are met, so the tree can be far larger than the
context.  Structural equality is equality of unfoldings.

The comparison is also given as the loop that it is, over a stack of pairs of
handles that remain to be compared (`Context.Compares`).  The loop always
ends, however large the unfoldings are, and it ends with `Context.same`
(`WellFormed.compares_iff`).
-/

namespace ArithLogic

/-- What is left of a node without its children: names by symbol, literals by
value, variables by declaration, types by themselves, and any other node by
its kind. -/
inductive Label
  | id (name : Symbol)
  | bool (value : Bool)
  | int (value : Int)
  | var (decl : DeclRef)
  | type (ty : Ty)
  | operator (kind : NodeKind)
  deriving DecidableEq

namespace Node

variable {x y : Node NodeRef}

/-- The label of a node. -/
def label : Node NodeRef → Label
  | id name => .id name
  | bool value => .bool value
  | int value => .int value
  | var _ decl => .var decl
  | type ty => .type ty
  | node => .operator node.kind

/-- Whether the children of two nodes, behind different handles, remain to be
compared.  Two types are never alike: they would be one node. -/
def alike : Node NodeRef → Node NodeRef → Bool
  | type _, type _ => false
  | x, y => x.label == y.label

theorem alike_iff : x.alike y = true ↔ x.label = y.label ∧ ∀ ty, x ≠ .type ty := by
  cases x <;> cases y <;> simp [alike, label]

/-- Nodes with one label have equally many children. -/
theorem length_handles_of_label (h : x.label = y.label) :
    x.handles.length = y.handles.length := by
  cases x <;> cases y <;> simp_all [label, kind, handles, children]

end Node

/-- The tree below a handle.  What is `missing` is no node. -/
inductive Unfolding
  | missing
  | node (label : Label) (children : List Unfolding)

namespace Context

variable {cx later : Context} {a b e : NodeRef} {x y node : Node NodeRef}

/-! ## unfolding -/

/-- What a handle unfolds to, following handles to older nodes. -/
def unfolding (cx : Context) (e : NodeRef) : Unfolding :=
  match cx.node? e with
  | none => .missing
  | some node =>
    .node node.label <|
      node.handles.map fun c => if _h : c.index < e.index then cx.unfolding c else .missing
termination_by e.index

/-- A node unfolds to its label over what its handles unfold to. -/
theorem WellFormed.unfolding_eq (h : cx.WellFormed) (hnode : cx.node? e = some node) :
    cx.unfolding e = .node node.label (node.handles.map cx.unfolding) := by
  rw [unfolding, hnode]
  refine congrArg (Unfolding.node node.label) (List.map_congr_left fun c hc => ?_)
  rw [dif_pos (h.older e node hnode c hc)]

/-! ## one layer -/

/-- Handles of types are alike if they are of one type. -/
theorem WellFormed.same_ref_iff (h : cx.WellFormed) (ty ty' : Ty) :
    cx.same ty.ref ty'.ref = true ↔ ty = ty' := by
  rw [h.same_iff (h.ref_lt ty) (h.ref_lt ty'), h.term?_ref, h.term?_ref, Option.some.injEq,
    Term.type.injEq]

/-- Two nodes are alike in one layer if their labels agree, they are no types,
and their children are alike pair by pair. -/
theorem WellFormed.sameNodes_iff_forall₂ (h : cx.WellFormed) :
    cx.sameNodes x y = true ↔ x.alike y = true ∧
      List.Forall₂ (fun c c' => cx.same c c' = true) x.handles y.handles := by
  cases x <;> cases y <;> first
    -- nodes of two sorts, or two types
    | exact iff_of_false Bool.false_ne_true fun hboth => Bool.false_ne_true hboth.1
    | simp [sameNodes, Node.alike, Node.label, Node.kind, Node.handles, Node.children,
        h.same_ref_iff] <;> grind

/-- Two handles are alike exactly when their nodes have one label and the
handles of these are alike pair by pair. -/
theorem WellFormed.same_iff_label (h : cx.WellFormed) (ha : cx.node? a = some x)
    (hb : cx.node? b = some y) :
    cx.same a b = true ↔ x.label = y.label ∧
      List.Forall₂ (fun c c' => cx.same c c' = true) x.handles y.handles := by
  by_cases hab : a = b
  · subst hab
    cases ha.symm.trans hb
    simp [List.forall₂_same]
  · rw [h.same_eq ha hb, beq_eq_false_iff_ne.2 hab, Bool.false_or, h.sameNodes_iff_forall₂,
      Node.alike_iff]
    refine and_congr_left fun _ => and_iff_left_of_imp fun hlabel ty hty => hab ?_
    -- two handles to a type are one
    subst hty
    cases y <;> simp only [Node.label, Label.type.injEq, reduceCtorEq] at hlabel
    subst hlabel
    exact h.eq_of_type ha hb

/-- Two handles are alike exactly when they unfold to one tree. -/
theorem WellFormed.same_iff_unfolding (h : cx.WellFormed) {a b : NodeRef}
    (ha : a.index < cx.size) (hb : b.index < cx.size) :
    cx.same a b = true ↔ cx.unfolding a = cx.unfolding b := by
  obtain ⟨x, hx⟩ := node?_of_index_lt ha
  obtain ⟨y, hy⟩ := node?_of_index_lt hb
  -- the children are older, so for them the induction decides
  have hpair : ∀ {c c' : NodeRef}, (c, c') ∈ x.handles.zip y.handles →
      (cx.same c c' = true ↔ cx.unfolding c = cx.unfolding c') := fun {c c'} hc =>
    have hlt := h.older a x hx c (List.of_mem_zip hc).1
    have hlt' := h.older b y hy c' (List.of_mem_zip hc).2
    h.same_iff_unfolding (Nat.lt_trans hlt ha) (Nat.lt_trans hlt' hb)
  rw [h.same_iff_label hx hy, h.unfolding_eq hx, h.unfolding_eq hy, Unfolding.node.injEq,
    ← List.forall₂_eq_eq_eq, List.forall₂_map_left_iff, List.forall₂_map_right_iff,
    List.forall₂_iff_zip, List.forall₂_iff_zip]
  exact and_congr_right fun _ => and_congr_right fun _ =>
    ⟨fun hsame _ _ hc => (hpair hc).1 (hsame hc), fun heq _ _ hc => (hpair hc).2 (heq hc)⟩
termination_by a.index

/-! ## the loop -/

/-- The loop over the pairs of handles that remain to be compared, the next one
in front, ends with an answer.  It stops at the first pair of nodes that are
not alike; below nodes that are, the pairs of their children come next, the
last one in front. -/
inductive Compares (cx : Context) : List (NodeRef × NodeRef) → Bool → Prop
  | done : Compares cx [] true
  | skip {a : NodeRef} {rest : List (NodeRef × NodeRef)} {r : Bool} :
      Compares cx rest r → Compares cx ((a, a) :: rest) r
  | differ {a b : NodeRef} {x y : Node NodeRef} {rest : List (NodeRef × NodeRef)} :
      a ≠ b → cx.node? a = some x → cx.node? b = some y → x.alike y = false →
      Compares cx ((a, b) :: rest) false
  | descend {a b : NodeRef} {x y : Node NodeRef} {rest : List (NodeRef × NodeRef)} {r : Bool} :
      a ≠ b → cx.node? a = some x → cx.node? b = some y → x.alike y = true →
      Compares cx ((x.handles.zip y.handles).reverse ++ rest) r → Compares cx ((a, b) :: rest) r

/-- The loop ends with one answer. -/
theorem Compares.unique {stack : List (NodeRef × NodeRef)} {r r' : Bool}
    (h : cx.Compares stack r) (h' : cx.Compares stack r') : r = r' := by
  induction h generalizing r' with
  | done => cases h'; rfl
  | skip _ ih =>
    cases h' with
    | skip hrest => exact ih hrest
    | differ hne => exact absurd rfl hne
    | descend hne => exact absurd rfl hne
  | differ hne ha hb halike =>
    cases h' with
    | skip => exact absurd rfl hne
    | differ => rfl
    | descend _ ha' hb' halike' =>
      cases ha.symm.trans ha'
      cases hb.symm.trans hb'
      exact absurd (halike.symm.trans halike') Bool.false_ne_true
  | descend hne ha hb halike _ ih =>
    cases h' with
    | skip => exact absurd rfl hne
    | differ _ ha' hb' halike' =>
      cases ha.symm.trans ha'
      cases hb.symm.trans hb'
      exact absurd (halike'.symm.trans halike) Bool.false_ne_true
    | descend _ ha' hb' _ hrest =>
      cases ha.symm.trans ha'
      cases hb.symm.trans hb'
      exact ih hrest

/-- Nodes that are alike in one layer are compared by all pairs of children. -/
theorem WellFormed.sameNodes_eq_all (h : cx.WellFormed) (halike : x.alike y = true) :
    cx.sameNodes x y = (x.handles.zip y.handles).reverse.all fun p => cx.same p.1 p.2 := by
  have hlength := Node.length_handles_of_label (Node.alike_iff.1 halike).1
  rw [Bool.eq_iff_iff, h.sameNodes_iff_forall₂, List.forall₂_iff_zip, List.all_reverse,
    List.all_eq_true]
  simp [halike, hlength]

/-- A pair in front of what remains is compared first, whatever else remains. -/
theorem WellFormed.compares_cons (h : cx.WellFormed) {a b : NodeRef} (ha : a.index < cx.size)
    (hb : b.index < cx.size) {rest : List (NodeRef × NodeRef)} {r : Bool}
    (hrest : cx.Compares rest r) : cx.Compares ((a, b) :: rest) (cx.same a b && r) := by
  by_cases hab : a = b
  · subst hab
    rw [same_refl, Bool.true_and]
    exact .skip hrest
  · obtain ⟨x, hx⟩ := node?_of_index_lt ha
    obtain ⟨y, hy⟩ := node?_of_index_lt hb
    -- pairs of children in front of what remains, by the induction on the older handle
    have hpairs : ∀ pairs ⊆ x.handles.zip y.handles,
        cx.Compares (pairs ++ rest) ((pairs.all fun p => cx.same p.1 p.2) && r) := by
      intro pairs hsub
      induction pairs with
      | nil => exact hrest
      | cons p pairs ih =>
        obtain ⟨hp, hsub⟩ := List.cons_subset.1 hsub
        have hlt := h.older a x hx p.1 (List.of_mem_zip hp).1
        have hlt' := h.older b y hy p.2 (List.of_mem_zip hp).2
        rw [List.all_cons, Bool.and_assoc]
        exact h.compares_cons (Nat.lt_trans hlt ha) (Nat.lt_trans hlt' hb) (ih hsub)
    rw [h.same_eq hx hy, beq_eq_false_iff_ne.2 hab, Bool.false_or]
    cases halike : x.alike y with
    | true =>
      rw [h.sameNodes_eq_all halike]
      exact .descend hab hx hy halike (hpairs _ (List.reverse_subset.2 (List.Subset.refl _)))
    | false =>
      have hdiffer : cx.sameNodes x y = false := by
        rw [← Bool.not_eq_true, h.sameNodes_iff_forall₂, halike]
        simp
      rw [hdiffer, Bool.false_and]
      exact .differ hab hx hy halike
termination_by a.index

/-- The loop ends, and it ends with the answer of structural equality. -/
theorem WellFormed.compares_iff (h : cx.WellFormed) (ha : a.index < cx.size)
    (hb : b.index < cx.size) {r : Bool} : cx.Compares [(a, b)] r ↔ r = cx.same a b := by
  have hends : cx.Compares [(a, b)] (cx.same a b) := by
    simpa using h.compares_cons ha hb .done
  exact ⟨fun hr => hr.unique hends, fun hr => hr ▸ hends⟩

/-! ## later contexts -/

/-- An operation leads on, or a node is made, which may hold a name from
elsewhere. -/
inductive Advances (cx : Context) : Context → Prop
  | step {later : Context} : cx.Step later → Advances cx later
  | make {node : Node NodeRef} : cx.Accepts node → Advances cx (cx.add node).2

/-- Some run of operations leads from the one context to the other. -/
def LeadsTo : Context → Context → Prop := Relation.ReflTransGen Advances

/-- What operations lead to is reached, and holds what there was. -/
theorem LeadsTo.reached (h : cx.LeadsTo later) (hr : cx.Reachable) :
    later.Reachable ∧ cx.Within later := by
  induction h with
  | refl => exact ⟨hr, .refl cx⟩
  | tail _ hadvance ih =>
    cases hadvance with
    | step hstep => exact ⟨(hstep.reached ih.1).1, ih.2.trans (hstep.reached ih.1).2⟩
    | make haccepts => exact ⟨ih.1.make haccepts, ih.2.trans (.add ..)⟩

/-- Handles compare as they did. -/
theorem Within.same_eq (h : cx.Within later) (hw : cx.WellFormed) (hw' : later.WellFormed)
    (ha : a.index < cx.size) (hb : b.index < cx.size) : later.same a b = cx.same a b := by
  obtain ⟨t, ht⟩ := hw.exists_term ha
  obtain ⟨u, hu⟩ := hw.exists_term hb
  rw [Bool.eq_iff_iff, hw.same_iff ha hb, hw'.same_iff (h.index_lt ha) (h.index_lt hb), ht, hu,
    h.term? ht, h.term? hu]

/-- Structural equality is an equivalence. -/
theorem WellFormed.same_equivalence (h : cx.WellFormed) :
    Equivalence fun a b : { e : NodeRef // e.index < cx.size } => cx.same a b = true where
  refl a := cx.same_refl a
  symm {a b} hab := (h.same_iff b.2 a.2).2 ((h.same_iff a.2 b.2).1 hab).symm
  trans {a b c} hab hbc :=
    (h.same_iff a.2 c.2).2 (((h.same_iff a.2 b.2).1 hab).trans ((h.same_iff b.2 c.2).1 hbc))

/-- In a context that is reached, structural equality is equality of
unfoldings, and the loop that decides it ends with that answer.  Later
operations do not change the answer.  It is an equivalence, and a congruence
for the making of nodes, however far apart two nodes are made. -/
theorem Reachable.same_decides_unfolding (h : cx.Reachable) :
    (∀ e node, cx.node? e = some node →
      cx.unfolding e = .node node.label (node.handles.map cx.unfolding)) ∧
    (∀ a b : NodeRef, a.index < cx.size → b.index < cx.size →
      (∀ r, cx.Compares [(a, b)] r ↔ r = cx.same a b) ∧
      (cx.same a b = true ↔ cx.unfolding a = cx.unfolding b) ∧
      ∀ later, cx.LeadsTo later → later.same a b = cx.same a b) ∧
    (Equivalence fun a b : { e : NodeRef // e.index < cx.size } => cx.same a b = true) ∧
    ∀ x y later, cx.Accepts x → (cx.add x).2.LeadsTo later → later.Accepts y →
      x.label = y.label →
      List.Forall₂ (fun c c' => later.same c c' = true) x.handles y.handles →
      (later.add y).2.same (cx.add x).1 (later.add y).1 = true := by
  have hw := h.wellFormed
  refine ⟨fun e node hnode => hw.unfolding_eq hnode, fun a b ha hb => ⟨fun r =>
    hw.compares_iff ha hb, hw.same_iff_unfolding ha hb, fun later hlater => ?_⟩,
    hw.same_equivalence, fun x y later hx hlater hy hlabel hsame => ?_⟩
  · obtain ⟨hr, hwithin⟩ := hlater.reached h
    exact hwithin.same_eq hw hr.wellFormed ha hb
  · obtain ⟨hr, hwithin⟩ := hlater.reached (h.make hx)
    have hlast := (hr.make hy).wellFormed
    have hnode : (later.add y).2.node? (cx.add x).1 = some x :=
      (Within.add later y).node (hwithin.node (node?_add_self cx x))
    refine (hlast.same_iff_label hnode (node?_add_self later y)).2 ⟨hlabel, ?_⟩
    -- the handles of both nodes were there before the last one was made
    rw [List.forall₂_iff_zip] at hsame ⊢
    refine ⟨hsame.1, fun {c c'} hc => ?_⟩
    have hlt := hwithin.index_lt ((Within.add cx x).index_lt (hx.inRange c (List.of_mem_zip hc).1))
    have hlt' := hy.inRange c' (List.of_mem_zip hc).2
    rw [(Within.add later y).same_eq hr.wellFormed hlast hlt hlt']
    exact hsame.2 hc

/-- In the context of `p <-> p` the formula differs from its operand, and two
negations of `p` that are made there are alike. -/
theorem selfEquivalence_same : selfEquivalence.Reachable ∧
    (selfEquivalence.Compares [(⟨6⟩, ⟨7⟩)] false ∧
      selfEquivalence.unfolding ⟨6⟩ ≠ selfEquivalence.unfolding ⟨7⟩) ∧
    ((selfEquivalence.add (.not ⟨6⟩)).2.add (.not ⟨6⟩)).2.same ⟨8⟩ ⟨9⟩ = true := by
  have hreached := selfEquivalence_built.upheld.reachable
  have haccepts : selfEquivalence.Accepts (.not ⟨6⟩) := accepts_not (by decide)
  have hlater : (selfEquivalence.add (.not ⟨6⟩)).2.Accepts (.not ⟨6⟩) := accepts_not (by decide)
  have hdiffer : selfEquivalence.same ⟨6⟩ ⟨7⟩ = false :=
    hreached.wellFormed.same_eq (x := .var ⟨0, "p"⟩ ⟨2⟩) (y := .connective .iff ⟨6⟩ ⟨6⟩) rfl rfl
  obtain ⟨-, hpairs, -, hmakes⟩ := hreached.same_decides_unfolding
  obtain ⟨hloop, hiff, -⟩ := hpairs ⟨6⟩ ⟨7⟩ (by decide) (by decide)
  refine ⟨hreached, ⟨(hloop false).2 hdiffer.symm, fun heq => ?_⟩,
    hmakes _ _ _ haccepts .refl hlater rfl (by simp [Node.handles, Node.children])⟩
  exact Bool.false_ne_true (hdiffer.symm.trans (hiff.2 heq))

end Context

end ArithLogic
