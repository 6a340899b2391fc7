import ArithLogic.Proofs.Context.Parts
import ArithLogic.Proofs.Context.Reachable
import ArithLogic.Proofs.Elaboration.Ownership

/-!
# ArithLogic.Proofs.Elaboration.Yield

How many nodes an elaboration appends, and what becomes of them.  The tree
alone decides the number: `tree.weight` counts a node for every operator and
every leaf, parentheses none.  An elaboration that succeeds appends exactly
these, the result last; one that fails stops short of them.  All that is
appended is reached from the result, but for the variable that names the type
of a binding: the binding holds the type itself (`Elaborates.covers`).
-/

namespace ArithLogic

namespace Tree

/-- The number of nodes that the tree is elaborated to.  A binding is a node over
the node of its name. -/
def weight : Tree → Nat
  | enclosed _ body _ => body.weight
  | terminal _ => 1
  | unary _ operand => 1 + operand.weight
  | binary op left right =>
    if op.kind = .colon then 2 + right.weight else 1 + left.weight + right.weight

/-- The places of the nodes that name the types of bindings, when the nodes of the
tree are appended from the place `start` on. -/
def typePlaces : Tree → Nat → List Nat
  | enclosed _ body _, start => body.typePlaces start
  | terminal _, _ => []
  | unary _ operand, start => operand.typePlaces start
  | binary op left right, start =>
    if op.kind = .colon then right.typePlaces start ++ [start + right.weight - 1]
    else left.typePlaces start ++ right.typePlaces (start + left.weight)

variable {op : Token} {left right : Tree} {start place : Nat}

theorem weight_colon (h : op.kind = .colon) : (binary op left right).weight = 2 + right.weight :=
  if_pos h

theorem weight_binary (h : op.kind ≠ .colon) :
    (binary op left right).weight = 1 + left.weight + right.weight :=
  if_neg h

theorem typePlaces_colon (h : op.kind = .colon) : (binary op left right).typePlaces start =
    right.typePlaces start ++ [start + right.weight - 1] :=
  if_pos h

theorem typePlaces_binary (h : op.kind ≠ .colon) : (binary op left right).typePlaces start =
    left.typePlaces start ++ right.typePlaces (start + left.weight) :=
  if_neg h

theorem weight_pos (tree : Tree) : 0 < tree.weight := by
  induction tree with
  | enclosed _ _ _ ih => exact ih
  | terminal => exact Nat.one_pos
  | unary => rw [weight]; omega
  | binary => rw [weight]; split <;> omega

@[simp] theorem weight_unparenthesized (tree : Tree) :
    tree.unparenthesized.weight = tree.weight := by
  induction tree with
  | enclosed _ _ _ ih => exact ih
  | _ => rfl

@[simp] theorem typePlaces_unparenthesized (tree : Tree) (start : Nat) :
    tree.unparenthesized.typePlaces start = tree.typePlaces start := by
  induction tree with
  | enclosed _ _ _ ih => exact ih
  | _ => rfl

/-- The places are places of the nodes of the tree. -/
theorem bounds_of_mem_typePlaces {tree : Tree} (h : place ∈ tree.typePlaces start) :
    start ≤ place ∧ place < start + tree.weight := by
  induction tree generalizing start with
  | enclosed _ _ _ ih => exact ih h
  | terminal => simp [typePlaces] at h
  | unary op operand ih =>
    have hbounds := ih h
    rw [weight]
    omega
  | binary op left right ihl ihr =>
    have hpos := right.weight_pos
    by_cases hop : op.kind = .colon
    · rw [typePlaces_colon hop, List.mem_append, List.mem_singleton] at h
      rw [weight_colon hop]
      rcases h with h | rfl
      · have hbounds := ihr h
        omega
      · omega
    · rw [typePlaces_binary hop, List.mem_append] at h
      rw [weight_binary hop]
      rcases h with h | h
      · have hbounds := ihl h
        omega
      · have hbounds := ihr h
        omega

end Tree

/-! ## verdicts -/

/-- What the verdict builds holds these handles, in some order. -/
def Verdict.Holds (parts : List NodeRef) : Verdict → Prop
  | build node _ => ∀ c, c ∈ node.handles ↔ c ∈ parts
  | refuse _ _ => True

theorem Verdict.Holds.unless {parts : List NodeRef} {verdict : Verdict} (h : verdict.Holds parts)
    (faults : List Fault) : (verdict.unless faults).Holds parts := by
  cases faults with
  | nil => exact h
  | cons => trivial

theorem Token.verdict_holds (token : Token) : token.verdict.Holds [] := by
  refine token.verdict_cases (fun _ => ?_) (fun _ => ?_) (fun _ => trivial) <;>
    simp [Verdict.Holds, Node.handles, Node.children]

theorem PrefixForm.verdict_holds (form : PrefixForm) (e : Elaboration) (span : Span) :
    (form.verdict e span).Holds [e.expr] := by
  refine .unless ?_ _
  cases form with
  | sign | not => simp [Verdict.Holds, node, Node.handles, Node.children]

theorem Context.infixVerdict_holds (cx : Context) (op : Token) (l r : Elaboration)
    (leftSpan rightSpan : Span) (form : InfixForm) :
    (cx.infixVerdict op l r leftSpan rightSpan form).Holds [l.expr, r.expr] := by
  refine cx.infixVerdict_cases op l r leftSpan rightSpan form (fun _ => ?_) (fun _ => ?_)
    (fun _ => ?_) (fun _ => ?_) (fun _ _ => ?_) (fun _ _ => trivial) <;>
    simp [Verdict.Holds, Node.handles, Node.children, or_comm]

/-- A conclusion without an error comes from a verdict that builds: the node is
the last one. -/
theorem Session.conclude_eq_ok {s : Session} {verdict : Verdict} {parts : List NodeRef}
    {e : Elaboration} (h : (s.conclude verdict).1 = .ok e) (hholds : verdict.Holds parts) :
    e.expr = ⟨s.context.size⟩ ∧ ∃ node,
      (s.conclude verdict).2.context = (s.context.add node).2 ∧ ∀ c, c ∈ node.handles ↔ c ∈ parts := by
  cases verdict with
  | build node ty =>
    cases h
    exact ⟨rfl, node, rfl, hholds⟩
  | refuse => cases h

/-! ## the number -/

/-- A success has appended `n` nodes, its result last, and a failure fewer. -/
def Appends (s : Session) (n : Nat) (out : Conclusion) : Prop :=
  match out.1 with
  | .ok e => e.expr.index + 1 = out.2.context.size ∧ out.2.context.size = s.context.size + n
  | .error _ => out.2.context.size < s.context.size + n

namespace Appends

variable {s s' : Session} {n : Nat}

/-- A verdict appends at most the one node that is left. -/
theorem conclude (h : s'.context.size + 1 = s.context.size + n) (verdict : Verdict) :
    Appends s n (s'.conclude verdict) := by
  cases verdict with
  | build node ty => exact ⟨(Context.size_add ..).symm, (Context.size_add ..).trans h⟩
  | refuse first others =>
    show (s'.conclude (.refuse first others)).2.context.size < _
    rw [Session.context_refuse]
    omega

theorem refuse (h : s'.context.size < s.context.size + n) (first : Fault) (others : List Fault) :
    Appends s n (s'.conclude (.refuse first others)) := by
  show (s'.conclude (.refuse first others)).2.context.size < _
  rwa [Session.context_refuse]

theorem failed {error : ElabError} (h : s'.context.size < s.context.size + n) :
    Appends s n (.error error, s') := h

theorem last {e : Elaboration} (h : Appends s n (.ok e, s')) :
    e.expr.index + 1 = s'.context.size := h.1

theorem size {e : Elaboration} (h : Appends s n (.ok e, s')) :
    s'.context.size = s.context.size + n := h.2

theorem size_lt {error : ElabError} (h : Appends s n (.error error, s')) :
    s'.context.size < s.context.size + n := h

/-- To enter a scope, to declare a name in it and to leave it appends nothing. -/
theorem inScope {inner outer : Context} {event : Event} {id : NodeRef} {ty : Ty}
    {d : DeclRef} {r : Except ElabError Elaboration}
    (h : Appends (s.moveTo inner event) n (r, s'))
    (hdeclare : s.context.enterScope.declareId id ty none = .ok (d, inner))
    (hleave : s'.context.leaveScope = .ok outer) (event' : Event) :
    Appends s n (r, s'.moveTo outer event') := by
  have hentered : inner.nodes = s.context.enterScope.nodes := Context.nodes_of_declareId hdeclare
  have hinner : inner.size = s.context.size := congrArg Array.size hentered
  have houter : outer.size = s'.context.size :=
    congrArg Array.size (Context.nodes_of_leaveScope hleave)
  simpa only [Appends, Session.context_moveTo, hinner, houter] using h

end Appends

/-- An elaboration appends as many nodes as the tree weighs, if it succeeds. -/
theorem Elaborates.appends {tree : Tree} {s : Session} {out : Conclusion}
    (h : Elaborates tree s out) : Appends s tree.weight out := by
  induction h with
  | enclosed _ ih => exact ih
  | named | unbound | constant => exact .conclude rfl _
  | noPrefix | noInfix | definition | noName | noBinding =>
    exact .refuse (Nat.lt_add_of_pos_right (Tree.weight_pos _)) _ _
  | operandFailed _ _ ih =>
    have hlt := ih.size_lt
    refine .failed ?_
    rw [Tree.weight]
    omega
  | prefixed _ _ ih =>
    have hsize := ih.size
    refine .conclude ?_ _
    rw [Tree.weight]
    omega
  | leftFailed hform _ ih =>
    have hlt := ih.size_lt
    refine .failed ?_
    rw [Tree.weight_binary (InfixForm.kind_of_ofToken? hform).1]
    omega
  | rightFailed hform _ _ ihl ihr =>
    have hsize := ihl.size
    have hlt := ihr.size_lt
    refine .failed ?_
    rw [Tree.weight_binary (InfixForm.kind_of_ofToken? hform).1]
    omega
  | infixed hform _ _ ihl ihr =>
    have hleft := ihl.size
    have hright := ihr.size
    refine .conclude ?_ _
    rw [Tree.weight_binary (InfixForm.kind_of_ofToken? hform).1]
    omega
  | typeFailed hop _ _ ih =>
    have hlt := ih.size_lt
    refine .failed ?_
    rw [Tree.weight_colon hop]
    omega
  | noType hop _ _ _ ih =>
    have hsize := ih.size
    refine .refuse ?_ _ _
    rw [Tree.weight_colon hop]
    omega
  | @bound _ name _ _ _ s' _ ty hop _ _ _ ih =>
    have hsize := ih.size
    have hadded : (s'.addBinding name.text ty).context.size = s'.context.size + 2 := by
      simp [Session.addBinding]
    refine ⟨hadded.symm, hadded.trans ?_⟩
    rw [Tree.weight_colon hop]
    omega
  | bindingFailed hq _ _ ih =>
    have hlt := ih.size_lt
    refine .failed ?_
    rw [Tree.weight_binary (Quantifier.kind_of_ofToken? hq).1]
    omega
  | @bodyFailed _ _ _ _ _ s₂ _ _ _ _ _ outer _ hq _ _ _ hdeclare _ hleave ihb ih =>
    have hbinding := ihb.size
    have hlt := (ih.inScope hdeclare hleave (.scopeLeft outer.depth)).size_lt
    refine .failed ?_
    rw [Tree.weight_binary (Quantifier.kind_of_ofToken? hq).1]
    omega
  | @bodyRefused _ _ _ _ _ s₂ _ _ _ _ _ _ outer hq _ _ _ hdeclare _ hleave _ ihb ih =>
    have hbinding := ihb.size
    have hbody := (ih.inScope hdeclare hleave (.scopeLeft outer.depth)).size
    simp only [Session.context_moveTo] at hbody
    refine .failed ?_
    rw [Tree.weight_binary (Quantifier.kind_of_ofToken? hq).1, Session.context_moveTo]
    omega
  | @quantified _ _ _ _ _ s₂ _ _ _ _ _ _ outer hq _ _ _ hdeclare _ hleave _ ihb ih =>
    have hbinding := ihb.size
    have hbody := (ih.inScope hdeclare hleave (.scopeLeft outer.depth)).size
    refine .conclude ?_ _
    rw [Tree.weight_binary (Quantifier.kind_of_ofToken? hq).1]
    omega

/-! ## what is reached -/

namespace Context

variable {cx later : Context} {lo : Nat} {e v l r : NodeRef} {node : Node NodeRef}
  {skipped skipped' : List Nat}

/-- Whatever is reached from a node of a forest is in the forest, or a type. -/
theorem Forest.le_of_reaches (h : cx.Forest lo cx.size) (hw : cx.WellFormed) (he : lo ≤ e.index)
    (hreached : cx.Reaches e v) : lo ≤ v.index ∨ ∃ ty : Ty, v = ty.ref := by
  induction hreached with
  | refl => exact .inl he
  | tail _ hstep ih =>
    obtain ⟨node, hnode, hc⟩ := hstep
    rcases ih with hle | ⟨ty, rfl⟩
    · rcases Node.child_or_type_of_mem_handles hc with hchild | htype
      · exact .inl (h.inner _ _ hle (index_lt_of_node? hnode) ⟨node, hnode, hchild⟩)
      · exact .inr htype
    · -- the node of a type holds no handles
      rw [hw.node?_ref ty] at hnode
      cases hnode
      simp [Node.handles, Node.children] at hc

/-- Of the nodes from `lo` on, `e` reaches those up to itself, but for the places
that are skipped. -/
def Covers (cx : Context) (lo : Nat) (e : NodeRef) (skipped : List Nat) : Prop :=
  ∀ v, lo ≤ v.index → (cx.Reaches e v ↔ v.index ≤ e.index ∧ v.index ∉ skipped)

theorem Covers.of_nodes (h : cx.Covers lo e skipped) (hnodes : later.nodes = cx.nodes) :
    later.Covers lo e skipped := by
  intro v hv
  rw [reaches_of_nodes hnodes]
  exact h v hv

theorem Covers.mono (h : cx.Covers lo e skipped) (hwithin : cx.Within later) (hw : cx.WellFormed)
    (he : e.index < cx.size) : later.Covers lo e skipped :=
  fun v hv => (hwithin.reaches_iff hw he).trans (h v hv)

/-- A node without handles reaches itself. -/
theorem covers_leaf (hnode : cx.node? e = some node) (hleaf : ∀ c, c ∈ node.handles ↔ c ∈ []) :
    cx.Covers e.index e [] := by
  intro v hv
  have hself : v = e ↔ v.index ≤ e.index :=
    ⟨fun heq => Nat.le_of_eq (congrArg NodeRef.index heq),
      fun hle => congrArg NodeRef.mk (Nat.le_antisymm hle hv)⟩
  simp [reaches_iff hnode, hleaf, hself]

/-- A node over the one before it reaches itself, and what that one reaches. -/
theorem Covers.step (h : cx.Covers lo l skipped) (hnode : cx.node? e = some node)
    (hparts : ∀ c, c ∈ node.handles ↔ c ∈ [l]) (he : e.index = l.index + 1)
    (hskipped : ∀ place ∈ skipped, place ≤ l.index) : cx.Covers lo e skipped := by
  intro v hv
  have hself : v = e ↔ v.index = l.index + 1 :=
    ⟨fun heq => (congrArg NodeRef.index heq).trans he,
      fun heq => congrArg NodeRef.mk (heq.trans he.symm)⟩
  rw [reaches_iff hnode, hself]
  simp only [hparts, List.mem_singleton, exists_eq_left]
  rw [h v hv, he]
  grind

/-- A node over two parts, one appended after the other, reaches itself and what
they reach.  The later part reaches none of the nodes of the earlier one. -/
theorem Covers.join {mid : Nat} (hl : cx.Covers lo l skipped) (hr : cx.Covers mid r skipped')
    (hmid : l.index + 1 = mid) (hnode : cx.node? e = some node)
    (hparts : ∀ c, c ∈ node.handles ↔ c ∈ [l, r]) (he : e.index = r.index + 1)
    (hlr : l.index ≤ r.index)
    (hsplit : ∀ v, cx.Reaches r v → lo ≤ v.index → l.index < v.index)
    (hskipped : ∀ place ∈ skipped, place ≤ l.index)
    (hskipped' : ∀ place ∈ skipped', l.index < place ∧ place ≤ r.index) :
    cx.Covers lo e (skipped ++ skipped') := by
  intro v hv
  have hself : v = e ↔ v.index = r.index + 1 :=
    ⟨fun heq => (congrArg NodeRef.index heq).trans he,
      fun heq => congrArg NodeRef.mk (heq.trans he.symm)⟩
  have hparts : cx.Reaches e v ↔ v.index = r.index + 1 ∨ cx.Reaches l v ∨ cx.Reaches r v := by
    rw [reaches_iff hnode, hself]
    simp [hparts]
  rw [hparts, hl v hv, he, List.mem_append]
  by_cases hold : v.index ≤ l.index
  · have hnot : ¬ cx.Reaches r v := fun hreached =>
      absurd (hsplit v hreached hv) (Nat.not_lt.2 hold)
    grind
  · rw [hr v (by omega)]
    grind

end Context

/-- Only a name, with or without parentheses, is elaborated to a variable. -/
theorem Elaborates.unparenthesized_of_var {tree : Tree} {s : Session} {out : Conclusion}
    (h : Elaborates tree s out) {e : Elaboration} (he : out.1 = .ok e) {name : Symbol} {d : DeclRef}
    (hnode : out.2.context.node? e.expr = some (.var name d)) :
    ∃ token, tree.unparenthesized = .terminal token := by
  -- a verdict over parts builds no variable, which holds no handles
  have hover : ∀ {s : Session} {verdict : Verdict} {c : NodeRef} {parts : List NodeRef},
      verdict.Holds (c :: parts) → (s.conclude verdict).1 = .ok e →
      (s.conclude verdict).2.context.node? e.expr ≠ some (.var name d) := by
    intro s verdict c parts hholds he hvar
    obtain ⟨hexpr, node, hcontext, hhandles⟩ := Session.conclude_eq_ok he hholds
    rw [hexpr, hcontext, Context.node?_add_self] at hvar
    cases hvar
    have hc := (hhandles c).2 List.mem_cons_self
    simp [Node.handles, Node.children] at hc
  induction h with
  | enclosed _ ih => exact ih he hnode
  | named | unbound | constant => exact ⟨_, rfl⟩
  | noPrefix | noInfix | definition | noName | noBinding | noType => cases he
  | operandFailed | leftFailed | rightFailed | typeFailed | bindingFailed | bodyFailed
  | bodyRefused => cases he
  | prefixed => exact absurd hnode (hover (PrefixForm.verdict_holds ..) he)
  | infixed => exact absurd hnode (hover (.unless (Context.infixVerdict_holds ..) _) he)
  | @bound _ name _ _ _ s' _ ty =>
    cases he
    rw [(s'.node?_addBinding name.text ty).1] at hnode
    cases hnode
  | @quantified _ _ _ _ _ _ q b body =>
    have hholds : (Verdict.build (.quantifier q b.expr body.expr) .bool).Holds
        [b.expr, body.expr] := by
      simp [Verdict.Holds, Node.handles, Node.children]
    exact absurd hnode (hover hholds he)

/-- A verdict over two parts, one appended after the other. -/
theorem covers_conclude {s s₁ s₂ : Session} {left right : Tree} {l r e : Elaboration}
    {verdict : Verdict} (hw : s.context.WellFormed) (hw₁ : s₁.context.WellFormed)
    (hl : Appends s left.weight (.ok l, s₁)) (hr : Appends s₁ right.weight (.ok r, s₂))
    (hkept : Kept s₁ (.ok r, s₂)) (hsprouts : Sprouts s₁ (.ok r, s₂))
    (hleft : s₁.context.Covers s.context.size l.expr (left.typePlaces s.context.size))
    (hright : s₂.context.Covers s₁.context.size r.expr (right.typePlaces s₁.context.size))
    (hholds : verdict.Holds [l.expr, r.expr]) (he : (s₂.conclude verdict).1 = .ok e) :
    (s₂.conclude verdict).2.context.Covers s.context.size e.expr
      (left.typePlaces s.context.size ++ right.typePlaces (s.context.size + left.weight)) := by
  obtain ⟨hexpr, node, hcontext, hparts⟩ := Session.conclude_eq_ok he hholds
  have hlast := hl.last
  have hsize := hl.size
  have hlast' := hr.last
  have hsize' := hr.size
  have hpos := right.weight_pos
  have hw₂ : s₂.context.WellFormed := hkept.wellFormed
  have hgrown : s₁.context.Within s₂.context := hkept.within
  have hadd := Context.Within.add s₂.context node
  rw [hcontext, hexpr, ← hsize]
  have hleft' := (hleft.mono hgrown hw₁ (by omega)).mono hadd hw₂ (by omega)
  have hright' := hright.mono hadd hw₂ (by omega)
  refine hleft'.join hright' hlast (Context.node?_add_self ..) hparts hlast'.symm (by omega) ?_ ?_ ?_
  · intro v hreached hv
    rw [hadd.reaches_iff hw₂ (by omega)] at hreached
    rcases hsprouts.forest.le_of_reaches hw₂ (hkept.fresh r rfl).1 hreached with
      hle | ⟨ty, rfl⟩
    · omega
    · exact absurd (hw.ref_lt ty) (Nat.not_lt.2 hv)
  · intro place hplace
    have hbounds := Tree.bounds_of_mem_typePlaces hplace
    omega
  · intro place hplace
    have hbounds := Tree.bounds_of_mem_typePlaces hplace
    omega

/-- A binding reaches itself and the node of its name.  The type that it holds is
older than all that was appended, and the node before is not held. -/
theorem Session.covers_addBinding {s : Session} {lo : Nat} (hw : s.context.WellFormed)
    (hlo : ∀ ty : Ty, ty.ref.index < lo) (hsize : lo + 1 = s.context.size) (text : String) (ty : Ty) :
    (s.addBinding text ty).context.Covers lo ⟨s.context.size + 1⟩ [lo] := by
  obtain ⟨hbind, hid⟩ := s.node?_addBinding text ty
  have hname := Context.node?_of_symbol? hid
  have htype := (s.wellFormed_addBinding hw text ty).node?_ref ty
  rintro ⟨index⟩ hv
  have holder : (⟨index⟩ : NodeRef) ≠ ty.ref := fun heq =>
    absurd (hlo ty) (Nat.not_lt.2 (heq ▸ hv))
  simp only [Context.reaches_iff hbind, Context.reaches_iff hname, Context.reaches_iff htype,
    Node.handles, Node.children, List.mem_cons, List.not_mem_nil, false_and, exists_false, or_false,
    exists_eq_or_imp, exists_eq_left, NodeRef.mk.injEq, holder]
  simp only at hv
  omega

/-- What comes out of an elaboration reaches all that was appended, but for what
names the types of bindings. -/
theorem Elaborates.covers {tree : Tree} {s : Session} {out : Conclusion}
    (h : Elaborates tree s out) (hw : s.context.WellFormed) {e : Elaboration} (he : out.1 = .ok e) :
    out.2.context.Covers s.context.size e.expr (tree.typePlaces s.context.size) := by
  -- a verdict over nothing
  have hleaf : ∀ {s : Session} {verdict : Verdict} {e : Elaboration}, verdict.Holds [] →
      (s.conclude verdict).1 = .ok e →
      (s.conclude verdict).2.context.Covers s.context.size e.expr [] := by
    intro s verdict e hholds he
    obtain ⟨hexpr, node, hcontext, hparts⟩ := Session.conclude_eq_ok he hholds
    rw [hcontext, hexpr]
    exact Context.covers_leaf (Context.node?_add_self ..) hparts
  induction h generalizing e with
  | enclosed _ ih => exact ih hw he
  | named => exact hleaf (by simp [Verdict.Holds, Node.handles, Node.children]) he
  | unbound => exact hleaf trivial he
  | constant => exact hleaf (Token.verdict_holds _) he
  | noPrefix | noInfix | definition | noName | noBinding | noType => cases he
  | operandFailed | leftFailed | rightFailed | typeFailed | bindingFailed | bodyFailed
  | bodyRefused => cases he
  | @prefixed _ operand s s' _ o _ hoperand ih =>
    obtain ⟨hexpr, node, hcontext, hparts⟩ := Session.conclude_eq_ok he (PrefixForm.verdict_holds ..)
    have hlast := hoperand.appends.last
    have hsize := hoperand.appends.size
    have hw' : s'.context.WellFormed := (hoperand.kept hw).wellFormed
    have hadd := Context.Within.add s'.context node
    have hcovers : s'.context.Covers _ o.expr (operand.typePlaces s.context.size) := ih hw rfl
    rw [hcontext, hexpr]
    refine (hcovers.mono hadd hw' (by omega)).step (Context.node?_add_self ..) hparts hlast.symm ?_
    intro place hplace
    have hbounds := Tree.bounds_of_mem_typePlaces hplace
    omega
  | infixed hform hl hr ihl ihr =>
    have hkl := hl.kept hw
    rw [Tree.typePlaces_binary (InfixForm.kind_of_ofToken? hform).1]
    exact covers_conclude hw hkl.wellFormed hl.appends hr.appends (hr.kept hkl.wellFormed)
      (hr.sprouts hkl.wellFormed) (ihl hw rfl) (ihr hkl.wellFormed rfl)
      (.unless (Context.infixVerdict_holds ..) _) he
  | @bound _ name _ right s s' t ty hop _ htype hty ih =>
    cases he
    obtain ⟨-, symbol, d, -, -, hvar, -⟩ := Context.designation_eq_ok hty
    obtain ⟨token, hterminal⟩ := htype.unparenthesized_of_var rfl hvar
    have hweight : right.weight = 1 := by
      rw [← Tree.weight_unparenthesized, hterminal, Tree.weight]
    have hplaces : right.typePlaces s.context.size = [] := by
      rw [← Tree.typePlaces_unparenthesized, hterminal, Tree.typePlaces]
    have hsize := htype.appends.size
    rw [hweight] at hsize
    rw [Tree.typePlaces_colon hop, hplaces, hweight]
    exact Session.covers_addBinding (htype.kept hw).wellFormed hw.ref_lt hsize.symm name.text ty
  | @quantified _ left right s s₁ s₂ _ b body _ _ inner outer hq _ hb _ hdeclare hbody hleave _ ihb ih =>
    have hkb := hb.kept hw
    have hinner := hkb.wellFormed.enterScope.declareVar hdeclare
    have hentered : inner.nodes = s₁.context.enterScope.nodes := Context.nodes_of_declareId hdeclare
    have hsize : inner.size = s₁.context.size := congrArg Array.size hentered
    have hcovers := ih hinner rfl
    rw [Session.context_moveTo, hsize] at hcovers
    rw [Tree.typePlaces_binary (Quantifier.kind_of_ofToken? hq).1]
    exact covers_conclude hw hkb.wellFormed hb.appends
      (hbody.appends.inScope hdeclare hleave _) (.inScope hdeclare (hbody.kept hinner) hleave)
      (.inScope hdeclare (hbody.sprouts hinner) hleave) (ihb hw rfl)
      (hcovers.of_nodes (Context.nodes_of_leaveScope hleave))
      (by simp [Verdict.Holds, Node.handles, Node.children]) he

/-! ## what names the types of bindings -/

/-- At these places there are variables. -/
def Context.VarsAt (cx : Context) (places : List Nat) : Prop :=
  ∀ place ∈ places, ∃ name d, cx.node? ⟨place⟩ = some (.var name d)

theorem Context.VarsAt.within {cx later : Context} {places : List Nat} (h : cx.VarsAt places)
    (hwithin : cx.Within later) : later.VarsAt places := by
  intro place hplace
  obtain ⟨name, d, hnode⟩ := h place hplace
  exact ⟨name, d, hwithin.node hnode⟩

theorem Context.VarsAt.append {cx : Context} {places places' : List Nat} (h : cx.VarsAt places)
    (h' : cx.VarsAt places') : cx.VarsAt (places ++ places') := by
  intro place hplace
  rcases List.mem_append.1 hplace with hplace | hplace
  · exact h place hplace
  · exact h' place hplace

theorem Session.within_conclude (s : Session) (verdict : Verdict) :
    s.context.Within (s.conclude verdict).2.context := by
  cases verdict with
  | build node ty => exact .add s.context node
  | refuse first others =>
    rw [s.context_refuse first others]
    exact .refl s.context

/-- Where the type of a binding is named there is a variable. -/
theorem Elaborates.varsAt {tree : Tree} {s : Session} {out : Conclusion} (h : Elaborates tree s out)
    (hw : s.context.WellFormed) {e : Elaboration} (he : out.1 = .ok e) :
    out.2.context.VarsAt (tree.typePlaces s.context.size) := by
  induction h generalizing e with
  | enclosed _ ih => exact ih hw he
  | named | unbound | constant => simp [Context.VarsAt, Tree.typePlaces]
  | noPrefix | noInfix | definition | noName | noBinding | noType => cases he
  | operandFailed | leftFailed | rightFailed | typeFailed | bindingFailed | bodyFailed
  | bodyRefused => cases he
  | prefixed _ _ ih => exact (ih hw rfl).within (Session.within_conclude ..)
  | @infixed _ left right s s₁ s₂ _ l r hform hl hr ihl ihr =>
    have hkl := hl.kept hw
    have hleft : s₂.context.VarsAt _ := (ihl hw rfl).within (hr.kept hkl.wellFormed).within
    have hright : s₂.context.VarsAt (right.typePlaces s₁.context.size) := ihr hkl.wellFormed rfl
    rw [hl.appends.size] at hright
    rw [Tree.typePlaces_binary (InfixForm.kind_of_ofToken? hform).1]
    exact (hleft.append hright).within (Session.within_conclude ..)
  | @bound _ name _ right s s' t ty hop _ htype hty ih =>
    obtain ⟨-, symbol, d, -, -, hvar, -⟩ := Context.designation_eq_ok hty
    have hlast : t.expr.index = s.context.size + right.weight - 1 := by
      have hlast := htype.appends.last
      have hsize := htype.appends.size
      omega
    have hnamed : s'.context.VarsAt [s.context.size + right.weight - 1] := by
      intro place hplace
      rw [List.mem_singleton.1 hplace, ← hlast]
      exact ⟨symbol, d, hvar⟩
    rw [Tree.typePlaces_colon hop]
    exact ((ih hw rfl).append hnamed).within (s'.within_addBinding name.text ty)
  | @quantified _ left right s s₁ s₂ _ b body _ _ inner outer hq _ hb _ hdeclare hbody hleave _ ihb ih =>
    have hkb := hb.kept hw
    have hinner := hkb.wellFormed.enterScope.declareVar hdeclare
    have hkbody : Kept s₁ (.ok body, s₂.moveTo outer (.scopeLeft outer.depth)) :=
      .inScope hdeclare (hbody.kept hinner) hleave
    have hentered : inner.nodes = s₁.context.enterScope.nodes := Context.nodes_of_declareId hdeclare
    have hsize : inner.size = s₁.context.size := congrArg Array.size hentered
    have hleft : outer.VarsAt _ := (ihb hw rfl).within hkbody.within
    have hright : outer.VarsAt (right.typePlaces inner.size) :=
      (ih hinner rfl).within (.leaveScope hleave)
    rw [hsize, hb.appends.size] at hright
    rw [Tree.typePlaces_binary (Quantifier.kind_of_ofToken? hq).1]
    exact (hleft.append hright).within
      ((s₂.moveTo outer (.scopeLeft outer.depth)).within_conclude _)

/-! ## the whole elaboration -/

/-- In every context that is reached, and for every tree: no node that the
elaboration appends is a child of two nodes.  If it succeeds, it appends as many
nodes as the tree weighs, and the last of them is its result, which reaches all the
others but for the variables that name the types of bindings.  If it fails, it
appends fewer. -/
theorem elaborate_yields {s : Session} (h : s.context.Reachable) (tree : Tree) :
    ∃ outcome s' new, (elaborate tree).run s = .ok (outcome, s') ∧
      s'.context.nodes = s.context.nodes ++ new ∧
      (∀ p p' c, s.context.size ≤ c.index → s'.context.HasChild p c → s'.context.HasChild p' c →
        p = p') ∧
      match outcome with
      | .ok e =>
        new.size = tree.weight ∧ e.expr.index + 1 = s'.context.size ∧
        (∀ v, s.context.size ≤ v.index → v.index < s'.context.size →
          (s'.context.Reaches e.expr v ↔ v.index ∉ tree.typePlaces s.context.size)) ∧
        ∀ place ∈ tree.typePlaces s.context.size,
          ∃ name d, s'.context.node? ⟨place⟩ = some (.var name d)
      | .error _ => new.size < tree.weight := by
  have hw := h.wellFormed
  obtain ⟨⟨outcome, s'⟩, hcourse⟩ := exists_elaborates tree hw
  have hkept := hcourse.kept hw
  have hw' : s'.context.WellFormed := hkept.wellFormed
  obtain ⟨new, hnew⟩ := hkept.within.exists_nodes
  have hnew : s'.context.nodes = s.context.nodes ++ new := hnew
  have hsize : s'.context.size = s.context.size + new.size := by
    rw [Context.size, hnew, Array.size_append]
    rfl
  refine ⟨outcome, s', new, hcourse.run hw, hnew, ?_, ?_⟩
  · intro p p' c hc hp hp'
    -- the parents of what was appended were appended as well
    have hlower : ∀ {p : NodeRef}, s'.context.HasChild p c → s.context.size ≤ p.index :=
      fun hp => Nat.le_of_lt (Nat.lt_of_le_of_lt hc (hw'.index_lt_of_hasChild hp))
    exact (hcourse.sprouts hw).forest.single p p' c (hlower hp) hp.index_lt (hlower hp')
      hp'.index_lt hp hp'
  · have happends := hcourse.appends
    cases outcome with
    | error error =>
      have hlt := happends.size_lt
      show new.size < tree.weight
      omega
    | ok e =>
      have hlast := happends.last
      have hgrown := happends.size
      refine ⟨by omega, hlast, fun v hv hlt => ?_, hcourse.varsAt hw rfl⟩
      exact (hcourse.covers hw rfl v hv).trans (and_iff_right (by omega))

/-- `forall n : (int) . n > 0` is elaborated to seven nodes, of which the first
one, for `int`, is the only one that the result does not reach. -/
theorem elaborate_yields_forall :
    let name : Tree := .terminal ⟨.identifier, "n", .origin⟩
    let type : Tree := .enclosed ⟨.openParen, "(", .origin⟩ (.terminal ⟨.kwInt, "int", .origin⟩)
      ⟨.closeParen, ")", .origin⟩
    let tree : Tree := .binary ⟨.kwForall, "forall", .origin⟩
      (.binary ⟨.colon, ":", .origin⟩ name type)
      (.binary ⟨.greater, ">", .origin⟩ name (.terminal ⟨.literal, "0", .origin⟩))
    Context.initial.Reachable ∧ tree.weight = 7 ∧ tree.typePlaces 5 = [5] ∧
      ∃ e s', (elaborate tree).run ⟨.initial, #[]⟩ = .ok (.ok e, s') ∧ s'.context.size = 12 ∧
        ∀ i, 5 ≤ i → i < 12 → (s'.context.Reaches e.expr ⟨i⟩ ↔ i ≠ 5) := by
  intro name type tree
  obtain ⟨outcome, s', new, hrun, hnew, -, hcase⟩ :=
    elaborate_yields (s := ⟨.initial, #[]⟩) .initial tree
  have hok : (elaborate tree).run ⟨.initial, #[]⟩ = .ok (.ok ⟨⟨11⟩, .bool⟩, _) := rfl
  obtain ⟨rfl, -⟩ := Prod.mk.inj (Except.ok.inj (hrun.symm.trans hok))
  obtain ⟨-, hlast, hreached, -⟩ := hcase
  have hsize : s'.context.size = 12 := hlast.symm
  refine ⟨.initial, by decide, by decide, _, s', hrun, hsize, fun i hi hlt => ?_⟩
  have hplaces : tree.typePlaces 5 = [5] := by decide
  have hiff := hreached ⟨i⟩ hi (hsize ▸ hlt)
  rwa [Context.size_initial, hplaces, List.mem_singleton] at hiff

end ArithLogic
