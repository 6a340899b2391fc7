import ArithLogic.Proofs.Context.Parts
import ArithLogic.Proofs.NormalForm.Refinement

/-!
# ArithLogic.Proofs.NormalForm.Reuse

When normal form returns the handle that it was given.  An expression is plain
if no negation, no implication and no equivalence is reached from it.  The
course that leads from a plain expression back to itself appends nothing
(`WellFormed.normalizes_plain`); and whenever a course comes back to where it
began, under either polarity, it has appended nothing and began at a plain
expression (`Normalizes.plain_of_eq`).  A normal form in which a negation stands
in front of a name is therefore built again, though it comes out like it was.
-/

namespace ArithLogic

/-! ## plain expressions -/

/-- The kinds that normal form does away with, or builds anew. -/
def NodeKind.isRewritten : NodeKind → Bool
  | .not | .connective .imp | .connective .iff => true
  | _ => false

theorem NodeKind.isRewritten_eq_false_iff {kind : NodeKind} : kind.isRewritten = false ↔
    kind ≠ .not ∧ kind ≠ .connective .imp ∧ kind ≠ .connective .iff := by
  cases kind with
  | connective op => cases op <;> simp [isRewritten]
  | _ => simp [isRewritten]

/-- Children are handles. -/
theorem Node.mem_handles (node : Node NodeRef) {c : NodeRef} (hc : c ∈ node.children) :
    c ∈ node.handles := by
  cases node <;> simp_all [handles, children]

namespace Context

variable {cx : Context} {e : NodeRef} {node : Node NodeRef}

/-- Neither a negation nor an implication nor an equivalence is reached. -/
def Plain (cx : Context) (e : NodeRef) : Prop :=
  ∀ v node, cx.Reaches e v → cx.node? v = some node → node.kind.isRewritten = false

/-- An expression is plain if its node is, and all that the node refers to. -/
theorem plain_iff (hnode : cx.node? e = some node) :
    cx.Plain e ↔ node.kind.isRewritten = false ∧ ∀ c ∈ node.handles, cx.Plain c := by
  constructor
  · intro h
    exact ⟨h e node .refl hnode, fun c hc v found hv hfound =>
      h v found ((reaches_iff hnode).2 (.inr ⟨c, hc, hv⟩)) hfound⟩
  · rintro ⟨hkind, hhandles⟩ v found hv hfound
    rcases (reaches_iff hnode).1 hv with rfl | ⟨c, hc, hv⟩
    · cases hnode.symm.trans hfound
      exact hkind
    · exact hhandles c hc v found hv hfound

/-- What has no children is plain. -/
theorem plain_of_atom (hnode : cx.node? e = some node) (hkind : node.kind.isRewritten = false)
    (hhandles : node.handles = []) : cx.Plain e :=
  (plain_iff hnode).2 ⟨hkind, by simp [hhandles]⟩

/-- An operator over two operands is plain if they are. -/
theorem plain_of_children {a b : NodeRef} (hnode : cx.node? e = some node)
    (hkind : node.kind.isRewritten = false) (hhandles : node.handles = [a, b]) (ha : cx.Plain a)
    (hb : cx.Plain b) : cx.Plain e :=
  (plain_iff hnode).2 ⟨hkind, by simp [hhandles, ha, hb]⟩

/-- Bindings are plain. -/
theorem WellFormed.plain_bind (h : cx.WellFormed) {id : NodeRef} {ty : Ty}
    (hnode : cx.node? e = some (.bind id ty)) : cx.Plain e := by
  obtain ⟨name, hname⟩ := h.exists_name hnode
  exact plain_of_children hnode rfl rfl (plain_of_atom hname rfl rfl)
    (plain_of_atom (h.node?_ref ty) rfl rfl)

/-- The binding of a quantifier is plain. -/
theorem WellFormed.plain_binding (h : cx.WellFormed) {op : Quantifier} {binding body : NodeRef}
    (hnode : cx.node? e = some (.quantifier op binding body)) : cx.Plain binding := by
  obtain ⟨id, ty, hbind⟩ := h.exists_binding hnode
  exact h.plain_bind hbind

/-- The literal of a product or a quotient is plain. -/
theorem WellFormed.plain_factor (h : cx.WellFormed) {op : Scaling} {factor operand : NodeRef}
    (hnode : cx.node? e = some (.scaling op factor operand)) : cx.Plain factor := by
  obtain ⟨value, hvalue⟩ := h.exists_factor hnode
  exact plain_of_atom hvalue rfl rfl

/-- What a pending negation cannot change is plain. -/
theorem Stays.plain {negated : Bool} (h : cx.Stays negated node) (hw : cx.WellFormed)
    (hnode : cx.node? e = some node) : cx.Plain e := by
  cases node with
  | bind => exact hw.plain_bind hnode
  | int | type | bool | id | var => exact plain_of_atom hnode rfl rfl
  | _ => exact h.elim

/-- A plain expression is brought into normal form by doing nothing. -/
theorem WellFormed.normalizes_plain (h : cx.WellFormed) {e : NodeRef} (he : e.index < cx.size)
    (hplain : cx.Plain e) : Normalizes cx e false e cx := by
  obtain ⟨node, hnode⟩ := node?_of_index_lt he
  obtain ⟨hkind, hhandles⟩ := (plain_iff hnode).1 hplain
  -- the operands are older, so for them the induction says the same
  have hpart : ∀ c ∈ node.children, Normalizes cx c false c cx := fun c hc =>
    have hlt := h.children_older hnode c hc
    h.normalizes_plain (Nat.lt_trans hlt he) (hhandles c (node.mem_handles hc))
  cases node with
  | int | bind | type => exact .kept hnode trivial
  | bool | id => exact .kept hnode rfl
  | var => exact .kept hnode (by simp [Stays])
  | additive op a b =>
    exact .additive hnode (hpart a (by simp [Node.children])) (hpart b (by simp [Node.children]))
      (.reused hnode)
  | scaling op factor a =>
    exact .scaling hnode (hpart a (by simp [Node.children])) (.reused hnode)
  | sign op a => exact .sign hnode (hpart a (by simp [Node.children])) (.reused hnode)
  | relation op a b =>
    exact .relation hnode (hpart a (by simp [Node.children])) (hpart b (by simp [Node.children]))
      (.reused hnode)
  | connective op a b =>
    have hop : op = .and ∨ op = .or := by
      cases op <;> simp [NodeKind.isRewritten, Node.kind] at hkind ⊢
    exact .junction hnode hop (hpart a (by simp [Node.children]))
      (hpart b (by simp [Node.children])) (.reused hnode)
  | not => cases hkind
  | quantifier op binding body =>
    exact .quantifier hnode (hpart body (by simp [Node.children])) (.reused hnode)
termination_by e.index

end Context

/-! ## handles that come back -/

section Back

variable {cx cx' last : Context} {e e' old : NodeRef} {node node' : Node NodeRef} {negated : Bool}

/-- What settles is there under the handle of the old node, or under a new
one. -/
theorem Settles.eq_or_new (h : Settles cx old node e' last) : e' = old ∨ e' = ⟨cx.size⟩ := by
  cases h with
  | reused => exact .inl rfl
  | added => exact .inr rfl

/-- What settles in a later context under the handle of an old node is the old
node, and nothing was appended. -/
theorem Settles.eq_old (h : Settles cx' e node' e' last) (hwithin : cx.Within cx')
    (hnode : cx.node? e = some node) (heq : e' = e) : node' = node ∧ last = cx' := by
  cases h with
  | reused hnode' => exact ⟨Option.some.inj (hnode'.symm.trans (hwithin.node hnode)), rfl⟩
  | added =>
    have hlt := hwithin.index_lt (Context.index_lt_of_node? hnode)
    rw [← heq] at hlt
    exact absurd hlt (Nat.lt_irrefl _)

/-- One course after another appends nodes alone. -/
theorem Normalizes.grows_both {cx₁ cx₂ : Context} {a b a' b' : NodeRef} {na nb : Bool}
    (ha : Normalizes cx a na a' cx₁) (hb : Normalizes cx₁ b nb b' cx₂) (hw : cx.WellFormed) :
    cx.Grows cx₂ :=
  have hga := (ha.grows hw).1
  hga.trans (hb.grows hga.wellFormed).1

/-- Normal form comes back to the expression, descends to an older one, or is
new. -/
theorem Normalizes.index_le_or_new (h : Normalizes cx e negated e' last) (hw : cx.WellFormed) :
    e'.index ≤ e.index ∨ cx.size ≤ e'.index := by
  have hsettled : ∀ {cx cx' last : Context} {e e' : NodeRef} {node : Node NodeRef},
      cx.Grows cx' → Settles cx' e node e' last → e'.index ≤ e.index ∨ cx.size ≤ e'.index := by
    intro cx cx' last e e' node hgrows hsettles
    rcases hsettles.eq_or_new with rfl | rfl
    · exact .inl (Nat.le_refl _)
    · exact .inr hgrows.within.size_le
  induction h with
  | kept => exact .inl (Nat.le_refl _)
  | truth | name => exact .inr (Nat.le_refl _)
  | additive _ ha hb hsettles | relation _ ha hb hsettles | junction _ _ ha hb hsettles =>
    exact hsettled (ha.grows_both hb hw) hsettles
  | scaling _ ha hsettles | sign _ ha hsettles | quantifier _ ha hsettles =>
    exact hsettled (ha.grows hw).1 hsettles
  | implication _ ha hb => exact .inr (ha.grows_both hb hw).within.size_le
  | equivalence _ hpa hna hpb hnb | difference _ hpa hna hpb hnb =>
    have hga := hpa.grows_both hna hw
    have hgb := hpb.grows_both hnb hga.wellFormed
    exact .inr (Nat.le_trans (hga.trans hgb).within.size_le (Nat.le_add_right _ 2))
  | not hnode _ ih =>
    have holder := hw.children_older hnode _ List.mem_cons_self
    exact (ih hw).imp_left fun hle => Nat.le_trans hle (Nat.le_of_lt holder)

/-- Whatever comes back to where it began is plain, and nothing was appended. -/
theorem Normalizes.plain_of_eq (h : Normalizes cx e negated e' last) (hw : cx.WellFormed)
    (heq : e' = e) : cx.Plain e ∧ last = cx := by
  induction h with
  | kept hnode hstays => exact ⟨hstays.plain hw hnode, rfl⟩
  | truth hnode | name hnode =>
    exact absurd (Context.index_lt_of_node? (heq ▸ hnode)) (Nat.lt_irrefl _)
  | additive hnode ha hb hsettles iha ihb =>
    have hgrows := ha.grows_both hb hw
    obtain ⟨hsame, rfl⟩ := hsettles.eq_old hgrows.within hnode heq
    obtain ⟨-, rfl, rfl⟩ := Node.additive.inj hsame
    obtain ⟨hplaina, rfl⟩ := iha hw rfl
    obtain ⟨hplainb, rfl⟩ := ihb hw rfl
    exact ⟨Context.plain_of_children hnode rfl rfl hplaina hplainb, rfl⟩
  | relation hnode ha hb hsettles iha ihb =>
    have hgrows := ha.grows_both hb hw
    obtain ⟨hsame, rfl⟩ := hsettles.eq_old hgrows.within hnode heq
    obtain ⟨-, rfl, rfl⟩ := Node.relation.inj hsame
    obtain ⟨hplaina, rfl⟩ := iha hw rfl
    obtain ⟨hplainb, rfl⟩ := ihb hw rfl
    exact ⟨Context.plain_of_children hnode rfl rfl hplaina hplainb, rfl⟩
  | junction hnode hop ha hb hsettles iha ihb =>
    have hgrows := ha.grows_both hb hw
    obtain ⟨hsame, rfl⟩ := hsettles.eq_old hgrows.within hnode heq
    obtain ⟨-, rfl, rfl⟩ := Node.connective.inj hsame
    obtain ⟨hplaina, rfl⟩ := iha hw rfl
    obtain ⟨hplainb, rfl⟩ := ihb hw rfl
    refine ⟨Context.plain_of_children hnode ?_ rfl hplaina hplainb, rfl⟩
    rcases hop with rfl | rfl <;> rfl
  | scaling hnode ha hsettles iha =>
    obtain ⟨hsame, rfl⟩ := hsettles.eq_old (ha.grows hw).1.within hnode heq
    obtain ⟨-, -, rfl⟩ := Node.scaling.inj hsame
    obtain ⟨hplain, rfl⟩ := iha hw rfl
    exact ⟨Context.plain_of_children hnode rfl rfl (hw.plain_factor hnode) hplain, rfl⟩
  | sign hnode ha hsettles iha =>
    obtain ⟨hsame, rfl⟩ := hsettles.eq_old (ha.grows hw).1.within hnode heq
    obtain ⟨-, rfl⟩ := Node.sign.inj hsame
    obtain ⟨hplain, rfl⟩ := iha hw rfl
    exact ⟨(Context.plain_iff hnode).2 ⟨rfl, by simpa [Node.handles, Node.children] using hplain⟩,
      rfl⟩
  | quantifier hnode hbody hsettles ih =>
    obtain ⟨hsame, rfl⟩ := hsettles.eq_old (hbody.grows hw).1.within hnode heq
    obtain ⟨-, -, rfl⟩ := Node.quantifier.inj hsame
    obtain ⟨hplain, rfl⟩ := ih hw rfl
    exact ⟨Context.plain_of_children hnode rfl rfl (hw.plain_binding hnode) hplain, rfl⟩
  | implication hnode ha hb =>
    -- an implication is always built anew, and so is an equivalence
    have hlt := (ha.grows_both hb hw).within.index_lt (Context.index_lt_of_node? hnode)
    rw [← heq] at hlt
    exact absurd hlt (Nat.lt_irrefl _)
  | equivalence hnode hpa hna hpb hnb | difference hnode hpa hna hpb hnb =>
    have hga := hpa.grows_both hna hw
    have hgb := hpb.grows_both hnb hga.wellFormed
    have hlt := (hga.trans hgb).within.index_lt (Context.index_lt_of_node? hnode)
    rw [← heq] at hlt
    exact absurd hlt (Nat.not_lt_of_le (Nat.le_add_right _ 2))
  | not hnode ha =>
    -- what is behind a negation is older than it
    have holder := hw.children_older hnode _ List.mem_cons_self
    subst heq
    rcases ha.index_le_or_new hw with hle | hnew
    · exact absurd hle (Nat.not_le_of_lt holder)
    · exact absurd (Context.index_lt_of_node? hnode) (Nat.not_lt_of_le hnew)

end Back

/-- In every context that is reached, an expression is its own normal form, the
very handle, exactly if no negation, no implication and no equivalence is reached
from it; and then the context stays as it was. -/
theorem normalize_eq_self_iff {s : Session} (h : s.context.Reachable) {e : NodeRef}
    (he : e.index < s.context.size) :
    ∃ e' s', Action.normalize e false s = .ok (e', s') ∧
      (e' = e ↔ ∀ v node, s.context.Reaches e v → s.context.node? v = some node →
        node.kind ≠ .not ∧ node.kind ≠ .connective .imp ∧ node.kind ≠ .connective .iff) ∧
      (e' = e → s'.context = s.context) := by
  have hw := h.wellFormed
  obtain ⟨e', s', hrun, hcourse⟩ := follows_normalize hw he false
  have hplain : e' = e ↔ s.context.Plain e :=
    ⟨fun heq => (hcourse.plain_of_eq hw heq).1,
      fun hplain => (hcourse.unique (hw.normalizes_plain he hplain)).1⟩
  refine ⟨e', s', hrun, hplain.trans ?_, fun heq => (hcourse.plain_of_eq hw heq).2⟩
  simp only [Context.Plain, NodeKind.isRewritten_eq_false_iff]

/-- In the context of `p <-> p` the operand is its own normal form, and the
equivalence is not. -/
theorem normalize_eq_self_iff_selfEquivalence :
    (∃ s', Action.normalize ⟨6⟩ false ⟨Context.selfEquivalence, #[]⟩ = .ok (⟨6⟩, s') ∧
      s'.context = Context.selfEquivalence) ∧
    ∃ e' s', Action.normalize ⟨7⟩ false ⟨Context.selfEquivalence, #[]⟩ = .ok (e', s') ∧
      e' ≠ ⟨7⟩ := by
  have hreached := Context.selfEquivalence_built.upheld.reachable
  constructor
  · obtain ⟨e', s', hrun, hiff, hsame⟩ := normalize_eq_self_iff
      (s := ⟨Context.selfEquivalence, #[]⟩) hreached (e := ⟨6⟩) (by decide)
    have hnode : Context.selfEquivalence.node? ⟨6⟩ = some (.var ⟨0, "p"⟩ ⟨2⟩) := rfl
    have hplain := Context.plain_of_atom hnode rfl rfl
    simp only [Context.Plain, NodeKind.isRewritten_eq_false_iff] at hplain
    obtain rfl := hiff.2 hplain
    exact ⟨s', hrun, hsame rfl⟩
  · obtain ⟨e', s', hrun, hiff, -⟩ := normalize_eq_self_iff
      (s := ⟨Context.selfEquivalence, #[]⟩) hreached (e := ⟨7⟩) (by decide)
    refine ⟨e', s', hrun, fun heq => ?_⟩
    have hkinds := hiff.1 heq ⟨7⟩ (.connective .iff ⟨6⟩ ⟨6⟩) .refl rfl
    exact hkinds.2.2 rfl

end ArithLogic
