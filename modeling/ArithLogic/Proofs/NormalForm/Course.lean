import ArithLogic.NormalForm
import ArithLogic.Proofs.Elaboration.Running

/-!
# ArithLogic.Proofs.NormalForm.Course

The course of bringing an expression into normal form, as a relation between
a context, a handle, a pending negation, and what comes out: a handle and a
later context.  In a well formed context the program takes these courses
(`follows_normalize`).  All they do is to append nodes (`Normalizes.grows`),
and where one course leads, no other one leads elsewhere (`Normalizes.unique`).
-/

namespace ArithLogic

/-! ## growing by nodes -/

/-- The context has grown by nodes alone. -/
structure Context.Grows (cx later : Context) : Prop where
  wellFormed : later.WellFormed
  within : cx.Within later
  decls : later.decls = cx.decls
  scopes : later.scopes = cx.scopes
  interner : later.interner = cx.interner

namespace Context.Grows

variable {cx later last : Context}

theorem refl (h : cx.WellFormed) : cx.Grows cx := ⟨h, .refl cx, rfl, rfl, rfl⟩

theorem trans (h : cx.Grows later) (h' : later.Grows last) : cx.Grows last where
  wellFormed := h'.wellFormed
  within := h.within.trans h'.within
  decls := h'.decls.trans h.decls
  scopes := h'.scopes.trans h.scopes
  interner := h'.interner.trans h.interner

theorem add (h : cx.WellFormed) {node : Node NodeRef} (ha : cx.Accepts node) :
    cx.Grows (cx.add node).2 :=
  ⟨h.add ha, .add cx node, rfl, rfl, rfl⟩

theorem decl? (h : cx.Grows later) (d : DeclRef) : later.decl? d = cx.decl? d := by
  unfold Context.decl?
  rw [h.decls]

end Context.Grows

/-! ## the course -/

/-- A node that a pending negation cannot change, or that none is pending
over. -/
def Context.Stays (cx : Context) (negated : Bool) : Node NodeRef → Prop
  | .int _ | .bind _ _ | .type _ => True
  | .bool _ | .id _ => negated = false
  | .var _ d => negated = true → ∀ decl, cx.decl? d = some decl → decl.ty ≠ .bool
  | _ => False

/-- A name in front of which a negation stays. -/
def Context.NamesFormula (cx : Context) : Node NodeRef → Prop
  | .id _ => True
  | .var _ d => ∃ decl, cx.decl? d = some decl ∧ decl.ty = .bool
  | _ => False

/-- A node is there: it is the old one, or it was appended because the old one
is another. -/
inductive Settles (cx : Context) (old : NodeRef) (node : Node NodeRef) : NodeRef → Context → Prop
  | reused : cx.node? old = some node → Settles cx old node old cx
  | added : cx.node? old ≠ some node → Settles cx old node ⟨cx.size⟩ (cx.add node).2

/-- Normal form leads from an expression of the first context to one of the
second. -/
inductive Normalizes : Context → NodeRef → Bool → NodeRef → Context → Prop
  | kept {cx : Context} {e : NodeRef} {negated : Bool} {node : Node NodeRef} :
      cx.node? e = some node → cx.Stays negated node → Normalizes cx e negated e cx
  | truth {cx : Context} {e : NodeRef} {value : Bool} :
      cx.node? e = some (.bool value) →
      Normalizes cx e true ⟨cx.size⟩ (cx.add (.bool !value)).2
  | name {cx : Context} {e : NodeRef} {node : Node NodeRef} :
      cx.node? e = some node → cx.NamesFormula node →
      Normalizes cx e true ⟨cx.size⟩ (cx.add (.not e)).2
  | additive {cx cx₁ cx₂ last : Context} {e a b a' b' e' : NodeRef} {negated : Bool}
      {op : Additive} :
      cx.node? e = some (.additive op a b) → Normalizes cx a false a' cx₁ →
      Normalizes cx₁ b false b' cx₂ → Settles cx₂ e (.additive op a' b') e' last →
      Normalizes cx e negated e' last
  | scaling {cx cx₁ last : Context} {e factor a a' e' : NodeRef} {negated : Bool} {op : Scaling} :
      cx.node? e = some (.scaling op factor a) → Normalizes cx a false a' cx₁ →
      Settles cx₁ e (.scaling op factor a') e' last → Normalizes cx e negated e' last
  | sign {cx cx₁ last : Context} {e a a' e' : NodeRef} {negated : Bool} {op : Sign} :
      cx.node? e = some (.sign op a) → Normalizes cx a false a' cx₁ →
      Settles cx₁ e (.sign op a') e' last → Normalizes cx e negated e' last
  | relation {cx cx₁ cx₂ last : Context} {e a b a' b' e' : NodeRef} {negated : Bool}
      {op : Relation} :
      cx.node? e = some (.relation op a b) → Normalizes cx a false a' cx₁ →
      Normalizes cx₁ b false b' cx₂ →
      Settles cx₂ e (.relation (if negated then op.complement else op) a' b') e' last →
      Normalizes cx e negated e' last
  | junction {cx cx₁ cx₂ last : Context} {e a b a' b' e' : NodeRef} {negated : Bool}
      {op : Connective} :
      cx.node? e = some (.connective op a b) → op = .and ∨ op = .or →
      Normalizes cx a negated a' cx₁ → Normalizes cx₁ b negated b' cx₂ →
      Settles cx₂ e (.connective (if negated then op.dual else op) a' b') e' last →
      Normalizes cx e negated e' last
  | implication {cx cx₁ cx₂ : Context} {e a b a' b' : NodeRef} {negated : Bool} :
      cx.node? e = some (.connective .imp a b) → Normalizes cx a (!negated) a' cx₁ →
      Normalizes cx₁ b negated b' cx₂ →
      Normalizes cx e negated ⟨cx₂.size⟩
        (cx₂.add (.connective (if negated then .and else .or) a' b')).2
  | equivalence {cx cx₁ cx₂ cx₃ cx₄ : Context} {e a b posA negA posB negB : NodeRef} :
      cx.node? e = some (.connective .iff a b) → Normalizes cx a false posA cx₁ →
      Normalizes cx₁ a true negA cx₂ → Normalizes cx₂ b false posB cx₃ →
      Normalizes cx₃ b true negB cx₄ →
      Normalizes cx e false ⟨cx₄.size + 2⟩
        (((cx₄.add (.connective .or posA negB)).2.add (.connective .or posB negA)).2.add
          (.connective .and ⟨cx₄.size⟩ ⟨cx₄.size + 1⟩)).2
  | difference {cx cx₁ cx₂ cx₃ cx₄ : Context} {e a b posA negA posB negB : NodeRef} :
      cx.node? e = some (.connective .iff a b) → Normalizes cx a false posA cx₁ →
      Normalizes cx₁ a true negA cx₂ → Normalizes cx₂ b false posB cx₃ →
      Normalizes cx₃ b true negB cx₄ →
      Normalizes cx e true ⟨cx₄.size + 2⟩
        (((cx₄.add (.connective .and negA posB)).2.add (.connective .and negB posA)).2.add
          (.connective .or ⟨cx₄.size⟩ ⟨cx₄.size + 1⟩)).2
  | not {cx last : Context} {e a e' : NodeRef} {negated : Bool} :
      cx.node? e = some (.not a) → Normalizes cx a (!negated) e' last →
      Normalizes cx e negated e' last
  | quantifier {cx cx₁ last : Context} {e binding body body' e' : NodeRef} {negated : Bool}
      {op : Quantifier} :
      cx.node? e = some (.quantifier op binding body) → Normalizes cx body negated body' cx₁ →
      Settles cx₁ e (.quantifier (if negated then op.dual else op) binding body') e' last →
      Normalizes cx e negated e' last

/-! ## what the course keeps -/

section Grows

variable {cx last : Context} {e e' old : NodeRef} {node : Node NodeRef}

theorem Settles.grows (h : Settles cx old node e' last) (hw : cx.WellFormed)
    (ha : cx.Accepts node) : cx.Grows last := by
  cases h with
  | reused => exact .refl hw
  | added => exact .add hw ha

theorem Settles.within (h : Settles cx old node e' last) : cx.Within last := by
  cases h with
  | reused => exact .refl cx
  | added => exact .add cx node

/-- Settling appends at most one node. -/
theorem Settles.grows_of_wellFormed (h : Settles cx old node e' last) (hw : last.WellFormed) :
    cx.Grows last := by
  have hwithin := h.within
  cases h with
  | reused => exact .refl hw
  | added => exact ⟨hw, hwithin, rfl, rfl, rfl⟩

/-- What settles is behind its handle. -/
theorem Settles.node? (h : Settles cx old node e' last) : last.node? e' = some node := by
  cases h with
  | reused hnode => exact hnode
  | added => exact Context.node?_add_self cx node

/-- Operands in range may stand under an operator. -/
theorem Context.accepts_of_children (hrange : ∀ child ∈ node.children, child.index < cx.size)
    (hadmits : cx.Admits node) (hbind : ∀ name ty, node ≠ .bind name ty)
    (htype : ∀ ty, node ≠ .type ty) : cx.Accepts node := by
  refine ⟨fun child hchild => ?_, hadmits, htype⟩
  cases node with
  | bind name ty => exact absurd rfl (hbind name ty)
  | _ => exact hrange child hchild

theorem Context.accepts_connective {op : Connective} {a b : NodeRef} (ha : a.index < cx.size)
    (hb : b.index < cx.size) : cx.Accepts (.connective op a b) :=
  accepts_of_children (by simp [Node.children, ha, hb]) trivial (by simp) (by simp)

theorem Context.accepts_not (he : e.index < cx.size) : cx.Accepts (.not e) :=
  accepts_of_children (by simp [Node.children, he]) trivial (by simp) (by simp)

/-- Two connectives and a third one over them are appended. -/
theorem Context.Grows.addConnectives {a b c d : NodeRef} (inner outer : Connective)
    (hw : cx.WellFormed) (ha : a.index < cx.size) (hb : b.index < cx.size) (hc : c.index < cx.size)
    (hd : d.index < cx.size) :
    cx.Grows (((cx.add (.connective inner a b)).2.add (.connective inner c d)).2.add
      (.connective outer ⟨cx.size⟩ ⟨cx.size + 1⟩)).2 := by
  have hleft : cx.Grows (cx.add (.connective inner a b)).2 := .add hw (accepts_connective ha hb)
  have hright : (cx.add (.connective inner a b)).2.Grows
      ((cx.add (.connective inner a b)).2.add (.connective inner c d)).2 :=
    .add hleft.wellFormed
      (accepts_connective (hleft.within.index_lt hc) (hleft.within.index_lt hd))
  refine (hleft.trans hright).trans (.add hright.wellFormed (accepts_connective ?_ ?_))
  · simp only [size_add]; omega
  · simp only [size_add]; omega

end Grows

/-- Normal form appends nodes and does nothing else to the context. -/
theorem Normalizes.grows {cx last : Context} {e e' : NodeRef} {negated : Bool}
    (h : Normalizes cx e negated e' last) (hw : cx.WellFormed) :
    cx.Grows last ∧ e'.index < last.size := by
  induction h with
  | kept hnode => exact ⟨.refl hw, Context.index_lt_of_node? hnode⟩
  | truth hnode => exact ⟨.add hw ⟨by simp [Node.handles, Node.children], trivial, by simp⟩, by simp⟩
  | name hnode =>
    exact ⟨.add hw (Context.accepts_not (Context.index_lt_of_node? hnode)), by simp⟩
  | additive _ _ _ hsettles iha ihb | relation _ _ _ hsettles iha ihb
  | junction _ _ _ _ hsettles iha ihb =>
    obtain ⟨hga, hra⟩ := iha hw
    obtain ⟨hgb, hrb⟩ := ihb hga.wellFormed
    have hra' := hgb.within.index_lt hra
    refine ⟨(hga.trans hgb).trans (hsettles.grows hgb.wellFormed ?_),
      Context.index_lt_of_node? hsettles.node?⟩
    exact Context.accepts_of_children (by simp [Node.children, hra', hrb]) trivial (by simp) (by simp)
  | scaling hnode _ hsettles iha =>
    obtain ⟨hga, hra⟩ := iha hw
    -- the factor is the old one
    have hold := hga.within.admits (hw.admits _ _ hnode)
    have hfactor := hga.within.index_lt
      (Nat.lt_trans (hw.children_older hnode _ List.mem_cons_self) (Context.index_lt_of_node? hnode))
    exact ⟨hga.trans (hsettles.grows hga.wellFormed
      ⟨by simp [Node.handles, Node.children, hfactor, hra], hold, by simp⟩),
      Context.index_lt_of_node? hsettles.node?⟩
  | sign _ _ hsettles iha =>
    obtain ⟨hga, hra⟩ := iha hw
    exact ⟨hga.trans (hsettles.grows hga.wellFormed
      ⟨by simp [Node.handles, Node.children, hra], trivial, by simp⟩),
      Context.index_lt_of_node? hsettles.node?⟩
  | implication _ _ _ iha ihb =>
    obtain ⟨hga, hra⟩ := iha hw
    obtain ⟨hgb, hrb⟩ := ihb hga.wellFormed
    exact ⟨(hga.trans hgb).trans (.add hgb.wellFormed
      (Context.accepts_connective (hgb.within.index_lt hra) hrb)), by simp⟩
  | equivalence _ _ _ _ _ ihpa ihna ihpb ihnb | difference _ _ _ _ _ ihpa ihna ihpb ihnb =>
    obtain ⟨hg₁, hpa⟩ := ihpa hw
    obtain ⟨hg₂, hna⟩ := ihna hg₁.wellFormed
    obtain ⟨hg₃, hpb⟩ := ihpb hg₂.wellFormed
    obtain ⟨hg₄, hnb⟩ := ihnb hg₃.wellFormed
    have hpa := ((hg₂.trans hg₃).trans hg₄).within.index_lt hpa
    have hna := (hg₃.trans hg₄).within.index_lt hna
    have hpb := hg₄.within.index_lt hpb
    exact ⟨(((hg₁.trans hg₂).trans hg₃).trans hg₄).trans
      (.addConnectives _ _ hg₄.wellFormed (by assumption) (by assumption) (by assumption)
        (by assumption)), by simp⟩
  | not _ _ ih => exact ih hw
  | quantifier hnode _ hsettles ih =>
    obtain ⟨hg, hr⟩ := ih hw
    -- the binding is the old one
    have hold := hg.within.admits (hw.admits _ _ hnode)
    have hbinding := hg.within.index_lt
      (Nat.lt_trans (hw.children_older hnode _ List.mem_cons_self) (Context.index_lt_of_node? hnode))
    exact ⟨hg.trans (hsettles.grows hg.wellFormed
      ⟨by simp [Node.handles, Node.children, hbinding, hr], hold, by simp⟩),
      Context.index_lt_of_node? hsettles.node?⟩

/-! ## one course -/

theorem Settles.unique {cx last last' : Context} {old e e' : NodeRef} {node : Node NodeRef}
    (h : Settles cx old node e last) (h' : Settles cx old node e' last') : e = e' ∧ last = last' := by
  cases h with
  | reused hnode =>
    cases h' with
    | reused => exact ⟨rfl, rfl⟩
    | added hother => exact absurd hnode hother
  | added hother =>
    cases h' with
    | reused hnode => exact absurd hnode hother
    | added => exact ⟨rfl, rfl⟩

/-- A negation in front of a name does not leave it as it is. -/
theorem Context.Stays.not_namesFormula {cx : Context} {node : Node NodeRef}
    (h : cx.Stays true node) : ¬ cx.NamesFormula node := by
  cases node with
  | id => cases h
  | var name d =>
    rintro ⟨decl, hdecl, hty⟩
    exact h rfl decl hdecl hty
  | _ => exact id

/-- From one beginning there is one course only. -/
theorem Normalizes.unique {cx last last' : Context} {e e₁ e₂ : NodeRef} {negated : Bool}
    (h : Normalizes cx e negated e₁ last) (h' : Normalizes cx e negated e₂ last') :
    e₁ = e₂ ∧ last = last' := by
  induction h generalizing e₂ last' with
  | kept hnode hstays =>
    cases h' with
    | kept => exact ⟨rfl, rfl⟩
    | name hnode' hname =>
      cases hnode.symm.trans hnode'
      exact absurd hname hstays.not_namesFormula
    | _ => grind [Context.Stays]
  | truth hnode =>
    cases h' with
    | truth hnode' =>
      cases hnode.symm.trans hnode'
      exact ⟨rfl, rfl⟩
    | _ => grind [Context.Stays, Context.NamesFormula]
  | name hnode hname =>
    cases h' with
    | kept hnode' hstays =>
      cases hnode.symm.trans hnode'
      exact absurd hname hstays.not_namesFormula
    | name => exact ⟨rfl, rfl⟩
    | _ => grind [Context.NamesFormula]
  | additive hnode _ _ hsettles iha ihb =>
    cases h' with
    | additive hnode' ha hb hsettles' =>
      cases hnode.symm.trans hnode'
      obtain ⟨rfl, rfl⟩ := iha ha
      obtain ⟨rfl, rfl⟩ := ihb hb
      exact hsettles.unique hsettles'
    | _ => grind [Context.Stays, Context.NamesFormula]
  | scaling hnode _ hsettles iha =>
    cases h' with
    | scaling hnode' ha hsettles' =>
      cases hnode.symm.trans hnode'
      obtain ⟨rfl, rfl⟩ := iha ha
      exact hsettles.unique hsettles'
    | _ => grind [Context.Stays, Context.NamesFormula]
  | sign hnode _ hsettles iha =>
    cases h' with
    | sign hnode' ha hsettles' =>
      cases hnode.symm.trans hnode'
      obtain ⟨rfl, rfl⟩ := iha ha
      exact hsettles.unique hsettles'
    | _ => grind [Context.Stays, Context.NamesFormula]
  | relation hnode _ _ hsettles iha ihb =>
    cases h' with
    | relation hnode' ha hb hsettles' =>
      cases hnode.symm.trans hnode'
      obtain ⟨rfl, rfl⟩ := iha ha
      obtain ⟨rfl, rfl⟩ := ihb hb
      exact hsettles.unique hsettles'
    | _ => grind [Context.Stays, Context.NamesFormula]
  | junction hnode _ _ _ hsettles iha ihb =>
    cases h' with
    | junction hnode' _ ha hb hsettles' =>
      cases hnode.symm.trans hnode'
      obtain ⟨rfl, rfl⟩ := iha ha
      obtain ⟨rfl, rfl⟩ := ihb hb
      exact hsettles.unique hsettles'
    | _ => grind [Context.Stays, Context.NamesFormula]
  | implication hnode _ _ iha ihb =>
    cases h' with
    | implication hnode' ha hb =>
      cases hnode.symm.trans hnode'
      obtain ⟨rfl, rfl⟩ := iha ha
      obtain ⟨rfl, rfl⟩ := ihb hb
      exact ⟨rfl, rfl⟩
    | _ => grind [Context.Stays, Context.NamesFormula]
  | equivalence hnode _ _ _ _ ihpa ihna ihpb ihnb =>
    cases h' with
    | equivalence hnode' hpa hna hpb hnb =>
      cases hnode.symm.trans hnode'
      obtain ⟨rfl, rfl⟩ := ihpa hpa
      obtain ⟨rfl, rfl⟩ := ihna hna
      obtain ⟨rfl, rfl⟩ := ihpb hpb
      obtain ⟨rfl, rfl⟩ := ihnb hnb
      exact ⟨rfl, rfl⟩
    | _ => grind [Context.Stays, Context.NamesFormula]
  | difference hnode _ _ _ _ ihpa ihna ihpb ihnb =>
    cases h' with
    | difference hnode' hpa hna hpb hnb =>
      cases hnode.symm.trans hnode'
      obtain ⟨rfl, rfl⟩ := ihpa hpa
      obtain ⟨rfl, rfl⟩ := ihna hna
      obtain ⟨rfl, rfl⟩ := ihpb hpb
      obtain ⟨rfl, rfl⟩ := ihnb hnb
      exact ⟨rfl, rfl⟩
    | _ => grind [Context.Stays, Context.NamesFormula]
  | not hnode _ ih =>
    cases h' with
    | not hnode' ha =>
      cases hnode.symm.trans hnode'
      exact ih ha
    | _ => grind [Context.Stays, Context.NamesFormula]
  | quantifier hnode _ hsettles ih =>
    cases h' with
    | quantifier hnode' hbody hsettles' =>
      cases hnode.symm.trans hnode'
      obtain ⟨rfl, rfl⟩ := ih hbody
      exact hsettles.unique hsettles'
    | _ => grind [Context.Stays, Context.NamesFormula]

end ArithLogic
