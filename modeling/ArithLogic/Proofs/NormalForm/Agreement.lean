import ArithLogic.Proofs.NormalForm.Course

/-!
# ArithLogic.Proofs.NormalForm.Agreement

In a well formed context the program brings every expression into normal
form, without a breach, and takes the course of `Normalizes`.
-/

namespace ArithLogic

open Action

variable {s s' : Session} {e : NodeRef} {negated : Bool}

/-- The run ends with a handle, and the course of the context is one of
`Normalizes`. -/
def Action.Follows (action : Action NodeRef) (s : Session) (e : NodeRef) (negated : Bool) : Prop :=
  ∃ e' s', action s = .ok (e', s') ∧ Normalizes s.context e negated e' s'.context

/-- A node is used again exactly if it is the one that is wanted. -/
theorem Action.run_reuse {old : NodeRef} {found : Node NodeRef}
    (hold : s.context.node? old = some found) (unchanged : Bool) (node : Node NodeRef)
    (h : unchanged = true ↔ node = found) : ∃ e' s', reuse old unchanged node s = .ok (e', s') ∧
      Settles s.context old node e' s'.context := by
  cases unchanged with
  | true =>
    obtain rfl := h.1 rfl
    exact ⟨old, s, rfl, .reused hold⟩
  | false =>
    refine ⟨_, _, rfl, .added fun hnode => ?_⟩
    cases hold.symm.trans hnode
    exact Bool.false_ne_true (h.2 rfl)

/-- The work on a node begins with a look at it. -/
theorem Action.Follows.view {view : Node (Older e)} {f : Node (Older e) → Action NodeRef}
    (hview : s.context.view? e = some view) (h : (f view).Follows s e negated) :
    Action.Follows (do
      let node ← demand (← inspect fun cx => cx.view? e)
      f node) s e negated := by
  obtain ⟨e', s', hrun, hcourse⟩ := h
  refine ⟨e', s', ?_, hcourse⟩
  simp only [run_bind, run_inspect, hview, run_demand_some, hrun]

/-- A conjunction or a disjunction is used again if neither it nor its operands
changed. -/
theorem Action.run_reuse_connective {cx : Context} {a b : NodeRef} {op : Connective}
    (hgrows : cx.Grows s.context) (hnode : cx.node? e = some (.connective op a b))
    (negated : Bool) (a' b' : NodeRef) : ∃ e' s',
      reuse e ((if negated then op.dual else op) == op && a' == a && b' == b)
        (.connective (if negated then op.dual else op) a' b') s = .ok (e', s') ∧
      Settles s.context e (.connective (if negated then op.dual else op) a' b') e' s'.context := by
  refine run_reuse (hgrows.within.node hnode) _ _ ?_
  simp [and_assoc]

/-- The work on a node ends with recording the outcome, which changes nothing
else. -/
theorem Action.Follows.finish {action : Action NodeRef} {e' : NodeRef} (s' : Session)
    (kind : NodeKind) (hw : s.context.WellFormed) (hcourse : Normalizes s.context e negated e' s'.context)
    (hrun : action s = (do recordNormalized e kind negated e'; return e' : Action NodeRef) s') :
    action.Follows s e negated := by
  obtain ⟨node, hnode⟩ := Context.node?_of_index_lt (hcourse.grows hw).2
  refine ⟨e', ⟨s'.context, s'.events.push (.normalized kind e negated node.kind e')⟩, ?_, hcourse⟩
  rw [hrun]
  simp only [run_bind, recordNormalized, run_inspect, hnode, run_demand_some, run_record, run_pure]

/-- The program takes the course of `Normalizes` in a well formed context. -/
theorem follows_normalize {s : Session} {e : NodeRef} (hw : s.context.WellFormed)
    (he : e.index < s.context.size) (negated : Bool) :
    (Action.normalize e negated).Follows s e negated := by
  obtain ⟨node, hnode⟩ := Context.node?_of_index_lt he
  obtain ⟨view, hview, rfl⟩ := hw.exists_view? hnode
  -- the older handles of the view are brought into normal form by the induction
  have hpart : ∀ {a : Older e} {s₁ : Session}, s.context.Grows s₁.context → ∀ flag,
      (Action.normalize a.1 flag).Follows s₁ a.1 flag := fun {a s₁} hgrows flag =>
    have := a.2
    follows_normalize hgrows.wellFormed (hgrows.within.index_lt (Nat.lt_trans a.2 he)) flag
  rw [Action.normalize]
  refine .view hview ?_
  cases view with
  | relation op a b =>
    obtain ⟨a', s₁, hruna, ha⟩ := hpart (a := a) (.refl hw) false
    have hga := (ha.grows hw).1
    obtain ⟨b', s₂, hrunb, hb⟩ := hpart (a := b) hga false
    have hgb := (hb.grows hga.wellFormed).1
    obtain ⟨e', s₃, hrun, hsettles⟩ := run_reuse ((hga.trans hgb).within.node hnode)
      ((if negated then op.complement else op) == op && a' == a.1 && b' == b.1)
      (.relation (if negated then op.complement else op) a' b')
      (by simp [Node.map, and_assoc])
    refine .finish s₃ (.relation op) hw (.relation hnode ha hb hsettles) ?_
    simp only [run_bind, hruna, hrunb, hrun, Node.kind]
  | additive op a b =>
    obtain ⟨a', s₁, hruna, ha⟩ := hpart (a := a) (.refl hw) false
    have hga := (ha.grows hw).1
    obtain ⟨b', s₂, hrunb, hb⟩ := hpart (a := b) hga false
    have hgb := (hb.grows hga.wellFormed).1
    obtain ⟨e', s₃, hrun, hsettles⟩ := run_reuse ((hga.trans hgb).within.node hnode)
      (a' == a.1 && b' == b.1) (.additive op a' b') (by simp [Node.map])
    refine .finish s₃ (.additive op) hw (.additive hnode ha hb hsettles) ?_
    simp only [run_bind, hruna, hrunb, hrun, Node.kind]
  | scaling op factor a =>
    obtain ⟨a', s₁, hruna, ha⟩ := hpart (a := a) (.refl hw) false
    have hga := (ha.grows hw).1
    obtain ⟨e', s₂, hrun, hsettles⟩ := run_reuse (hga.within.node hnode) (a' == a.1)
      (.scaling op factor.1 a') (by simp [Node.map])
    refine .finish s₂ (.scaling op) hw (.scaling hnode ha hsettles) ?_
    simp only [run_bind, hruna, hrun, Node.kind]
  | sign op a =>
    obtain ⟨a', s₁, hruna, ha⟩ := hpart (a := a) (.refl hw) false
    have hga := (ha.grows hw).1
    obtain ⟨e', s₂, hrun, hsettles⟩ := run_reuse (hga.within.node hnode) (a' == a.1) (.sign op a')
      (by simp [Node.map])
    refine .finish s₂ (.sign op) hw (.sign hnode ha hsettles) ?_
    simp only [run_bind, hruna, hrun, Node.kind]
  | not a =>
    obtain ⟨a', s₁, hruna, ha⟩ := hpart (a := a) (.refl hw) (!negated)
    refine .finish s₁ .not hw (.not hnode ha) ?_
    simp only [run_bind, hruna, Node.kind]
  | quantifier op binding body =>
    obtain ⟨body', s₁, hrunbody, hbody⟩ := hpart (a := body) (.refl hw) negated
    have hgbody := (hbody.grows hw).1
    obtain ⟨e', s₂, hrun, hsettles⟩ := run_reuse (hgbody.within.node hnode)
      ((if negated then op.dual else op) == op && body' == body.1)
      (.quantifier (if negated then op.dual else op) binding.1 body')
      (by simp [Node.map])
    refine .finish s₂ (.quantifier op) hw (.quantifier hnode hbody hsettles) ?_
    simp only [run_bind, hrunbody, hrun, Node.kind]
  | connective op a b =>
    by_cases hop : op = .and ∨ op = .or
    · obtain ⟨a', s₁, hruna, ha⟩ := hpart (a := a) (.refl hw) negated
      have hga := (ha.grows hw).1
      obtain ⟨b', s₂, hrunb, hb⟩ := hpart (a := b) hga negated
      have hgb := (hb.grows hga.wellFormed).1
      obtain ⟨e', s₃, hrun, hsettles⟩ := run_reuse_connective (hga.trans hgb) hnode negated a' b'
      refine .finish s₃ (.connective op) hw (.junction hnode hop ha hb hsettles) ?_
      rcases hop with rfl | rfl <;> simp only [run_bind, hruna, hrunb, hrun, Node.kind]
    · cases op with
      | and | or => simp at hop
      | imp =>
        obtain ⟨a', s₁, hruna, ha⟩ := hpart (a := a) (.refl hw) (!negated)
        have hga := (ha.grows hw).1
        obtain ⟨b', s₂, hrunb, hb⟩ := hpart (a := b) hga negated
        refine .finish ⟨_, s₂.events⟩ (.connective .imp) hw (.implication hnode ha hb) ?_
        simp only [run_bind, hruna, hrunb, run_add, Node.kind]
      | iff =>
        obtain ⟨posA, s₁, hrunpa, hpa⟩ := hpart (a := a) (.refl hw) false
        have hg₁ := (hpa.grows hw).1
        obtain ⟨negA, s₂, hrunna, hna⟩ := hpart (a := a) hg₁ true
        have hg₂ := hg₁.trans (hna.grows hg₁.wellFormed).1
        obtain ⟨posB, s₃, hrunpb, hpb⟩ := hpart (a := b) hg₂ false
        have hg₃ := hg₂.trans (hpb.grows hg₂.wellFormed).1
        obtain ⟨negB, s₄, hrunnb, hnb⟩ := hpart (a := b) hg₃ true
        cases negated with
        | false =>
          refine .finish ⟨_, s₄.events⟩ (.connective .iff) hw
            (.equivalence hnode hpa hna hpb hnb) ?_
          simp only [run_bind, hrunpa, hrunna, hrunpb, hrunnb, Bool.false_eq_true, if_false, run_add,
            Context.size_add, Node.kind]
        | true =>
          refine .finish ⟨_, s₄.events⟩ (.connective .iff) hw
            (.difference hnode hpa hna hpb hnb) ?_
          simp only [run_bind, hrunpa, hrunna, hrunpb, hrunnb, if_true, run_add, Context.size_add,
            Node.kind]
  | bool value =>
    cases negated with
    | false =>
      refine .finish s .bool hw (.kept hnode rfl) ?_
      simp only [run_bind, Bool.false_eq_true, if_false, run_pure, Node.kind]
    | true =>
      refine .finish ⟨_, s.events⟩ .bool hw (.truth hnode) ?_
      simp only [run_bind, if_true, run_add, Node.kind]
  | id name =>
    cases negated with
    | false =>
      refine .finish s .id hw (.kept hnode rfl) ?_
      simp only [run_bind, Bool.false_eq_true, if_false, run_pure, Node.kind]
    | true =>
      refine .finish ⟨_, s.events⟩ .id hw (.name hnode trivial) ?_
      simp only [run_bind, if_true, run_add, Node.kind]
  | var name d =>
    cases negated with
    | false =>
      refine .finish s .var hw (.kept hnode (fun h => by cases h)) ?_
      simp only [run_bind, Bool.false_eq_true, if_false, run_pure, Node.kind]
    | true =>
      -- a variable refers to a declaration
      have hname : s.context.declName? d = some name := hw.admits _ _ hnode
      obtain ⟨decl, hdecl, -⟩ := Option.bind_eq_some_iff.1 hname
      by_cases hty : decl.ty = .bool
      · refine .finish ⟨_, s.events⟩ .var hw (.name hnode ⟨decl, hdecl, hty⟩) ?_
        simp only [run_bind, if_true, run_inspect, hdecl, run_demand_some, if_pos hty, run_add,
          Node.kind]
      · have hstays : s.context.Stays true (.var name d) := by
          intro _ found hfound
          cases hdecl.symm.trans hfound
          exact hty
        refine .finish s .var hw (.kept hnode hstays) ?_
        simp only [run_bind, if_true, run_inspect, hdecl, run_demand_some, if_neg hty, run_pure,
          Node.kind]
  | int value =>
    refine .finish s .int hw (.kept hnode trivial) ?_
    simp only [run_bind, run_pure, Node.kind]
  | bind name ty =>
    refine .finish s .bind hw (.kept hnode trivial) ?_
    simp only [run_bind, run_pure, Node.kind]
  | type ty =>
    refine .finish s .type hw (.kept hnode trivial) ?_
    simp only [run_bind, run_pure, Node.kind]
termination_by e.index

/-! ## elaborations -/

namespace Elaboration

variable {e : Elaboration} {s s' : Session} {e' : NodeRef}

/-- The normal form of an elaboration is of the same type. -/
theorem run_normalForm (h : normalize e.expr false s = .ok (e', s')) :
    e.normalForm s = .ok (⟨e', e.ty⟩, s') := by
  simp only [normalForm, run_bind, h, run_pure]

/-- So is that of the negation of a formula. -/
theorem run_negatedForm (hformula : e.isFormula s.context = true)
    (h : normalize e.expr true s = .ok (e', s')) : e.negatedForm s = .ok (⟨e', e.ty⟩, s') := by
  simp only [negatedForm, run_bind, run_inspect, if_pos hformula, h, run_pure]

/-- What is no formula is not negated. -/
theorem run_negatedForm_other {node : Node NodeRef} (hnode : s.context.node? e.expr = some node)
    (hformula : e.isFormula s.context ≠ true) :
    e.negatedForm s = .error (.notFormula node.kind) := by
  simp only [negatedForm, run_bind, run_inspect, if_neg hformula, hnode, run_demand_some, run_stop]

theorem isFormula_eq_true_iff {cx : Context} :
    e.isFormula cx = true ↔ e.ty = .bool ∧ cx.isBinding e.expr = false := by
  rw [isFormula, Bool.and_eq_true, beq_iff_eq, Bool.not_eq_true']

end Elaboration

end ArithLogic
