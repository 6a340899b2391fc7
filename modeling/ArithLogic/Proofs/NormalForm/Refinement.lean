import ArithLogic.Proofs.Context.Equality
import ArithLogic.Proofs.Context.Operations
import ArithLogic.Term.NormalForm

/-!
# ArithLogic.Proofs.NormalForm.Refinement

Normal form in a context is normal form of terms.  However nodes are shared,
used again or built anew, the handle that comes out denotes the normal form of
the term that the handle which went in denotes (`Normalizes.refines`), and the
context has grown by nodes alone.  So the laws of terms hold of handles: to
bring an expression into normal form twice adds up the negations.
-/

namespace ArithLogic

/-- A declaration of a formula. -/
def Context.declaresFormula (cx : Context) (d : DeclRef) : Bool :=
  (cx.decl? d).any fun decl => decl.ty == .bool

theorem Context.declaresFormula_iff {cx : Context} {d : DeclRef} :
    cx.declaresFormula d = true ↔ ∃ decl, cx.decl? d = some decl ∧ decl.ty = .bool := by
  simp [declaresFormula, Option.any_eq_true]

/-- A growth by nodes declares nothing. -/
theorem Context.Grows.declaresFormula {cx later : Context} (h : cx.Grows later) :
    later.declaresFormula = cx.declaresFormula := by
  funext d
  rw [Context.declaresFormula, h.decl?, Context.declaresFormula]

/-! ## what normal form denotes -/

section Terms

variable {cx cx₁ cx₂ last : Context} {e e' old a b c d a' b' : NodeRef} {node : Node NodeRef}
  {negated na nb : Bool} {isFormula : DeclRef → Bool} {t ta tb tc td : Term}

/-- A node that stays denotes its own normal form. -/
theorem Context.Stays.normalize_eq (h : cx.Stays negated node)
    (hformula : cx.declaresFormula = isFormula) (ht : cx.termOf? node = some t) :
    t.normalize isFormula negated = t := by
  cases node with
  | int | type => cases ht; rfl
  | bind name =>
    obtain ⟨symbol, -, ht⟩ := Option.bind_eq_some_iff.1 ht
    cases ht
    rfl
  | bool | id =>
    cases ht
    cases (show negated = false from h)
    simp [Term.normalize]
  | var name d =>
    cases ht
    rw [Term.normalize, if_neg]
    rintro hboth
    obtain ⟨hnegated, hdecl⟩ := Bool.and_eq_true_iff.1 hboth
    rw [← hformula, Context.declaresFormula_iff] at hdecl
    obtain ⟨decl, hdecl, hty⟩ := hdecl
    exact h hnegated decl hdecl hty
  | _ => exact h.elim

/-- In front of a formula that is a name the negation stays. -/
theorem Context.NamesFormula.normalize_eq (h : cx.NamesFormula node)
    (hformula : cx.declaresFormula = isFormula) (ht : cx.termOf? node = some t) :
    t.normalize isFormula true = .not t := by
  cases node with
  | id => cases ht; rfl
  | var name d =>
    cases ht
    rw [Term.normalize, ← hformula, Context.declaresFormula_iff.2 h]
    rfl
  | _ => exact h.elim

/-- What has settled denotes the term of its node. -/
theorem Settles.term? (h : Settles cx old node e' last) (hw : last.WellFormed)
    (ht : cx.termOf? node = some t) : last.term? e' = some t := by
  rw [hw.term?_eq h.node?]
  exact h.within.termOf? ht

theorem Context.termOf?_connective (op : Connective) (ha : cx.term? a = some ta)
    (hb : cx.term? b = some tb) :
    cx.termOf? (.connective op a b) = some (.connective op ta tb) := by
  simp only [termOf?, ha, hb]
  rfl

/-- Two connectives and a third one over them denote what they are made of. -/
theorem Context.term?_addConnectives (inner outer : Connective) (hw : cx.WellFormed)
    (ha : cx.term? a = some ta) (hb : cx.term? b = some tb) (hc : cx.term? c = some tc)
    (hd : cx.term? d = some td) :
    (((cx.add (.connective inner a b)).2.add (.connective inner c d)).2.add
      (.connective outer ⟨cx.size⟩ ⟨cx.size + 1⟩)).2.term? ⟨cx.size + 2⟩ =
      some (.connective outer (.connective inner ta tb) (.connective inner tc td)) := by
  -- the left one
  have hacceptsl : cx.Accepts (.connective inner a b) :=
    accepts_connective (index_lt_of_term? ha) (index_lt_of_term? hb)
  have hleft := hw.term?_add hacceptsl (termOf?_connective inner ha hb)
  have hwl := hw.add hacceptsl
  have hwithinl := Within.add cx (.connective inner a b)
  -- the right one
  have hacceptsr : (cx.add (.connective inner a b)).2.Accepts (.connective inner c d) :=
    accepts_connective (index_lt_of_term? (hwithinl.term? hc))
      (index_lt_of_term? (hwithinl.term? hd))
  have hright := hwl.term?_add hacceptsr
    (termOf?_connective inner (hwithinl.term? hc) (hwithinl.term? hd))
  have hwr := hwl.add hacceptsr
  have hleft := (Within.add _ (.connective inner c d)).term? hleft
  -- the one over both
  have htop := hwr.term?_add
    (accepts_connective (index_lt_of_term? hleft) (index_lt_of_term? hright))
    (termOf?_connective outer hleft hright)
  simpa only [size_add] using htop

/-- The handle of the last context denotes the normal form of the term that
the handle of the first one denotes. -/
def Refines (isFormula : DeclRef → Bool) (cx : Context) (e : NodeRef) (negated : Bool) (e' : NodeRef)
    (last : Context) : Prop :=
  ∀ {t : Term}, cx.WellFormed → cx.declaresFormula = isFormula → cx.term? e = some t →
    last.WellFormed → last.term? e' = some (t.normalize isFormula negated)

/-- What two handles denote that come out one after the other. -/
theorem Refines.pair (iha : Refines isFormula cx a na a' cx₁) (ihb : Refines isFormula cx₁ b nb b' cx₂)
    (ha : Normalizes cx a na a' cx₁) (hb : Normalizes cx₁ b nb b' cx₂) (hw : cx.WellFormed)
    (hformula : cx.declaresFormula = isFormula) (hta : cx.term? a = some ta)
    (htb : cx.term? b = some tb) :
    cx₂.term? a' = some (ta.normalize isFormula na) ∧
      cx₂.term? b' = some (tb.normalize isFormula nb) := by
  have hga := (ha.grows hw).1
  have hgb := (hb.grows hga.wellFormed).1
  have ha' := iha hw hformula hta hga.wellFormed
  exact ⟨hgb.within.term? ha', ihb hga.wellFormed (hga.declaresFormula.trans hformula)
    (hga.within.term? htb) hgb.wellFormed⟩

end Terms

/-- The handle that comes out denotes the normal form of the term that the
handle which went in denotes. -/
theorem Normalizes.refines {cx last : Context} {e e' : NodeRef} {negated : Bool}
    {isFormula : DeclRef → Bool} (h : Normalizes cx e negated e' last) :
    Refines isFormula cx e negated e' last := by
  induction h with
  | kept hnode hstays =>
    intro t hw hformula ht _
    rw [ht, hstays.normalize_eq hformula (hw.term?_eq hnode ▸ ht)]
  | truth hnode =>
    intro t hw _ ht hlast
    rw [hw.term?_eq hnode] at ht
    cases ht
    rw [hlast.term?_eq (Context.node?_add_self ..)]
    simp [Context.termOf?, Term.normalize]
  | name hnode hname =>
    intro t hw hformula ht _
    rw [hname.normalize_eq hformula (hw.term?_eq hnode ▸ ht)]
    refine hw.term?_add (Context.accepts_not (Context.index_lt_of_node? hnode)) ?_
    simp only [Context.termOf?, ht]
    rfl
  | additive hnode ha hb hsettles iha ihb =>
    intro t hw hformula ht hlast
    obtain ⟨tl, tr, hl, hr, rfl⟩ := hw.term?_additive hnode ht
    obtain ⟨hl', hr'⟩ := iha.pair ihb ha hb hw hformula hl hr
    refine hsettles.term? hlast ?_
    simp only [Context.termOf?, hl', hr']
    rfl
  | relation hnode ha hb hsettles iha ihb =>
    intro t hw hformula ht hlast
    obtain ⟨tl, tr, hl, hr, rfl⟩ := hw.term?_relation hnode ht
    obtain ⟨hl', hr'⟩ := iha.pair ihb ha hb hw hformula hl hr
    refine hsettles.term? hlast ?_
    simp only [Context.termOf?, hl', hr']
    rfl
  | junction hnode hop ha hb hsettles iha ihb =>
    intro t hw hformula ht hlast
    obtain ⟨tl, tr, hl, hr, rfl⟩ := hw.term?_connective hnode ht
    obtain ⟨hl', hr'⟩ := iha.pair ihb ha hb hw hformula hl hr
    rw [hsettles.term? hlast (Context.termOf?_connective _ hl' hr')]
    rcases hop with rfl | rfl <;> rfl
  | implication hnode ha hb iha ihb =>
    intro t hw hformula ht _
    obtain ⟨tl, tr, hl, hr, rfl⟩ := hw.term?_connective hnode ht
    obtain ⟨hl', hr'⟩ := iha.pair ihb ha hb hw hformula hl hr
    have hgb := (hb.grows (ha.grows hw).1.wellFormed).1
    exact hgb.wellFormed.term?_add (Context.accepts_connective (Context.index_lt_of_term? hl')
      (Context.index_lt_of_term? hr')) (Context.termOf?_connective _ hl' hr')
  | equivalence hnode hpa hna hpb hnb ihpa ihna ihpb ihnb
  | difference hnode hpa hna hpb hnb ihpa ihna ihpb ihnb =>
    intro t hw hformula ht _
    obtain ⟨tl, tr, hl, hr, rfl⟩ := hw.term?_connective hnode ht
    have hg₁ := (hpa.grows hw).1
    have hg₂ := hg₁.trans (hna.grows hg₁.wellFormed).1
    have hg₃ := (hpb.grows hg₂.wellFormed).1
    have hg₄ := hg₃.trans (hnb.grows hg₃.wellFormed).1
    -- the right side is there still when the left one has been worked on
    have hr := hg₂.within.term? hr
    obtain ⟨hposA, hnegA⟩ := ihpa.pair ihna hpa hna hw hformula hl hl
    obtain ⟨hposB, hnegB⟩ := ihpb.pair ihnb hpb hnb hg₂.wellFormed
      (hg₂.declaresFormula.trans hformula) hr hr
    have hposA := hg₄.within.term? hposA
    have hnegA := hg₄.within.term? hnegA
    exact Context.term?_addConnectives _ _ hg₄.wellFormed (by assumption) (by assumption)
      (by assumption) (by assumption)
  | scaling hnode ha hsettles iha =>
    intro t hw hformula ht hlast
    -- the factor is the old one
    obtain ⟨value, hvalue⟩ := Option.ne_none_iff_exists'.1 (hw.admits _ _ hnode)
    obtain ⟨u, hu, rfl⟩ := hw.term?_scaling hnode hvalue ht
    have hga := (ha.grows hw).1
    refine hsettles.term? hlast ?_
    simp only [Context.termOf?, hga.within.literal? hvalue, iha hw hformula hu hga.wellFormed]
    rfl
  | sign hnode ha hsettles iha =>
    intro t hw hformula ht hlast
    obtain ⟨u, hu, rfl⟩ := hw.term?_sign hnode ht
    refine hsettles.term? hlast ?_
    simp only [Context.termOf?, iha hw hformula hu (ha.grows hw).1.wellFormed]
    rfl
  | not hnode ha iha =>
    intro t hw hformula ht hlast
    obtain ⟨u, hu, rfl⟩ := hw.term?_not hnode ht
    exact iha hw hformula hu hlast
  | quantifier hnode hbody hsettles ih =>
    intro t hw hformula ht hlast
    -- the binding is the old one
    rw [hw.term?_eq hnode] at ht
    obtain ⟨⟨name, ty⟩, hbinding, ht⟩ := Option.bind_eq_some_iff.1 ht
    obtain ⟨u, hu, ht⟩ := Option.bind_eq_some_iff.1 ht
    cases ht
    have hg := (hbody.grows hw).1
    refine hsettles.term? hlast ?_
    simp only [Context.termOf?, hg.within.binding? hbinding, ih hw hformula hu hg.wellFormed]
    rfl

/-! ## contexts that are reached -/

/-- A growth by nodes changes nothing else. -/
theorem Context.Grows.exists_append {cx later : Context} (h : cx.Grows later) :
    ∃ nodes, later = { cx with nodes := cx.nodes ++ nodes } := by
  obtain ⟨nodes, hnodes⟩ := h.within.exists_nodes
  refine ⟨nodes, ?_⟩
  rw [← hnodes, ← h.decls, ← h.scopes, ← h.interner]

/-- Every expression has a normal form under either polarity, and what that
denotes is the normal form of what the expression denotes. -/
theorem exists_normalize_term {s : Session} {e : NodeRef} {t : Term} (hw : s.context.WellFormed)
    (ht : s.context.term? e = some t) (negated : Bool) :
    ∃ e' s', Action.normalize e negated s = .ok (e', s') ∧ s.context.Grows s'.context ∧
      s'.context.term? e' = some (t.normalize s.context.declaresFormula negated) := by
  obtain ⟨e', s', hrun, hcourse⟩ := follows_normalize hw (Context.index_lt_of_term? ht) negated
  have hgrows := (hcourse.grows hw).1
  exact ⟨e', s', hrun, hgrows, hcourse.refines hw rfl ht hgrows.wellFormed⟩

/-- In every context that is reached, every expression has a normal form under
either polarity.  What it denotes is the normal form of the term that the
expression denotes, and the context has changed only by nodes behind the ones
it had. -/
theorem normalize_refines {s : Session} (h : s.context.Reachable) {e : NodeRef}
    (he : e.index < s.context.size) (negated : Bool) :
    ∃ e' s' t nodes, Action.normalize e negated s = .ok (e', s') ∧ s.context.term? e = some t ∧
      s'.context.term? e' = some (t.normalize s.context.declaresFormula negated) ∧
      s'.context = { s.context with nodes := s.context.nodes ++ nodes } := by
  obtain ⟨t, ht⟩ := h.wellFormed.exists_term he
  obtain ⟨e', s', hrun, hgrows, ht'⟩ := exists_normalize_term h.wellFormed ht negated
  obtain ⟨nodes, hnodes⟩ := hgrows.exists_append
  exact ⟨e', s', t, nodes, hrun, ht, ht', hnodes⟩

/-- The normal form of `p <-> p`. -/
theorem normalize_refines_selfEquivalence : ∃ e' s' nodes,
    Action.normalize ⟨7⟩ false ⟨Context.selfEquivalence, #[]⟩ = .ok (e', s') ∧
      s'.context.term? e' = some (.connective .and
        (.connective .or (.var ⟨0, "p"⟩ ⟨2⟩) (.not (.var ⟨0, "p"⟩ ⟨2⟩)))
        (.connective .or (.var ⟨0, "p"⟩ ⟨2⟩) (.not (.var ⟨0, "p"⟩ ⟨2⟩)))) ∧
      s'.context =
        { Context.selfEquivalence with nodes := Context.selfEquivalence.nodes ++ nodes } := by
  have hterm : Context.selfEquivalence.term? ⟨7⟩ =
      some (.connective .iff (.var ⟨0, "p"⟩ ⟨2⟩) (.var ⟨0, "p"⟩ ⟨2⟩)) := by decide +kernel
  obtain ⟨e', s', t, nodes, hrun, ht, ht', hnodes⟩ :=
    normalize_refines (s := ⟨Context.selfEquivalence, #[]⟩)
      Context.selfEquivalence_built.upheld.reachable (e := ⟨7⟩) (by decide) false
  cases ht.symm.trans hterm
  exact ⟨e', s', nodes, hrun, ht'.trans (by decide +kernel), hnodes⟩

/-- To bring an expression into normal form twice adds up the negations: the
outcome is like the one of doing so once, under the sum of the polarities.  If
no negation is pending the second time, it is like the outcome of the first
time already. -/
theorem same_normalize_normalize {s : Session} (h : s.context.Reachable) {e : NodeRef}
    (he : e.index < s.context.size) (first second : Bool) :
    ∃ e₁ s₁ e₂ s₂ e₃ s₃, Action.normalize e first s = .ok (e₁, s₁) ∧
      Action.normalize e₁ second s₁ = .ok (e₂, s₂) ∧
      Action.normalize e (first ^^ second) s₂ = .ok (e₃, s₃) ∧
      s₃.context.same e₂ e₃ = true ∧ (second = false → s₃.context.same e₂ e₁ = true) := by
  have hw := h.wellFormed
  obtain ⟨t, ht⟩ := hw.exists_term he
  obtain ⟨e₁, s₁, hrun₁, hg₁, ht₁⟩ := exists_normalize_term hw ht first
  obtain ⟨e₂, s₂, hrun₂, hg₂, ht₂⟩ := exists_normalize_term hg₁.wellFormed ht₁ second
  have hg := hg₁.trans hg₂
  obtain ⟨e₃, s₃, hrun₃, hg₃, ht₃⟩ :=
    exists_normalize_term hg.wellFormed (hg.within.term? ht) (first ^^ second)
  rw [hg₁.declaresFormula, Term.normalize_normalize] at ht₂
  rw [hg.declaresFormula] at ht₃
  -- all three outcomes are seen in the last context
  have hw₃ := hg₃.wellFormed
  refine ⟨e₁, s₁, e₂, s₂, e₃, s₃, hrun₁, hrun₂, hrun₃,
    hw₃.same_of_term? (hg₃.within.term? ht₂) ht₃, ?_⟩
  rintro rfl
  rw [Bool.xor_false] at ht₂
  exact hw₃.same_of_term? (hg₃.within.term? ht₂) ((hg₂.trans hg₃).within.term? ht₁)

/-- To negate `p <-> p` twice gives its normal form. -/
theorem same_normalize_normalize_selfEquivalence : ∃ e₁ s₁ e₂ s₂ e₃ s₃,
    Action.normalize ⟨7⟩ true ⟨Context.selfEquivalence, #[]⟩ = .ok (e₁, s₁) ∧
      Action.normalize e₁ true s₁ = .ok (e₂, s₂) ∧
      Action.normalize ⟨7⟩ false s₂ = .ok (e₃, s₃) ∧ s₃.context.same e₂ e₃ = true := by
  obtain ⟨e₁, s₁, e₂, s₂, e₃, s₃, hrun₁, hrun₂, hrun₃, hsame, -⟩ :=
    same_normalize_normalize (s := ⟨Context.selfEquivalence, #[]⟩)
      Context.selfEquivalence_built.upheld.reachable (e := ⟨7⟩) (by decide) true true
  exact ⟨e₁, s₁, e₂, s₂, e₃, s₃, hrun₁, hrun₂, hrun₃, hsame⟩

end ArithLogic
