import ArithLogic.Proofs.History
import ArithLogic.Proofs.NormalForm.Semantics

/-!
# ArithLogic.Proofs.NormalForm.Meaning

Normal form keeps the meaning of formulas: under every assignment the outcome
holds when the formula does, or when it does not if a negation is pending.
Both polarities are proved at once, by induction over the course, and so is
what becomes of numbers; that every part is of the type that its operator
demands comes from scoping.
-/

namespace ArithLogic

/-! ## polarity -/

/-- A proposition, or its negation. -/
def Polar (negated : Bool) (p : Prop) : Prop := if negated then ¬ p else p

section Polarity

variable {p q : Prop}

@[simp] theorem polar_false : Polar false p ↔ p := by simp [Polar]

@[simp] theorem polar_true : Polar true p ↔ ¬ p := by simp [Polar]

/-- A negation is pending over a negation. -/
theorem polar_not (negated : Bool) : Polar (!negated) p ↔ Polar negated (¬ p) := by
  cases negated <;> simp

theorem Relation.polar (op : Relation) (negated : Bool) (a b : Int) :
    (if negated then op.complement else op).holds a b ↔ Polar negated (op.holds a b) := by
  cases negated with
  | false => simp
  | true => simpa using op.holds_complement a b

/-- The laws of De Morgan. -/
theorem Connective.polar_junction {op : Connective} (h : op = .and ∨ op = .or) (negated : Bool) :
    (if negated then op.dual else op).holds (Polar negated p) (Polar negated q) ↔
      Polar negated (op.holds p q) := by
  rcases h with rfl | rfl <;> cases negated <;> simp [holds, dual] <;> grind

/-- An implication fails when its premise holds and its conclusion does not. -/
theorem Connective.polar_implication (negated : Bool) :
    (if negated then and else or).holds (Polar (!negated) p) (Polar negated q) ↔
      Polar negated (imp.holds p q) := by
  cases negated <;> simp [holds] <;> grind

theorem Quantifier.polar (op : Quantifier) (negated : Bool) (variant p : Assignment → Prop) :
    (if negated then op.dual else op).holds variant (fun τ => Polar negated (p τ)) ↔
      Polar negated (op.holds variant p) := by
  cases negated with
  | false => simp
  | true => simpa using op.holds_dual variant p

end Polarity

/-! ## what normal form keeps -/

/-- The second expression means what the first one does: the same number, or
the same truth value, or the other one if negated. -/
def Context.Agrees (cx last : Context) (div : Int → Int → Int) (ty : Ty) (e e' : NodeRef)
    (negated : Bool) : Prop :=
  match ty with
  | .int => ∀ σ, last.number div e' σ = cx.number div e σ
  | .bool => ∀ σ, last.truth div e' σ ↔ Polar negated (cx.truth div e σ)
  | .kind => True

namespace Context

variable {cx mid last : Context} {div : Int → Int → Int} {ty : Ty} {e e' : NodeRef} {negated : Bool}

/-- The second expression may be seen from a later context. -/
theorem Agrees.later (h : cx.Agrees mid div ty e e' negated) (hw : mid.WellFormed)
    (he : e'.index < mid.size) (hgrows : mid.Grows last) : cx.Agrees last div ty e e' negated := by
  cases ty with
  | bool => exact fun σ => by rw [hgrows.truth_eq hw he]; exact h σ
  | int => exact fun σ => by rw [hgrows.number_eq hw he]; exact h σ
  | kind => trivial

/-- The first expression may be seen from an earlier context. -/
theorem Agrees.earlier (h : mid.Agrees last div ty e e' negated) (hw : cx.WellFormed)
    (he : e.index < cx.size) (hgrows : cx.Grows mid) : cx.Agrees last div ty e e' negated := by
  cases ty with
  | bool => exact fun σ => by rw [← hgrows.truth_eq hw he]; exact h σ
  | int => exact fun σ => by rw [← hgrows.number_eq hw he]; exact h σ
  | kind => trivial

/-- A formula that a pending negation cannot change is under none. -/
theorem Stays.eq_false {names : Resolution} {node : Node NodeRef} (h : cx.Stays negated node)
    (hnode : cx.node? e = some node) (hs : cx.Scoped names e .bool) : negated = false := by
  generalize hty : Ty.bool = ty at hs
  cases hs with
  | bool hfound => cases hnode.symm.trans hfound; exact h
  | var hfound _ hdecl =>
    cases hnode.symm.trans hfound
    cases negated with
    | false => rfl
    | true => exact absurd hty.symm (h rfl _ hdecl)
  | int => cases hty
  | additive hfound | scaling hfound | sign hfound | relation hfound | connective hfound
  | not hfound | quantifier hfound => cases hnode.symm.trans hfound; cases h

end Context

/-- What normal form keeps of two operands, after both were brought into it. -/
theorem Normalizes.agrees_pair {cx cx₁ cx₂ last : Context} {a b a' b' : NodeRef} {na nb : Bool}
    {div : Int → Int → Int} {ta tb : Ty} (ha : Normalizes cx a na a' cx₁)
    (hb : Normalizes cx₁ b nb b' cx₂) (hw : cx.WellFormed) (hrange : b.index < cx.size)
    (hlast : cx₂.Grows last) (iha : cx.Agrees cx₁ div ta a a' na)
    (ihb : cx₁.Agrees cx₂ div tb b b' nb) :
    cx.Agrees last div ta a a' na ∧ cx.Agrees last div tb b b' nb := by
  obtain ⟨hga, hra⟩ := ha.grows hw
  obtain ⟨hgb, hrb⟩ := hb.grows hga.wellFormed
  exact ⟨iha.later hga.wellFormed hra (hgb.trans hlast),
    (ihb.later hgb.wellFormed hrb hlast).earlier hw hrange hga⟩

/-- Two connectives and a third one over them, in the context to which they
were appended. -/
theorem Context.truth_addConnectives {cx : Context} {a b c d : NodeRef} (inner outer : Connective)
    (hw : cx.WellFormed) (ha : a.index < cx.size) (hb : b.index < cx.size) (hc : c.index < cx.size)
    (hd : d.index < cx.size) (div : Int → Int → Int) (σ : Assignment) :
    ((((cx.add (.connective inner a b)).2.add (.connective inner c d)).2.add
      (.connective outer ⟨cx.size⟩ ⟨cx.size + 1⟩)).2.truth div ⟨cx.size + 2⟩ σ) =
      outer.holds (inner.holds (cx.truth div a σ) (cx.truth div b σ))
        (inner.holds (cx.truth div c σ) (cx.truth div d σ)) := by
  have hg₁ : cx.Grows (cx.add (.connective inner a b)).2 := .add hw (accepts_connective ha hb)
  have hg₂ : (cx.add (.connective inner a b)).2.Grows
      ((cx.add (.connective inner a b)).2.add (.connective inner c d)).2 :=
    .add hg₁.wellFormed (accepts_connective (hg₁.within.index_lt hc) (hg₁.within.index_lt hd))
  have hall := Grows.addConnectives inner outer hw ha hb hc hd
  -- the three nodes, and their operands
  have hleft : ∀ {later : Context}, (cx.add (.connective inner a b)).2.Within later →
      later.node? ⟨cx.size⟩ = some (.connective inner a b) :=
    fun h => h.node (node?_add_self ..)
  have hright := node?_add_self (cx.add (.connective inner a b)).2 (.connective inner c d)
  have htop := node?_add_self ((cx.add (.connective inner a b)).2.add (.connective inner c d)).2
    (.connective outer ⟨cx.size⟩ ⟨cx.size + 1⟩)
  simp only [size_add] at hright htop
  have hlast := Within.add ((cx.add (.connective inner a b)).2.add (.connective inner c d)).2
    (.connective outer ⟨cx.size⟩ ⟨cx.size + 1⟩)
  rw [hall.wellFormed.truth_eq htop]
  simp only [truthOf]
  rw [hall.wellFormed.truth_eq (hleft (hg₂.within.trans hlast)),
    hall.wellFormed.truth_eq (hlast.node hright)]
  simp only [truthOf, hall.truth_eq hw ha, hall.truth_eq hw hb, hall.truth_eq hw hc,
    hall.truth_eq hw hd]

/-- Normal form keeps what expressions mean; only formulas are negated. -/
theorem Normalizes.agrees {cx last : Context} {e e' : NodeRef} {negated : Bool}
    {names : Resolution} {ty : Ty} (h : Normalizes cx e negated e' last) (hw : cx.WellFormed)
    (hs : cx.Scoped names e ty) (hneg : negated = true → ty = .bool) (div : Int → Int → Int) :
    cx.Agrees last div ty e e' negated := by
  have hnumber : false = true → Ty.int = Ty.bool := fun h =>
    absurd h Bool.false_ne_true
  have hformula : ∀ flag : Bool, flag = true → Ty.bool = Ty.bool := fun _ _ => rfl
  have hgrows := (h.grows hw).1
  induction h generalizing names ty with
  | kept hnode hstays =>
    cases ty with
    | int => exact fun σ => rfl
    | bool =>
      cases hstays.eq_false hnode hs
      exact fun σ => polar_false.symm
    | kind => trivial
  | @truth cx e value hnode =>
    cases hs with
    | bool hfound =>
      cases hnode.symm.trans hfound
      intro σ
      rw [hw.truth_eq hnode, hgrows.wellFormed.truth_eq (Context.node?_add_self ..)]
      simp [Context.truthOf]
    | _ hfound => cases hnode.symm.trans hfound
  | @name cx e node hnode hname =>
    cases hneg rfl
    intro σ
    rw [hgrows.wellFormed.truth_eq (Context.node?_add_self ..)]
    simp only [Context.truthOf, hgrows.truth_eq hw hs.index_lt, polar_true]
  | additive hnode ha hb hsettles iha ihb =>
    cases hs with
    | additive hfound hl hr =>
      cases hnode.symm.trans hfound
      have hga := (ha.grows hw).1
      have hgb := (hb.grows hga.wellFormed).1
      obtain ⟨hA, hB⟩ := ha.agrees_pair hb hw hr.index_lt
        (hsettles.grows_of_wellFormed hgrows.wellFormed) (iha hw hl hnumber hga)
        (ihb hga.wellFormed (hr.within hga.within) hnumber hgb)
      intro σ
      rw [hw.number_eq hnode, hgrows.wellFormed.number_eq hsettles.node?]
      simp only [Context.numberOf, hA σ, hB σ]
    | _ hfound => cases hnode.symm.trans hfound
  | scaling hnode ha hsettles iha =>
    cases hs with
    | scaling hfound hfactor _ ho =>
      cases hnode.symm.trans hfound
      obtain ⟨hga, hra⟩ := ha.grows hw
      have hlast := hsettles.grows_of_wellFormed hgrows.wellFormed
      have hA := (iha hw ho hnumber hga).later hga.wellFormed hra hlast
      have hrange := Nat.lt_trans (hw.children_older hnode _ List.mem_cons_self)
        (Context.index_lt_of_node? hnode)
      intro σ
      rw [hw.number_eq hnode, hgrows.wellFormed.number_eq hsettles.node?]
      simp only [Context.numberOf, hA σ, hgrows.number_eq hw hrange]
    | _ hfound => cases hnode.symm.trans hfound
  | sign hnode ha hsettles iha =>
    cases hs with
    | sign hfound ho =>
      cases hnode.symm.trans hfound
      obtain ⟨hga, hra⟩ := ha.grows hw
      have hA := (iha hw ho hnumber hga).later hga.wellFormed hra
        (hsettles.grows_of_wellFormed hgrows.wellFormed)
      intro σ
      rw [hw.number_eq hnode, hgrows.wellFormed.number_eq hsettles.node?]
      simp only [Context.numberOf, hA σ]
    | _ hfound => cases hnode.symm.trans hfound
  | @relation _ _ _ _ _ _ _ _ _ _ _ op hnode ha hb hsettles iha ihb =>
    cases hs with
    | relation hfound hl hr =>
      cases hnode.symm.trans hfound
      have hga := (ha.grows hw).1
      have hgb := (hb.grows hga.wellFormed).1
      obtain ⟨hA, hB⟩ := ha.agrees_pair hb hw hr.index_lt
        (hsettles.grows_of_wellFormed hgrows.wellFormed) (iha hw hl hnumber hga)
        (ihb hga.wellFormed (hr.within hga.within) hnumber hgb)
      intro σ
      rw [hw.truth_eq hnode, hgrows.wellFormed.truth_eq hsettles.node?]
      simp only [Context.truthOf, hA σ, hB σ]
      exact op.polar _ _ _
    | _ hfound => cases hnode.symm.trans hfound
  | junction hnode hop ha hb hsettles iha ihb =>
    cases hs with
    | connective hfound hl hr =>
      cases hnode.symm.trans hfound
      have hga := (ha.grows hw).1
      have hgb := (hb.grows hga.wellFormed).1
      obtain ⟨hA, hB⟩ := ha.agrees_pair hb hw hr.index_lt
        (hsettles.grows_of_wellFormed hgrows.wellFormed) (iha hw hl (hformula _) hga)
        (ihb hga.wellFormed (hr.within hga.within) (hformula _) hgb)
      intro σ
      rw [hw.truth_eq hnode, hgrows.wellFormed.truth_eq hsettles.node?]
      simp only [Context.truthOf, hA σ, hB σ]
      exact Connective.polar_junction hop _
    | _ hfound => cases hnode.symm.trans hfound
  | @implication cx cx₁ cx₂ e a b a' b' negated hnode ha hb iha ihb =>
    cases hs with
    | connective hfound hl hr =>
      cases hnode.symm.trans hfound
      obtain ⟨hga, hra⟩ := ha.grows hw
      obtain ⟨hgb, hrb⟩ := hb.grows hga.wellFormed
      have haccepts : cx₂.Accepts (.connective (if negated then .and else .or) a' b') :=
        Context.accepts_connective (hgb.within.index_lt hra) hrb
      obtain ⟨hA, hB⟩ := ha.agrees_pair hb hw hr.index_lt (.add hgb.wellFormed haccepts)
        (iha hw hl (hformula _) hga) (ihb hga.wellFormed (hr.within hga.within) (hformula _) hgb)
      intro σ
      rw [hw.truth_eq hnode, hgrows.wellFormed.truth_eq (Context.node?_add_self ..)]
      simp only [Context.truthOf, hA σ, hB σ]
      exact Connective.polar_implication _
    | _ hfound => cases hnode.symm.trans hfound
  | equivalence hnode hpa hna hpb hnb ihpa ihna ihpb ihnb
  | difference hnode hpa hna hpb hnb ihpa ihna ihpb ihnb =>
    cases hs with
    | connective hfound hl hr =>
      cases hnode.symm.trans hfound
      obtain ⟨hg₁, hr₁⟩ := hpa.grows hw
      obtain ⟨hg₂, hr₂⟩ := hna.grows hg₁.wellFormed
      obtain ⟨hg₃, hr₃⟩ := hpb.grows hg₂.wellFormed
      obtain ⟨hg₄, hr₄⟩ := hnb.grows hg₃.wellFormed
      have hg₂₄ := (hg₂.trans hg₃).trans hg₄
      have hg₀₂ := hg₁.trans hg₂
      -- what each of the four normal forms means, seen from both ends
      have hposA := (ihpa hw hl (hformula _) hg₁).later hg₁.wellFormed hr₁ hg₂₄
      have hnegA := ((ihna hg₁.wellFormed (hl.within hg₁.within) (hformula _) hg₂).later
        hg₂.wellFormed hr₂ (hg₃.trans hg₄)).earlier hw hl.index_lt hg₁
      have hposB := ((ihpb hg₂.wellFormed (hr.within hg₀₂.within) (hformula _) hg₃).later
        hg₃.wellFormed hr₃ hg₄).earlier hw hr.index_lt hg₀₂
      have hnegB := (ihnb hg₃.wellFormed (hr.within (hg₀₂.trans hg₃).within) (hformula _)
        hg₄).earlier hw hr.index_lt (hg₀₂.trans hg₃)
      intro σ
      rw [hw.truth_eq hnode, Context.truth_addConnectives _ _ hg₄.wellFormed
        (by first | exact hg₂₄.within.index_lt hr₁ | exact (hg₃.trans hg₄).within.index_lt hr₂)
        (by first | exact hr₄ | exact hg₄.within.index_lt hr₃)
        (by first | exact hr₄ | exact hg₄.within.index_lt hr₃)
        (by first | exact hg₂₄.within.index_lt hr₁ | exact (hg₃.trans hg₄).within.index_lt hr₂)]
      have hpa := hposA σ
      have hna := hnegA σ
      have hpb := hposB σ
      have hnb := hnegB σ
      simp only [polar_false, polar_true] at hpa hna hpb hnb
      simp only [Context.truthOf, Connective.holds, hpa, hna, hpb, hnb, polar_false, polar_true]
      grind
    | _ hfound => cases hnode.symm.trans hfound
  | not hnode ha ih =>
    cases hs with
    | not hfound ho =>
      cases hnode.symm.trans hfound
      intro σ
      rw [hw.truth_eq hnode]
      simp only [Context.truthOf]
      exact (ih hw ho (hformula _) hgrows σ).trans (polar_not _)
    | _ hfound => cases hnode.symm.trans hfound
  | @quantifier _ _ _ _ _ _ _ _ _ op hnode hbody hsettles ih =>
    cases hs with
    | quantifier hfound hb _ _ _ _ _ ho =>
      cases hnode.symm.trans hfound
      obtain ⟨hg, hr⟩ := hbody.grows hw
      have hA := (ih hw ho (hformula _) hg).later hg.wellFormed hr
        (hsettles.grows_of_wellFormed hgrows.wellFormed)
      intro σ
      rw [hw.truth_eq hnode, hgrows.wellFormed.truth_eq hsettles.node?]
      simp only [Context.truthOf, hgrows.variant_eq (Context.index_lt_of_node? hb)]
      rw [Quantifier.holds_congr _ hA]
      exact op.polar _ _ _
    | _ hfound => cases hnode.symm.trans hfound

/-! ## formulas of an analysis -/

/-- The formulas in a formula: itself, operands of its connectives and of
`not`, and bodies of its quantifiers. -/
inductive Context.Subformula (cx : Context) (whole : NodeRef) : NodeRef → Prop
  | self : Subformula cx whole whole
  | left {e l r : NodeRef} {op : Connective} :
      Subformula cx whole e → cx.node? e = some (.connective op l r) → Subformula cx whole l
  | right {e l r : NodeRef} {op : Connective} :
      Subformula cx whole e → cx.node? e = some (.connective op l r) → Subformula cx whole r
  | operand {e a : NodeRef} :
      Subformula cx whole e → cx.node? e = some (.not a) → Subformula cx whole a
  | body {e binding body : NodeRef} {op : Quantifier} :
      Subformula cx whole e → cx.node? e = some (.quantifier op binding body) →
      Subformula cx whole body

/-- Formulas in a scoped formula are scoped, where they stand. -/
theorem Context.Subformula.exists_scoped {cx : Context} {whole e : NodeRef} {names : Resolution}
    (h : cx.Subformula whole e) (hs : cx.Scoped names whole .bool) :
    ∃ names, cx.Scoped names e .bool := by
  induction h with
  | self => exact ⟨names, hs⟩
  | left _ hnode ih =>
    obtain ⟨names, hs⟩ := ih
    generalize Ty.bool = ty at hs
    cases hs with
    | connective hfound hl => cases hnode.symm.trans hfound; exact ⟨names, hl⟩
    | _ hfound => cases hnode.symm.trans hfound
  | right _ hnode ih =>
    obtain ⟨names, hs⟩ := ih
    generalize Ty.bool = ty at hs
    cases hs with
    | connective hfound _ hr => cases hnode.symm.trans hfound; exact ⟨names, hr⟩
    | _ hfound => cases hnode.symm.trans hfound
  | operand _ hnode ih =>
    obtain ⟨names, hs⟩ := ih
    generalize Ty.bool = ty at hs
    cases hs with
    | not hfound ha => cases hnode.symm.trans hfound; exact ⟨names, ha⟩
    | _ hfound => cases hnode.symm.trans hfound
  | body _ hnode ih =>
    obtain ⟨names, hs⟩ := ih
    generalize Ty.bool = ty at hs
    cases hs with
    | quantifier hfound _ _ _ _ _ _ hbody => cases hnode.symm.trans hfound; exact ⟨_, hbody⟩
    | _ hfound => cases hnode.symm.trans hfound

/-- A formula that is scoped has a normal form under either polarity, which
means what the formula does or the opposite. -/
theorem exists_normalize_means {s : Session} {e : NodeRef} {names : Resolution}
    (hw : s.context.WellFormed) (hs : s.context.Scoped names e .bool) (negated : Bool) :
    ∃ e' s', Action.normalize e negated s = .ok (e', s') ∧ ∀ div σ,
      (s'.context.truth div e σ ↔ s.context.truth div e σ) ∧
        (s'.context.truth div e' σ ↔ Polar negated (s.context.truth div e σ)) := by
  obtain ⟨e', s', hrun, hcourse⟩ := follows_normalize hw hs.index_lt negated
  refine ⟨e', s', hrun, fun div σ => ⟨?_, hcourse.agrees hw hs (fun _ => rfl) div σ⟩⟩
  rw [(hcourse.grows hw).1.truth_eq hw hs.index_lt]

/-- Whatever an analysis has made of formulas, every formula in them has a
normal form, and a normal form of its negation, that mean just that under all
assignments; and so have the results of the analysis themselves. -/
theorem History.normalize_means {s : Session} {results : List Elaboration} (h : History s results)
    {r : Elaboration} (hr : r ∈ results) (hformula : r.isFormula s.context = true)
    {e : NodeRef} (he : s.context.Subformula r.expr e) (negated : Bool) :
    (∃ e' s', Action.normalize e negated s = .ok (e', s') ∧ ∀ div σ,
      (s'.context.truth div e σ ↔ s.context.truth div e σ) ∧
        (s'.context.truth div e' σ ↔ if negated then ¬ s.context.truth div e σ
          else s.context.truth div e σ)) ∧
    ∃ r' s', r.normalFormOf negated s = .ok (r', s') ∧ r'.ty = .bool ∧ ∀ div σ,
      (s'.context.truth div r'.expr σ ↔ if negated then ¬ s.context.truth div r.expr σ
        else s.context.truth div r.expr σ) := by
  have hsettled := h.settled
  have hw := hsettled.wellFormed
  obtain ⟨hty, hbinding⟩ := Elaboration.isFormula_eq_true_iff.1 hformula
  have hs := (hsettled.results r hr).resolved hbinding
  rw [hty] at hs
  obtain ⟨names, hsub⟩ := he.exists_scoped hs
  refine ⟨exists_normalize_means hw hsub negated, ?_⟩
  obtain ⟨r', s', hrun, hmeans⟩ := exists_normalize_means hw hs negated
  refine ⟨⟨r', r.ty⟩, s', ?_, hty, fun div σ => (hmeans div σ).2⟩
  cases negated with
  | false =>
    rw [Elaboration.normalFormOf, if_neg Bool.false_ne_true]
    exact Elaboration.run_normalForm hrun
  | true =>
    rw [Elaboration.normalFormOf, if_pos rfl]
    exact Elaboration.run_negatedForm hformula hrun

/-- The negation of a quantified formula, read from its text. -/
theorem History.normalize_means_forall : ∃ s r r' s', History s [r] ∧
    r.negatedForm s = .ok (r', s') ∧ ∀ div σ,
      (s'.context.truth div r'.expr σ ↔ ¬ s.context.truth div r.expr σ) := by
  have hparse : (parseProgram "forall x : int . x < 1").toOption = some
      [.binary ⟨.kwForall, "forall", ⟨0, 6⟩⟩
        (.binary ⟨.colon, ":", ⟨9, 10⟩⟩ (.terminal ⟨.identifier, "x", ⟨7, 8⟩⟩)
          (.terminal ⟨.kwInt, "int", ⟨11, 14⟩⟩))
        (.binary ⟨.less, "<", ⟨19, 20⟩⟩ (.terminal ⟨.identifier, "x", ⟨17, 18⟩⟩)
          (.terminal ⟨.literal, "1", ⟨21, 22⟩⟩))] := by decide +kernel
  let e : Elaboration := ⟨⟨11⟩, .bool⟩
  obtain ⟨s, hhistory, hformula⟩ := exists_of_program [e] e.isFormula hparse (by decide +kernel)
  obtain ⟨-, r', s', hrun, -, hmeans⟩ :=
    hhistory.normalize_means List.mem_cons_self hformula .self true
  exact ⟨s, _, r', s', hhistory, hrun, hmeans⟩

end ArithLogic
