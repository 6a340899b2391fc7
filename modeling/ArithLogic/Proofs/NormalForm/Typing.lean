import ArithLogic.Proofs.Context.Parts
import ArithLogic.Proofs.NormalForm.Refinement

/-!
# ArithLogic.Proofs.NormalForm.Typing

The types of expressions, by the signatures of the operators as they are read
off nodes.  An expression has the types of the term that it denotes
(`HasType.exists_term`, `WellFormed.hasType_of_term?`), so what is known of
terms is known of expressions: normal form keeps the type, and the declarations
that are used (`normalize_hasType`).
-/

namespace ArithLogic

namespace Context

/-- The expression is of the type: operators take numbers or formulas as their
signatures say, the factor of a product and the divisor of a quotient are
literals, the body of a quantifier is a formula, and a variable is of the type
at which it was declared. -/
inductive HasType (cx : Context) : NodeRef → Ty → Prop
  | bool {e : NodeRef} {value : Bool} : cx.node? e = some (.bool value) → HasType cx e .bool
  | int {e : NodeRef} {value : Int} : cx.node? e = some (.int value) → HasType cx e .int
  | var {e : NodeRef} {name : Symbol} {d : DeclRef} {decl : Decl} :
      cx.node? e = some (.var name d) → cx.decl? d = some decl → HasType cx e decl.ty
  | additive {e l r : NodeRef} {op : Additive} :
      cx.node? e = some (.additive op l r) → HasType cx l .int → HasType cx r .int →
      HasType cx e .int
  | scaling {e factor operand : NodeRef} {op : Scaling} :
      cx.node? e = some (.scaling op factor operand) → cx.isLiteral factor = true →
      HasType cx operand .int → HasType cx e .int
  | sign {e operand : NodeRef} {op : Sign} :
      cx.node? e = some (.sign op operand) → HasType cx operand .int → HasType cx e .int
  | relation {e l r : NodeRef} {op : Relation} :
      cx.node? e = some (.relation op l r) → HasType cx l .int → HasType cx r .int →
      HasType cx e .bool
  | connective {e l r : NodeRef} {op : Connective} :
      cx.node? e = some (.connective op l r) → HasType cx l .bool → HasType cx r .bool →
      HasType cx e .bool
  | not {e operand : NodeRef} :
      cx.node? e = some (.not operand) → HasType cx operand .bool → HasType cx e .bool
  | quantifier {e binding body : NodeRef} {op : Quantifier} :
      cx.node? e = some (.quantifier op binding body) → cx.isBinding binding = true →
      HasType cx body .bool → HasType cx e .bool

/-- The type at which a declaration declares its name. -/
def typeOf? (cx : Context) (d : DeclRef) : Option Ty := (cx.decl? d).map Decl.ty

variable {cx later : Context} {ty : Ty}

/-- Declarations of formulas are those of type `bool`. -/
theorem declaresFormula_eq (cx : Context) :
    cx.declaresFormula = fun d => cx.typeOf? d == some .bool := by
  funext d
  rw [declaresFormula, typeOf?]
  cases cx.decl? d <;> simp

theorem Grows.typeOf?_eq (h : cx.Grows later) : later.typeOf? = cx.typeOf? := by
  funext d
  rw [typeOf?, h.decl?, typeOf?]

/-- What binds a name at a type is a binding. -/
theorem isBinding_of_binding? {e : NodeRef} {binding : Symbol × Ty}
    (h : cx.binding? e = some binding) : cx.isBinding e = true := by
  obtain ⟨id, hnode, -⟩ := node?_of_binding? h
  rw [isBinding, hnode]

/-- What is typed denotes a term of its type. -/
theorem HasType.exists_term (hw : cx.WellFormed) {e : NodeRef} (h : cx.HasType e ty) :
    ∃ t, cx.term? e = some t ∧ t.HasType cx.typeOf? ty := by
  induction h with
  | bool hnode => exact ⟨_, hw.term?_eq hnode, .bool⟩
  | int hnode => exact ⟨_, hw.term?_eq hnode, .int⟩
  | var hnode hdecl => exact ⟨_, hw.term?_eq hnode, .var (by rw [typeOf?, hdecl]; rfl)⟩
  | additive hnode _ _ ihl ihr =>
    obtain ⟨l, hl, htl⟩ := ihl
    obtain ⟨r, hr, htr⟩ := ihr
    exact ⟨_, by rw [hw.term?_eq hnode, termOf?, hl, hr]; rfl, .additive htl htr⟩
  | @scaling _ _ _ _ hnode hfactor _ ih =>
    obtain ⟨value, hvalue⟩ := Option.isSome_iff_exists.1 (isLiteral_eq .. ▸ hfactor)
    obtain ⟨t, ht, hty⟩ := ih
    exact ⟨_, by rw [hw.term?_eq hnode, termOf?, hvalue, ht]; rfl, .scaling hty⟩
  | sign hnode _ ih =>
    obtain ⟨t, ht, hty⟩ := ih
    exact ⟨_, by rw [hw.term?_eq hnode, termOf?, ht]; rfl, .sign hty⟩
  | relation hnode _ _ ihl ihr =>
    obtain ⟨l, hl, htl⟩ := ihl
    obtain ⟨r, hr, htr⟩ := ihr
    exact ⟨_, by rw [hw.term?_eq hnode, termOf?, hl, hr]; rfl, .relation htl htr⟩
  | connective hnode _ _ ihl ihr =>
    obtain ⟨l, hl, htl⟩ := ihl
    obtain ⟨r, hr, htr⟩ := ihr
    exact ⟨_, termOf?_connective _ hl hr ▸ hw.term?_eq hnode, .connective htl htr⟩
  | not hnode _ ih =>
    obtain ⟨t, ht, hty⟩ := ih
    exact ⟨_, by rw [hw.term?_eq hnode, termOf?, ht]; rfl, .not hty⟩
  | quantifier hnode _ _ ih =>
    obtain ⟨pair, hpair⟩ := Option.ne_none_iff_exists'.1 (hw.admits _ _ hnode)
    obtain ⟨t, ht, hty⟩ := ih
    exact ⟨_, by rw [hw.term?_eq hnode, termOf?, hpair, ht]; rfl, .quantifier hty⟩

/-- What denotes a term is of the types of the term. -/
theorem WellFormed.hasType_of_term? (h : cx.WellFormed) {e : NodeRef} {t : Term} {ty : Ty}
    (ht : cx.term? e = some t) (hty : t.HasType cx.typeOf? ty) : cx.HasType e ty := by
  obtain ⟨node, hnode⟩ := node?_of_term? ht
  -- the children are older, so the induction speaks of them
  have hpart : ∀ {c : NodeRef} {u : Term} {ty : Ty}, c ∈ node.children → cx.term? c = some u →
      u.HasType cx.typeOf? ty → cx.HasType c ty := fun {c u ty} hc hu hty =>
    have := h.children_older hnode c hc
    h.hasType_of_term? hu hty
  rw [h.term?_eq hnode] at ht
  cases node with
  | id | type => cases ht; cases hty
  | bool => cases ht; cases hty; exact .bool hnode
  | int => cases ht; cases hty; exact .int hnode
  | var name d =>
    cases ht
    cases hty with
    | var hd =>
      obtain ⟨decl, hdecl, rfl⟩ := Option.map_eq_some_iff.1 hd
      exact .var hnode hdecl
  | additive op l r =>
    obtain ⟨tl, hl, ht⟩ := Option.bind_eq_some_iff.1 ht
    obtain ⟨tr, hr, ht⟩ := Option.bind_eq_some_iff.1 ht
    cases ht
    cases hty with
    | additive htl htr =>
      exact .additive hnode (hpart (by simp [Node.children]) hl htl)
        (hpart (by simp [Node.children]) hr htr)
  | relation op l r =>
    obtain ⟨tl, hl, ht⟩ := Option.bind_eq_some_iff.1 ht
    obtain ⟨tr, hr, ht⟩ := Option.bind_eq_some_iff.1 ht
    cases ht
    cases hty with
    | relation htl htr =>
      exact .relation hnode (hpart (by simp [Node.children]) hl htl)
        (hpart (by simp [Node.children]) hr htr)
  | connective op l r =>
    obtain ⟨tl, hl, ht⟩ := Option.bind_eq_some_iff.1 ht
    obtain ⟨tr, hr, ht⟩ := Option.bind_eq_some_iff.1 ht
    cases ht
    cases hty with
    | connective htl htr =>
      exact .connective hnode (hpart (by simp [Node.children]) hl htl)
        (hpart (by simp [Node.children]) hr htr)
  | scaling op factor operand =>
    obtain ⟨value, hvalue, ht⟩ := Option.bind_eq_some_iff.1 ht
    obtain ⟨u, hu, ht⟩ := Option.bind_eq_some_iff.1 ht
    cases ht
    cases hty with
    | scaling hu' =>
      exact .scaling hnode (by rw [isLiteral_eq, hvalue]; rfl)
        (hpart (by simp [Node.children]) hu hu')
  | sign op operand =>
    obtain ⟨u, hu, ht⟩ := Option.bind_eq_some_iff.1 ht
    cases ht
    cases hty with
    | sign hu' => exact .sign hnode (hpart (by simp [Node.children]) hu hu')
  | not operand =>
    obtain ⟨u, hu, ht⟩ := Option.bind_eq_some_iff.1 ht
    cases ht
    cases hty with
    | not hu' => exact .not hnode (hpart (by simp [Node.children]) hu hu')
  | bind id ty =>
    obtain ⟨name, hname, ht⟩ := Option.bind_eq_some_iff.1 ht
    cases ht
    cases hty
  | quantifier op binding body =>
    obtain ⟨pair, hpair, ht⟩ := Option.bind_eq_some_iff.1 ht
    obtain ⟨u, hu, ht⟩ := Option.bind_eq_some_iff.1 ht
    cases ht
    cases hty with
    | quantifier hu' =>
      exact .quantifier hnode (isBinding_of_binding? hpair) (hpart (by simp [Node.children]) hu hu')
termination_by e.index

end Context

/-- In every context that is reached, an expression that is typed by the
signatures of the operators has a normal form under either polarity, of a number
under none, that is of the same type and uses the same declarations. -/
theorem normalize_hasType {s : Session} (h : s.context.Reachable) {e : NodeRef} {ty : Ty}
    (hty : s.context.HasType e ty) (negated : Bool) (hneg : negated = true → ty = .bool) :
    ∃ e' s', Action.normalize e negated s = .ok (e', s') ∧ s'.context.HasType e' ty ∧
      ∀ d, s'.context.Uses e' d ↔ s.context.Uses e d := by
  have hw := h.wellFormed
  obtain ⟨t, ht, hterm⟩ := hty.exists_term hw
  obtain ⟨e', s', hrun, hgrows, ht'⟩ := exists_normalize_term hw ht negated
  refine ⟨e', s', hrun, hgrows.wellFormed.hasType_of_term? ht' ?_, fun d => ?_⟩
  · rw [hgrows.typeOf?_eq, s.context.declaresFormula_eq]
    exact hterm.normalize negated hneg
  · rw [hgrows.wellFormed.uses_iff ht', hw.uses_iff ht, Term.mem_decls_normalize]

/-- The normal form of `not (p <-> p)` is a formula in which `p` occurs alone. -/
theorem normalize_hasType_selfEquivalence : ∃ e' s',
    Action.normalize ⟨7⟩ true ⟨Context.selfEquivalence, #[]⟩ = .ok (e', s') ∧
      s'.context.HasType e' .bool ∧ ∀ d, s'.context.Uses e' d ↔ d = ⟨2⟩ := by
  have hreachable := Context.selfEquivalence_built.upheld.reachable
  have hp : Context.selfEquivalence.node? ⟨6⟩ = some (.var ⟨0, "p"⟩ ⟨2⟩) := rfl
  have hdecl : Context.selfEquivalence.decl? ⟨2⟩ = some ⟨⟨5⟩, .bool, none⟩ := rfl
  have hiff : Context.selfEquivalence.node? ⟨7⟩ = some (.connective .iff ⟨6⟩ ⟨6⟩) := rfl
  have hterm : Context.selfEquivalence.term? ⟨7⟩ =
      some (.connective .iff (.var ⟨0, "p"⟩ ⟨2⟩) (.var ⟨0, "p"⟩ ⟨2⟩)) := by decide +kernel
  obtain ⟨e', s', hrun, hty, huses⟩ := normalize_hasType (s := ⟨Context.selfEquivalence, #[]⟩)
    hreachable (.connective hiff (.var hp hdecl) (.var hp hdecl)) true fun _ => rfl
  refine ⟨e', s', hrun, hty, fun d => (huses d).trans ?_⟩
  rw [hreachable.wellFormed.uses_iff hterm]
  simp [Term.decls]

end ArithLogic
