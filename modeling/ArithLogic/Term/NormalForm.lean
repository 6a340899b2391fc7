import ArithLogic.Term

/-!
# ArithLogic.Term.NormalForm

Negation normal form of terms, by plain recursion on trees, and what it
means to be in that form.  `isFormula` tells which declarations are formulas:
a negation stays in front of such a variable, and is dropped in front of any
other.

* `isNormal_normalize`: what comes out is in normal form.
* `normalize_normalize`: normalizing twice adds up the negations.
-/

namespace ArithLogic

namespace Term

variable (isFormula : DeclRef → Bool)

/-- The normal form of a term, or of its negation. -/
def normalize : Term → (negated : Bool) → Term
  | relation op l r, negated =>
    relation (if negated then op.complement else op) (l.normalize false) (r.normalize false)
  | connective .imp l r, negated =>
    connective (if negated then .and else .or) (l.normalize !negated) (r.normalize negated)
  | connective .iff l r, false =>
    connective .and (connective .or (l.normalize false) (r.normalize true))
      (connective .or (r.normalize false) (l.normalize true))
  | connective .iff l r, true =>
    connective .or (connective .and (l.normalize true) (r.normalize false))
      (connective .and (r.normalize true) (l.normalize false))
  | connective op l r, negated =>
    connective (if negated then op.dual else op) (l.normalize negated) (r.normalize negated)
  | not t, negated => t.normalize !negated
  | quantifier op name ty body, negated =>
    quantifier (if negated then op.dual else op) name ty (body.normalize negated)
  | additive op l r, _ => additive op (l.normalize false) (r.normalize false)
  | scaling op factor t, _ => scaling op factor (t.normalize false)
  | sign op t, _ => sign op (t.normalize false)
  | bool value, negated => bool (value != negated)
  | id name, negated => if negated then not (id name) else id name
  | var name decl, negated =>
    if negated && isFormula decl then not (var name decl) else var name decl
  | int value, _ => int value
  | bind name ty, _ => bind name ty
  | type ty, _ => type ty

/-- The term has no implication and no equivalence in it, and a negation only
in front of a name that is a formula. -/
def IsNormal : Term → Prop
  | connective op l r => (op = .and ∨ op = .or) ∧ l.IsNormal ∧ r.IsNormal
  | not (id _) => True
  | not (var _ decl) => isFormula decl = true
  | not _ => False
  | relation _ l r | additive _ l r => l.IsNormal ∧ r.IsNormal
  | scaling _ _ t | sign _ t | quantifier _ _ _ t => t.IsNormal
  | bool _ | int _ | id _ | var _ _ | bind _ _ | type _ => True

/-! ## laws -/

/-- What comes out is in normal form. -/
theorem isNormal_normalize (t : Term) (negated : Bool) :
    (t.normalize isFormula negated).IsNormal isFormula := by
  induction t generalizing negated with
  | connective op l r ihl ihr =>
    cases op <;> cases negated <;> simp [normalize, IsNormal, Connective.dual, *]
  | id => cases negated <;> simp [normalize, IsNormal]
  | var _ decl =>
    simp only [normalize]
    split
    · next h => exact (Bool.and_eq_true_iff.1 h).2
    · trivial
  | not _ ih => exact ih _
  | _ => simp [normalize, IsNormal, *]

/-- Normalizing twice adds up the negations. -/
theorem normalize_normalize (t : Term) (first second : Bool) :
    (t.normalize isFormula first).normalize isFormula second =
      t.normalize isFormula (first ^^ second) := by
  induction t generalizing first second with
  | relation => cases first <;> cases second <;> simp [normalize, *]
  | connective op => cases op <;> cases first <;> cases second <;>
    simp [normalize, Connective.dual, *]
  | quantifier => cases first <;> cases second <;> simp [normalize, *]
  | bool value => cases value <;> cases first <;> cases second <;> rfl
  | id => cases first <;> cases second <;> rfl
  | var _ decl => cases h : isFormula decl <;> cases first <;> cases second <;> simp [normalize, h]
  | not _ ih => simp [normalize, ih]
  | _ => simp [normalize, *]

end Term

end ArithLogic
