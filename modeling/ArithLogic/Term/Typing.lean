import ArithLogic.Term.NormalForm

/-!
# ArithLogic.Term.Typing

The types of terms, by the signatures of the operators.  `types` gives the
type at which a variable was declared.

* `HasType.unique`: a term has at most one type.
* `HasType.normalize`: normal form keeps the type.
* `mem_decls_normalize`: normal form keeps the variables.
-/

namespace ArithLogic.Term

/-- The term is of the type. -/
inductive HasType (types : DeclRef → Option Ty) : Term → Ty → Prop
  | bool {value : Bool} : HasType types (.bool value) .bool
  | int {value : Int} : HasType types (.int value) .int
  | var {name : Symbol} {decl : DeclRef} {ty : Ty} :
      types decl = some ty → HasType types (.var name decl) ty
  | additive {op : Additive} {l r : Term} :
      HasType types l .int → HasType types r .int → HasType types (.additive op l r) .int
  | scaling {op : Scaling} {factor : Int} {t : Term} :
      HasType types t .int → HasType types (.scaling op factor t) .int
  | sign {op : Sign} {t : Term} : HasType types t .int → HasType types (.sign op t) .int
  | relation {op : Relation} {l r : Term} :
      HasType types l .int → HasType types r .int → HasType types (.relation op l r) .bool
  | connective {op : Connective} {l r : Term} :
      HasType types l .bool → HasType types r .bool → HasType types (.connective op l r) .bool
  | not {t : Term} : HasType types t .bool → HasType types (.not t) .bool
  | quantifier {op : Quantifier} {name : Symbol} {ty : Ty} {body : Term} :
      HasType types body .bool → HasType types (.quantifier op name ty body) .bool

/-- The declarations that occur in a term, in the order of its variables. -/
def decls : Term → List DeclRef
  | var _ decl => [decl]
  | additive _ l r | relation _ l r | connective _ l r => l.decls ++ r.decls
  | scaling _ _ t | sign _ t | not t | quantifier _ _ _ t => t.decls
  | id _ | bool _ | int _ | bind _ _ | type _ => []

variable {types : DeclRef → Option Ty}

/-- A term has at most one type. -/
theorem HasType.unique {t : Term} {a b : Ty} (ha : HasType types t a) (hb : HasType types t b) :
    a = b := by
  cases ha with
  | var h => cases hb with
    | var h' => exact Option.some.inj (h.symm.trans h')
  | _ => cases hb; rfl

/-- Normal form keeps the type.  Only a formula is negated. -/
theorem HasType.normalize {t : Term} {ty : Ty} (h : HasType types t ty) (negated : Bool)
    (hneg : negated = true → ty = .bool) :
    HasType types (t.normalize (fun d => types d == some .bool) negated) ty := by
  have hnumber : (false = true) → Ty.int = Ty.bool := fun h => absurd h Bool.false_ne_true
  induction h generalizing negated with
  | bool => exact .bool
  | int => exact .int
  | var h =>
    simp only [Term.normalize]
    split
    · next hboth =>
      obtain ⟨-, hbool⟩ := Bool.and_eq_true_iff.1 hboth
      have hty : types _ = some .bool := eq_of_beq hbool
      rw [h] at hty
      cases hty
      exact .not (.var h)
    · exact .var h
  | additive _ _ ihl ihr => exact .additive (ihl false hnumber) (ihr false hnumber)
  | scaling _ ih => exact .scaling (ih false hnumber)
  | sign _ ih => exact .sign (ih false hnumber)
  | relation _ _ ihl ihr => exact .relation (ihl false hnumber) (ihr false hnumber)
  | @connective op _ _ _ _ ihl ihr =>
    have l := fun flag => ihl flag fun _ => rfl
    have r := fun flag => ihr flag fun _ => rfl
    cases op with
    | iff => cases negated <;> exact .connective (.connective (l _) (r _)) (.connective (r _) (l _))
    | _ => exact .connective (l _) (r _)
  | not _ ih => exact ih _ fun _ => rfl
  | quantifier _ ih => exact .quantifier (ih _ fun _ => rfl)

/-- Normal form keeps the variables. -/
theorem mem_decls_normalize (isFormula : DeclRef → Bool) (t : Term) (negated : Bool)
    (d : DeclRef) : d ∈ (t.normalize isFormula negated).decls ↔ d ∈ t.decls := by
  induction t generalizing negated with
  | connective op l r ihl ihr =>
    cases op <;> cases negated <;> simp [normalize, decls, ihl, ihr] <;> grind
  | var => simp only [normalize]; split <;> rfl
  | id => cases negated <;> simp [normalize, decls]
  | not _ ih => simp [normalize, decls, ih]
  | _ => simp [normalize, decls, *]

end ArithLogic.Term
