import ArithLogic.Proofs.Context.Denotation
import ArithLogic.Proofs.NormalForm.Course

/-!
# ArithLogic.Proofs.NormalForm.Semantics

What expressions mean under an assignment of values to declarations.  Numbers
are integers, and division is whatever total function one likes.  A quantifier
ranges over all values of the type that its binding has, for the declaration
that was made with the name node of that binding.  The meaning of an
expression is the same in every context that has grown from its own by nodes
(`Context.Grows.truth_eq`).
-/

namespace ArithLogic

/-! ## operators -/

/-- The operation of an operator on two numbers. -/
def Additive.apply : Additive → Int → Int → Int
  | add => (· + ·)
  | sub => (· - ·)

/-- The operation of a sign. -/
def Sign.apply : Sign → Int → Int
  | neg => (- ·)
  | pos => id

/-- The operation of a product or a quotient on its literal and its operand. -/
def Scaling.apply (div : Int → Int → Int) : Scaling → Int → Int → Int
  | .mul, factor, operand => factor * operand
  | .div, divisor, operand => div operand divisor

/-- When two numbers stand in a relation. -/
def Relation.holds : Relation → Int → Int → Prop
  | eq => (· = ·)
  | ne => (· ≠ ·)
  | lt => (· < ·)
  | gt => (· > ·)
  | le => (· ≤ ·)
  | ge => (· ≥ ·)

/-- When a connective of two formulas holds. -/
def Connective.holds : Connective → Prop → Prop → Prop
  | and, p, q => p ∧ q
  | or, p, q => p ∨ q
  | imp, p, q => p → q
  | iff, p, q => (p ↔ q)

/-- The complement of a relation holds exactly when the relation does not. -/
theorem Relation.holds_complement (op : Relation) (a b : Int) :
    op.complement.holds a b ↔ ¬ op.holds a b := by
  cases op <;> simp only [complement, holds] <;> omega

/-! ## assignments -/

/-- Values for declarations: a number for those of type `int`, a truth value
for those of type `bool`. -/
structure Assignment where
  number : DeclRef → Int
  truth : DeclRef → Prop

/-- Whether something holds under all of the assignments, or under one. -/
def Quantifier.holds : Quantifier → (Assignment → Prop) → (Assignment → Prop) → Prop
  | all, variant, p => ∀ τ, variant τ → p τ
  | ex, variant, p => ∃ τ, variant τ ∧ p τ

/-- The dual quantifier holds of the negation exactly when the quantifier does
not hold. -/
theorem Quantifier.holds_dual (op : Quantifier) (variant p : Assignment → Prop) :
    op.dual.holds variant (fun τ => ¬ p τ) ↔ ¬ op.holds variant p := by
  cases op with
  | all => simp [dual, holds]
  | ex => simp [dual, holds]

theorem Quantifier.holds_congr (op : Quantifier) {variant p q : Assignment → Prop}
    (h : ∀ τ, p τ ↔ q τ) : op.holds variant p ↔ op.holds variant q := by
  rw [funext fun τ => propext (h τ)]

namespace Context

/-- Whether a declaration was made with a name node. -/
def declares (cx : Context) (id : NodeRef) (d : DeclRef) : Bool :=
  match cx.decl? d with
  | some decl => decl.name == id
  | none => false

/-- The second assignment is the first one, but for any value of the type of
the binding for what is declared by it. -/
def Variant (cx : Context) (binding : NodeRef) (σ τ : Assignment) : Prop :=
  match cx.node? binding with
  | some (.bind id .int) =>
    ∃ value, τ = { σ with number := fun d => if cx.declares id d then value else σ.number d }
  | some (.bind id .bool) =>
    ∃ value, τ = { σ with truth := fun d => if cx.declares id d then value else σ.truth d }
  | _ => τ = σ

/-! ## meaning -/

/-- The number that an expression denotes; what is no number denotes zero. -/
def number (cx : Context) (div : Int → Int → Int) (e : NodeRef) (σ : Assignment) : Int :=
  match cx.view? e with
  | some (.int value) => value
  | some (.var _ d) => σ.number d
  | some (.additive op l r) => op.apply (cx.number div l.1 σ) (cx.number div r.1 σ)
  | some (.scaling op factor a) => op.apply div (cx.number div factor.1 σ) (cx.number div a.1 σ)
  | some (.sign op a) => op.apply (cx.number div a.1 σ)
  | _ => 0
termination_by e.index
decreasing_by
  all_goals first | exact l.2 | exact r.2 | exact factor.2 | exact a.2

/-- Whether a formula holds; what is no formula does not. -/
def truth (cx : Context) (div : Int → Int → Int) (e : NodeRef) (σ : Assignment) : Prop :=
  match cx.view? e with
  | some (.bool value) => value = true
  | some (.var _ d) => σ.truth d
  | some (.relation op l r) => op.holds (cx.number div l.1 σ) (cx.number div r.1 σ)
  | some (.connective op l r) => op.holds (cx.truth div l.1 σ) (cx.truth div r.1 σ)
  | some (.not a) => ¬ cx.truth div a.1 σ
  | some (.quantifier op binding body) =>
    op.holds (cx.Variant binding.1 σ) fun τ => cx.truth div body.1 τ
  | _ => False
termination_by e.index
decreasing_by
  all_goals first | exact l.2 | exact r.2 | exact a.2 | exact body.2

/-- The number that a node denotes. -/
def numberOf (cx : Context) (div : Int → Int → Int) (σ : Assignment) : Node NodeRef → Int
  | .int value => value
  | .var _ d => σ.number d
  | .additive op l r => op.apply (cx.number div l σ) (cx.number div r σ)
  | .scaling op factor a => op.apply div (cx.number div factor σ) (cx.number div a σ)
  | .sign op a => op.apply (cx.number div a σ)
  | _ => 0

/-- Whether a node holds. -/
def truthOf (cx : Context) (div : Int → Int → Int) (σ : Assignment) : Node NodeRef → Prop
  | .bool value => value = true
  | .var _ d => σ.truth d
  | .relation op l r => op.holds (cx.number div l σ) (cx.number div r σ)
  | .connective op l r => op.holds (cx.truth div l σ) (cx.truth div r σ)
  | .not a => ¬ cx.truth div a σ
  | .quantifier op binding body => op.holds (cx.Variant binding σ) fun τ => cx.truth div body τ
  | _ => False

variable {cx later : Context} {e : NodeRef} {node : Node NodeRef}

/-- A handle denotes the number of the node behind it. -/
theorem WellFormed.number_eq (h : cx.WellFormed) (hnode : cx.node? e = some node)
    (div : Int → Int → Int) (σ : Assignment) : cx.number div e σ = cx.numberOf div σ node := by
  obtain ⟨view, hview, rfl⟩ := h.exists_view? hnode
  rw [number, hview]
  cases view <;> rfl

/-- A handle holds when the node behind it does. -/
theorem WellFormed.truth_eq (h : cx.WellFormed) (hnode : cx.node? e = some node)
    (div : Int → Int → Int) (σ : Assignment) : cx.truth div e σ = cx.truthOf div σ node := by
  obtain ⟨view, hview, rfl⟩ := h.exists_view? hnode
  rw [truth, hview]
  cases view <;> rfl

/-! ## growth -/

namespace Grows

theorem declares_eq (h : cx.Grows later) (id : NodeRef) (d : DeclRef) :
    later.declares id d = cx.declares id d := by
  unfold declares
  rw [h.decl?]

/-- A binding has the same variants in the later context. -/
theorem variant_eq (h : cx.Grows later) (he : e.index < cx.size) (σ : Assignment) :
    later.Variant e σ = cx.Variant e σ := by
  unfold Variant
  rw [h.within.node?_eq he]
  simp only [h.declares_eq]

/-- An expression denotes the same number in the later context. -/
theorem number_eq (h : cx.Grows later) (hw : cx.WellFormed) {e : NodeRef} (he : e.index < cx.size)
    (div : Int → Int → Int) (σ : Assignment) : later.number div e σ = cx.number div e σ := by
  obtain ⟨node, hnode⟩ := node?_of_index_lt he
  -- the children are older, and denote the same numbers by the induction
  have hchild : ∀ child ∈ node.children, later.number div child σ = cx.number div child σ :=
    fun child hmem =>
      have := hw.children_older hnode child hmem
      h.number_eq hw (Nat.lt_trans this he) div σ
  rw [hw.number_eq hnode, h.wellFormed.number_eq (h.within.node hnode)]
  cases node with
  | additive op l r =>
    simp only [numberOf, hchild l (by simp [Node.children]), hchild r (by simp [Node.children])]
  | scaling op factor a =>
    simp only [numberOf, hchild factor (by simp [Node.children]), hchild a (by simp [Node.children])]
  | sign op a => simp only [numberOf, hchild a (by simp [Node.children])]
  | _ => rfl
termination_by e.index

/-- A formula holds in the later context when it does in the earlier one. -/
theorem truth_eq (h : cx.Grows later) (hw : cx.WellFormed) {e : NodeRef} (he : e.index < cx.size)
    (div : Int → Int → Int) (σ : Assignment) : later.truth div e σ = cx.truth div e σ := by
  obtain ⟨node, hnode⟩ := node?_of_index_lt he
  have hrange : ∀ child ∈ node.children, child.index < cx.size := fun child hmem =>
    Nat.lt_trans (hw.children_older hnode child hmem) he
  have hchild : ∀ child ∈ node.children, ∀ τ, later.truth div child τ = cx.truth div child τ :=
    fun child hmem τ =>
      have := hw.children_older hnode child hmem
      h.truth_eq hw (Nat.lt_trans this he) div τ
  rw [hw.truth_eq hnode, h.wellFormed.truth_eq (h.within.node hnode)]
  cases node with
  | relation op l r =>
    simp only [truthOf, h.number_eq hw (hrange l (by simp [Node.children])),
      h.number_eq hw (hrange r (by simp [Node.children]))]
  | connective op l r =>
    simp only [truthOf, hchild l (by simp [Node.children]), hchild r (by simp [Node.children])]
  | not a => simp only [truthOf, hchild a (by simp [Node.children])]
  | quantifier op binding body =>
    simp only [truthOf, hchild body (by simp [Node.children]),
      h.variant_eq (hrange binding (by simp [Node.children]))]
  | _ => rfl
termination_by e.index

end Grows

end Context

end ArithLogic
