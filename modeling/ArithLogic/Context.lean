import ArithLogic.Scope

/-!
# ArithLogic.Context

A context owns every node and every declaration made during one analysis, and
the scopes that say what names mean.  Nodes are only ever appended, and a node
refers to its children by handles to earlier nodes, so handles stay good and
what they denote never changes.

`Context.view?` is the one place where handles are followed: it returns a node
whose children are known to be older, and every walk down a context
terminates by that.
-/

namespace ArithLogic

/-- The node that stands for a type; the three are the first of a context. -/
def Ty.ref : Ty → NodeRef
  | .bool => ⟨0⟩
  | .int => ⟨1⟩
  | .kind => ⟨2⟩

theorem Ty.ref_injective {a b : Ty} (h : a.ref = b.ref) : a = b := by
  cases a <;> cases b <;> first | rfl | cases h

/-- The handles that a node holds, the one to the type of a binding included. -/
def Node.handles : Node NodeRef → List NodeRef
  | .bind name ty => [name, ty.ref]
  | node => node.children

/-- A name declared at a type.  With an initial value the declaration is a
definition. -/
structure Decl where
  name : NodeRef
  ty : Ty
  init : Option NodeRef
  deriving DecidableEq

/-- Everything that one analysis has made. -/
structure Context where
  interner : Interner
  nodes : Array (Node NodeRef)
  decls : Array Decl
  scopes : ScopeStack
  deriving DecidableEq

/-- A handle to an older node than `e`. -/
abbrev Older (e : NodeRef) := { child : NodeRef // child.index < e.index }

namespace Context

/-- The context in which nothing has been built: the three types, and the
definitions of the names `bool` and `int` in the top environment. -/
def initial : Context where
  interner := ⟨0, ["int", "bool"]⟩
  nodes := #[.type .bool, .type .int, .type .kind, .id ⟨0, "bool"⟩, .id ⟨0, "int"⟩]
  decls := #[⟨⟨3⟩, .kind, some Ty.bool.ref⟩, ⟨⟨4⟩, .kind, some Ty.int.ref⟩]
  scopes := ⟨[⟨[(⟨0, "int"⟩, ⟨1⟩), (⟨0, "bool"⟩, ⟨0⟩)]⟩]⟩

/-! ## reading -/

/-- The number of nodes. -/
def size (cx : Context) : Nat := cx.nodes.size

/-- The node behind a handle. -/
def node? (cx : Context) (e : NodeRef) : Option (Node NodeRef) := cx.nodes[e.index]?

/-- The node behind a handle, with its children known to be older. -/
def view? (cx : Context) (e : NodeRef) : Option (Node (Older e)) :=
  (cx.node? e).bind Node.restrict?

/-- The declaration behind a handle. -/
def decl? (cx : Context) (d : DeclRef) : Option Decl := cx.decls[d.index]?

/-- The name that a node of kind `id` holds. -/
def symbol? (cx : Context) (e : NodeRef) : Option Symbol :=
  match cx.node? e with
  | some (.id name) => some name
  | _ => none

/-- The name that a declaration declares. -/
def declName? (cx : Context) (d : DeclRef) : Option Symbol := do
  cx.symbol? (← cx.decl? d).name

/-- The type that a node stands for, if it stands for one. -/
def type? (cx : Context) (e : NodeRef) : Option Ty :=
  match cx.node? e with
  | some (.type ty) => some ty
  | _ => none

/-- Whether a node is an integer literal. -/
def isLiteral (cx : Context) (e : NodeRef) : Bool :=
  match cx.node? e with
  | some (.int _) => true
  | _ => false

/-- Whether a node is a binding. -/
def isBinding (cx : Context) (e : NodeRef) : Bool :=
  match cx.node? e with
  | some (.bind _ _) => true
  | _ => false

/-- What a name means here. -/
def lookup? (cx : Context) (text : String) : Option DeclRef := do
  cx.scopes.find? (← cx.interner.find? text)

/-- Whether the innermost environment binds a name. -/
def isLocal (cx : Context) (text : String) : Bool :=
  match cx.interner.find? text, cx.scopes.current? with
  | some name, some env => env.contains name
  | _, _ => false

/-- The number of environments, one when only the top one is active. -/
def depth (cx : Context) : Nat := cx.scopes.depth

/-! ## building -/

/-- Appends a node. -/
def add (cx : Context) (node : Node NodeRef) : NodeRef × Context :=
  (⟨cx.nodes.size⟩, { cx with nodes := cx.nodes.push node })

/-- Interns a name. -/
def intern (cx : Context) (text : String) : Symbol × Context :=
  let (name, interner) := cx.interner.intern text
  (name, { cx with interner })

/-- Appends a node that holds a name. -/
def addId (cx : Context) (text : String) : NodeRef × Context :=
  let (name, cx) := cx.intern text
  cx.add (.id name)

/-- Appends a reference to a declaration, spelled as it was declared. -/
def addVar (cx : Context) (d : DeclRef) : Except Breach (NodeRef × Context) :=
  match cx.declName? d with
  | some name => .ok (cx.add (.var name d))
  | none => .error .foreignHandle

/-- Appends the node of a kind that has two plain operands. -/
def addBinary (cx : Context) (kind : NodeKind) (left right : NodeRef) :
    Except Breach (NodeRef × Context) :=
  match Node.binary? kind left right with
  | some node => .ok (cx.add node)
  | none => .error (.notBinary kind)

/-- Declares the name held by the node `id` in the innermost environment,
which must not bind it yet. -/
def declareId (cx : Context) (id : NodeRef) (ty : Ty) (init : Option NodeRef) :
    Except Breach (DeclRef × Context) :=
  match cx.symbol? id with
  | none => .error .foreignHandle
  | some name => do
    let d : DeclRef := ⟨cx.decls.size⟩
    let scopes ← cx.scopes.insert name d
    return (d, { cx with decls := cx.decls.push ⟨id, ty, init⟩, scopes })

/-- Declares a name, for which a new node is appended. -/
def declare (cx : Context) (text : String) (ty : Ty) (init : Option NodeRef) :
    Except Breach (DeclRef × Context) :=
  let (id, cx) := cx.addId text
  cx.declareId id ty init

/-- Enters an empty environment. -/
def enterScope (cx : Context) : Context :=
  { cx with scopes := cx.scopes.push .empty }

/-- Leaves the innermost environment, which must not be the top one. -/
def leaveScope (cx : Context) : Except Breach Context :=
  if cx.depth ≤ 1 then .error .topEnvironment
  else
    match cx.scopes.pop? with
    | some (_, scopes) => .ok { cx with scopes }
    | none => .error .topEnvironment

/-! ## views of the operations -/

@[simp] theorem size_initial : initial.size = 5 := rfl

@[simp] theorem depth_initial : initial.depth = 1 := rfl

@[simp] theorem add_fst (cx : Context) (node : Node NodeRef) : (cx.add node).1 = ⟨cx.size⟩ := rfl

@[simp] theorem size_add (cx : Context) (node : Node NodeRef) :
    (cx.add node).2.size = cx.size + 1 := by
  simp [add, size]

@[simp] theorem scopes_add (cx : Context) (node : Node NodeRef) :
    (cx.add node).2.scopes = cx.scopes := rfl

@[simp] theorem decls_add (cx : Context) (node : Node NodeRef) :
    (cx.add node).2.decls = cx.decls := rfl

@[simp] theorem interner_add (cx : Context) (node : Node NodeRef) :
    (cx.add node).2.interner = cx.interner := rfl

/-- A new node is behind its handle, and no other handle changes. -/
theorem node?_add (cx : Context) (node : Node NodeRef) (e : NodeRef) :
    (cx.add node).2.node? e = if e.index = cx.size then some node else cx.node? e := by
  exact Array.getElem?_push

@[simp] theorem depth_enterScope (cx : Context) : cx.enterScope.depth = cx.depth + 1 := rfl

/-- Leaving a scope that was just entered restores the context. -/
theorem leaveScope_enterScope (cx : Context) (h : 0 < cx.depth) :
    cx.enterScope.leaveScope = .ok cx := by
  have hdepth : ¬ cx.enterScope.depth ≤ 1 := by simp; omega
  rw [leaveScope, if_neg hdepth]; rfl

end Context

/-! ## structural equality -/

/-- Whether two expressions are built alike: names by symbol, literals by
value, variables by the declaration they refer to, and everything else by
kind and children.  Where both handles are the same nothing is compared.  Of
two children the later one is compared first: chains of operators grow to the
left, so a difference at their end is found at once. -/
def Context.same (cx : Context) (a b : NodeRef) : Bool :=
  a == b ||
    match cx.view? a, cx.node? b with
    | some (.id x), some (.id y) => x == y
    | some (.bool x), some (.bool y) => x == y
    | some (.int x), some (.int y) => x == y
    | some (.var _ x), some (.var _ y) => x == y
    | some (.additive op l r), some (.additive op' l' r') =>
      op == op' && cx.same r.1 r' && cx.same l.1 l'
    | some (.scaling op l r), some (.scaling op' l' r') =>
      op == op' && cx.same r.1 r' && cx.same l.1 l'
    | some (.sign op x), some (.sign op' x') => op == op' && cx.same x.1 x'
    | some (.relation op l r), some (.relation op' l' r') =>
      op == op' && cx.same r.1 r' && cx.same l.1 l'
    | some (.connective op l r), some (.connective op' l' r') =>
      op == op' && cx.same r.1 r' && cx.same l.1 l'
    | some (.not x), some (.not x') => cx.same x.1 x'
    | some (.bind x t), some (.bind x' t') => t == t' && cx.same x.1 x'
    | some (.quantifier op x y), some (.quantifier op' x' y') =>
      op == op' && cx.same y.1 y' && cx.same x.1 x'
    | _, _ => false
termination_by a.index
decreasing_by
  all_goals first | exact l.2 | exact r.2 | exact x.2 | exact y.2

@[simp] theorem Context.same_refl (cx : Context) (a : NodeRef) : cx.same a a = true := by
  rw [same]; simp

end ArithLogic
