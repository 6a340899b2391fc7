import ArithLogic.Breach

/-!
# ArithLogic.Scope

Lexical scoping.  An environment binds each name at most once; a scope stack
is a list of environments, innermost first, and a name means what the first
environment that binds it says.
-/

namespace ArithLogic

/-- One lexical scope: its bindings, latest first. -/
structure Environment where
  bindings : List (Symbol × DeclRef)
  deriving DecidableEq

namespace Environment

/-- The environment without bindings. -/
def empty : Environment := ⟨[]⟩

/-- The number of bindings. -/
def size (env : Environment) : Nat := env.bindings.length

/-- The declaration bound to `name`. -/
def find? (env : Environment) (name : Symbol) : Option DeclRef := env.bindings.lookup name

/-- Whether `name` is bound. -/
def contains (env : Environment) (name : Symbol) : Bool := (env.find? name).isSome

/-- Binds `name`, which must not be bound yet. -/
def insert (env : Environment) (name : Symbol) (decl : DeclRef) : Except Breach Environment :=
  if env.contains name then .error (.duplicateBinding name.text)
  else .ok ⟨(name, decl) :: env.bindings⟩

@[simp] theorem find?_empty (name : Symbol) : empty.find? name = none := rfl

@[simp] theorem contains_empty (name : Symbol) : empty.contains name = false := rfl

/-- A binding is refused exactly when its name is bound. -/
theorem insert_eq_error_iff {env : Environment} {name : Symbol} {decl : DeclRef} {e : Breach} :
    env.insert name decl = .error e ↔
      env.contains name = true ∧ e = .duplicateBinding name.text := by
  simp only [insert]
  split
  · next h =>
    rw [Except.error.injEq]
    exact ⟨fun he => ⟨h, he.symm⟩, fun he => he.2.symm⟩
  · next h => simp [h]

/-- A new binding is found under its name and changes no other. -/
theorem find?_insert {env later : Environment} {name : Symbol} {decl : DeclRef}
    (h : env.insert name decl = .ok later) (other : Symbol) :
    later.find? other = if other = name then some decl else env.find? other := by
  simp only [insert] at h
  split at h
  · cases h
  · cases h
    by_cases heq : other = name
    · simp [find?, heq]
    · have : (other == name) = false := by simpa using heq
      simp [find?, List.lookup_cons, heq, this]

theorem size_insert {env later : Environment} {name : Symbol} {decl : DeclRef}
    (h : env.insert name decl = .ok later) : later.size = env.size + 1 := by
  simp only [insert] at h
  split at h
  · cases h
  · cases h; rfl

end Environment

/-- Environments inside one another, innermost first. -/
structure ScopeStack where
  environments : List Environment
  deriving DecidableEq

namespace ScopeStack

/-- The stack without environments. -/
def empty : ScopeStack := ⟨[]⟩

/-- The number of environments. -/
def depth (scopes : ScopeStack) : Nat := scopes.environments.length

/-- The innermost environment. -/
def current? (scopes : ScopeStack) : Option Environment := scopes.environments.head?

/-- Enters an environment. -/
def push (scopes : ScopeStack) (env : Environment) : ScopeStack :=
  ⟨env :: scopes.environments⟩

/-- Leaves the innermost environment, and returns it. -/
def pop? (scopes : ScopeStack) : Option (Environment × ScopeStack) :=
  match scopes.environments with
  | [] => none
  | env :: outer => some (env, ⟨outer⟩)

/-- The declaration that `name` means: that of the innermost environment which
binds it. -/
def find? (scopes : ScopeStack) (name : Symbol) : Option DeclRef :=
  scopes.environments.findSome? fun env => env.find? name

/-- Binds `name` in the innermost environment, which must exist. -/
def insert (scopes : ScopeStack) (name : Symbol) (decl : DeclRef) : Except Breach ScopeStack :=
  match scopes.environments with
  | [] => .error .topEnvironment
  | env :: outer => do return ⟨(← env.insert name decl) :: outer⟩

@[simp] theorem depth_push (scopes : ScopeStack) (env : Environment) :
    (scopes.push env).depth = scopes.depth + 1 := rfl

@[simp] theorem current?_push (scopes : ScopeStack) (env : Environment) :
    (scopes.push env).current? = some env := rfl

/-- Leaving undoes entering. -/
@[simp] theorem pop?_push (scopes : ScopeStack) (env : Environment) :
    (scopes.push env).pop? = some (env, scopes) := rfl

/-- Inner bindings shadow outer ones. -/
theorem find?_push (scopes : ScopeStack) (env : Environment) (name : Symbol) :
    (scopes.push env).find? name = (env.find? name).or (scopes.find? name) := by
  simp only [find?, push, List.findSome?_cons]
  split <;> simp_all

@[simp] theorem find?_push_empty (scopes : ScopeStack) (name : Symbol) :
    (scopes.push .empty).find? name = scopes.find? name := by
  simp [find?_push]

end ScopeStack

end ArithLogic
