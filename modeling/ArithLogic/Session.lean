import ArithLogic.Context
import ArithLogic.Event

/-!
# ArithLogic.Session

Working on a context.  A session is a context together with the record of
what was done; an `Action` changes both, or stops at a breach of contract.
Whatever reads a context, extends it or enters a scope goes through the few
actions of this module.
-/

namespace ArithLogic

/-- A context and the events recorded so far. -/
structure Session where
  context : Context
  events : Array Event
  deriving DecidableEq

/-- A step of work on a session. -/
abbrev Action := StateT Session (Except Breach)

namespace Action

variable {α : Type}

/-- Looks something up. -/
def inspect (f : Context → α) : Action α :=
  fun s => .ok (f s.context, s)

/-- Extends the context. -/
def extend (f : Context → α × Context) : Action α :=
  fun ⟨cx, events⟩ =>
    let (result, cx) := f cx
    .ok (result, ⟨cx, events⟩)

/-- Changes the context in a way that can breach a contract. -/
def attempt (f : Context → Except Breach (α × Context)) : Action α :=
  fun ⟨cx, events⟩ =>
    match f cx with
    | .ok (result, cx) => .ok (result, ⟨cx, events⟩)
    | .error breach => .error breach

/-- Records an event. -/
def record (event : Event) : Action Unit :=
  fun ⟨cx, events⟩ => .ok ((), ⟨cx, events.push event⟩)

/-- Gives up. -/
def stop (breach : Breach) : Action α := fun _ => .error breach

/-- Appends a node. -/
def add (node : Node NodeRef) : Action NodeRef := extend fun cx => cx.add node

/-- What a look-up that must succeed has found. -/
def demand (found : Option α) : Action α :=
  match found with
  | some value => pure value
  | none => stop .foreignHandle

/-- Enters an empty environment. -/
def enterScope : Action Unit := do
  extend fun cx => ((), cx.enterScope)
  record (.scopeEntered (← inspect Context.depth))

/-- Leaves the innermost environment. -/
def leaveScope : Action Unit := do
  attempt fun cx => cx.leaveScope.map fun outer => ((), outer)
  record (.scopeLeft (← inspect Context.depth))

/-- Works in an environment of its own, which is left in any case. -/
def inScope (body : Action α) : Action α := do
  enterScope
  let result ← body
  leaveScope
  return result

@[simp] theorem run_inspect (f : Context → α) (s : Session) :
    inspect f s = .ok (f s.context, s) := rfl

@[simp] theorem run_extend (f : Context → α × Context) (s : Session) :
    extend f s = .ok ((f s.context).1, ⟨(f s.context).2, s.events⟩) := rfl

@[simp] theorem run_record (event : Event) (s : Session) :
    record event s = .ok ((), ⟨s.context, s.events.push event⟩) := rfl

@[simp] theorem run_add (node : Node NodeRef) (s : Session) :
    add node s = .ok (⟨s.context.size⟩, ⟨(s.context.add node).2, s.events⟩) := rfl

@[simp] theorem run_stop (breach : Breach) (s : Session) :
    (stop breach : Action α) s = .error breach := rfl

@[simp] theorem run_enterScope (s : Session) :
    enterScope s =
      .ok ((), ⟨s.context.enterScope, s.events.push (.scopeEntered (s.context.depth + 1))⟩) := rfl

end Action

end ArithLogic
