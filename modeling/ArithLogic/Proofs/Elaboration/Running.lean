import ArithLogic.Elaboration.Statement
import ArithLogic.Proofs.Context.Denotation

/-!
# ArithLogic.Proofs.Elaboration.Running

Running the steps of elaboration.  A step that is run on a session stops at a
breach, finds a fault in the text, or has a result; `run_bind` says how two
steps in a row are run, and the other lemmas what each primitive step does to
the session.
-/

namespace ArithLogic.Action

variable {α β : Type}

@[simp] theorem run_pure (a : α) (s : Session) : (pure a : Action α) s = .ok (a, s) := rfl

/-- One piece of work after another. -/
@[simp] theorem run_bind (m : Action α) (f : α → Action β) (s : Session) :
    (m >>= f) s = match m s with
      | .error breach => .error breach
      | .ok (a, s') => f a s' := by
  simp only [bind, StateT.bind, Except.bind]
  cases m s <;> rfl

@[simp] theorem run_demand_some (a : α) (s : Session) : demand (some a) s = .ok (a, s) := rfl

end ArithLogic.Action

namespace ArithLogic.Elab

variable {α β : Type}

@[simp] theorem run_pure (a : α) (s : Session) : (pure a : Elab α).run s = .ok (.ok a, s) := rfl

@[simp] theorem run_throw (error : ElabError) (s : Session) :
    (throw error : Elab α).run s = .ok (.error error, s) := rfl

/-- One step after another: the second is not tried if the first one fails. -/
@[simp] theorem run_bind (m : Elab α) (f : α → Elab β) (s : Session) :
    (m >>= f).run s = match m.run s with
      | .error breach => .error breach
      | .ok (.error error, s') => .ok (.error error, s')
      | .ok (.ok a, s') => (f a).run s' := by
  simp only [ExceptT.run, bind, ExceptT.bind, ExceptT.mk, StateT.bind, Except.bind, ExceptT.bindCont]
  cases hm : m s with
  | error breach => rfl
  | ok result =>
    obtain ⟨outcome, s'⟩ := result
    cases outcome <;> rfl

@[simp] theorem run_lift (action : Action α) (s : Session) :
    (lift action).run s = match action s with
      | .error breach => .error breach
      | .ok (a, s') => .ok (.ok a, s') := by
  simp only [lift, ExceptT.lift, ExceptT.run, ExceptT.mk, Functor.map, StateT.map, bind,
    Except.bind, pure, Except.pure]
  cases action s <;> rfl

@[simp] theorem run_inspect (f : Context → α) (s : Session) :
    (inspect f).run s = .ok (.ok (f s.context), s) := by
  simp [inspect]

@[simp] theorem run_extend (f : Context → α × Context) (s : Session) :
    (extend f).run s = .ok (.ok (f s.context).1, ⟨(f s.context).2, s.events⟩) := by
  simp [extend]

@[simp] theorem run_add (node : Node NodeRef) (s : Session) :
    (add node).run s = .ok (.ok ⟨s.context.size⟩, ⟨(s.context.add node).2, s.events⟩) := by
  simp [add]

@[simp] theorem run_build (node : Node NodeRef) (ty : Ty) (s : Session) :
    (build node ty).run s =
      .ok (.ok ⟨⟨s.context.size⟩, ty⟩, ⟨(s.context.add node).2, s.events⟩) := by
  simp only [build, run_bind, run_add, run_pure]

theorem run_require {f : Context → Option α} {s : Session} {a : α} (h : f s.context = some a) :
    (require f).run s = .ok (.ok a, s) := by
  simp [require, h]

theorem run_attempt {f : Context → Except Breach (α × Context)} {s : Session} {a : α}
    {cx : Context} (h : f s.context = .ok (a, cx)) :
    (attempt f).run s = .ok (.ok a, ⟨cx, s.events⟩) := by
  simp [attempt, Action.attempt, h]

end ArithLogic.Elab
