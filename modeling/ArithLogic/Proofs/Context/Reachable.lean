import ArithLogic.Proofs.Elaboration.Statements
import ArithLogic.Proofs.NormalForm.Agreement

/-!
# ArithLogic.Proofs.Context.Reachable

The contexts that can be reached at all: from the initial one by any run of
the operations that meets no breach, in any order.  The handles passed to an
operation are handles of the context, of the kind that the operation demands;
names may come from any interner.  Every such context is well formed
(`Reachable.wellFormed`).
-/

namespace ArithLogic.Context

/-- The context is reached from the initial one by the operations. -/
inductive Reachable : Context → Prop
  | initial : Reachable .initial
  /-- A name is interned. -/
  | intern {cx : Context} {text : String} : Reachable cx → Reachable (cx.intern text).2
  /-- A node is made over handles of the context. -/
  | make {cx : Context} {node : Node NodeRef} :
      Reachable cx → cx.Accepts node → Reachable (cx.add node).2
  /-- A name is declared or defined. -/
  | declare {cx later : Context} {id : NodeRef} {ty : Ty} {init : Option NodeRef} {d : DeclRef} :
      Reachable cx → (∀ e, init = some e → e.index < cx.size) →
      cx.declareId id ty init = .ok (d, later) → Reachable later
  | enterScope {cx : Context} : Reachable cx → Reachable cx.enterScope
  | leaveScope {cx later : Context} : Reachable cx → cx.leaveScope = .ok later → Reachable later
  /-- An expression is elaborated, with or without success. -/
  | elaborate {s s' : Session} {tree : Tree} {r : Except ElabError Elaboration} :
      Reachable s.context → (elaborate tree).run s = .ok (r, s') → Reachable s'.context
  | statement {s s' : Session} {tree : Tree} {r : Except ElabError Elaboration} :
      Reachable s.context → elaborateStatement tree s = .ok (r, s') → Reachable s'.context
  | program {s s' : Session} {trees : List Tree} {rs : List (Except ElabError Elaboration)} :
      Reachable s.context → elaborateProgram trees s = .ok (rs, s') → Reachable s'.context
  /-- An expression is brought into normal form, under either polarity. -/
  | normalize {s s' : Session} {e e' : NodeRef} {negated : Bool} :
      Reachable s.context → e.index < s.context.size →
      Action.normalize e negated s = .ok (e', s') → Reachable s'.context

/-- The outcome of bringing an expression into normal form is that of its
course. -/
theorem normalizes_of_run {s s' : Session} {e e' : NodeRef} {negated : Bool}
    (hw : s.context.WellFormed) (he : e.index < s.context.size)
    (h : Action.normalize e negated s = .ok (e', s')) :
    Normalizes s.context e negated e' s'.context := by
  obtain ⟨_, _, hrun, hcourse⟩ := follows_normalize hw he negated
  cases h.symm.trans hrun
  exact hcourse

/-- Whatever is reached is well formed, and holds what was there at the
beginning. -/
theorem Reachable.wellFormed_within {cx : Context} (h : cx.Reachable) :
    cx.WellFormed ∧ Within .initial cx := by
  induction h with
  | initial => exact ⟨wellFormed_initial, .refl _⟩
  | @intern cx text _ ih => exact ⟨ih.1.intern text, ih.2.trans (.intern cx text)⟩
  | @make cx node _ haccepts ih => exact ⟨ih.1.add haccepts, ih.2.trans (.add cx node)⟩
  | declare _ hinit hok ih => exact ⟨ih.1.declareId hok hinit, ih.2.trans (.declareId hok)⟩
  | @enterScope cx _ ih => exact ⟨ih.1.enterScope, ih.2.trans (.enterScope cx)⟩
  | leaveScope _ hok ih => exact ⟨ih.1.leaveScope hok, ih.2.trans (.leaveScope hok)⟩
  | elaborate _ hrun ih =>
    have hkept := ((run_elaborate_iff ih.1).1 hrun).kept ih.1
    exact ⟨hkept.wellFormed, ih.2.trans hkept.within⟩
  | statement _ hrun ih =>
    have hkept := kept_of_run_elaborateStatement ih.1 hrun
    exact ⟨hkept.wellFormed, ih.2.trans hkept.within⟩
  | program _ hrun ih =>
    obtain ⟨s₁, hcourse, hsame⟩ := course_of_run_elaborateProgram ih.1 hrun
    obtain ⟨hw, hwithin, -⟩ := hcourse.kept ih.1
    exact hsame ▸ ⟨hw, ih.2.trans hwithin⟩
  | normalize _ he hrun ih =>
    have hgrows := ((normalizes_of_run ih.1 he hrun).grows ih.1).1
    exact ⟨hgrows.wellFormed, ih.2.trans hgrows.within⟩

theorem Reachable.wellFormed {cx : Context} (h : cx.Reachable) : cx.WellFormed :=
  h.wellFormed_within.1

end ArithLogic.Context
