import ArithLogic.Proofs.Context.Names
import Mathlib.Logic.Relation

/-!
# ArithLogic.Proofs.Context.Operations

The operations that a context offers, one rule each, and the contexts that
runs of them build.  Handles that are passed to an operation are to nodes and
declarations of the context and names come from its interner; a run in which
an operation meets a breach is no run.

Every context that is built is well formed, knows no two names of one
spelling, and is never changed but by appending to it (`Built.invariant`).
-/

namespace ArithLogic.Context

/-- One operation leads from a context to the next one.  To work in a scope of
its own is to enter and to leave it, with the work in between. -/
inductive Step : Context → Context → Prop
  | intern (cx : Context) (text : String) : Step cx (cx.intern text).2
  | id (cx : Context) (text : String) : Step cx (cx.addId text).2
  | symbol {cx : Context} {name : Symbol} :
      cx.interner.find? name.text = some name → Step cx (cx.add (.id name)).2
  | bool (cx : Context) (value : Bool) : Step cx (cx.add (.bool value)).2
  | int (cx : Context) (value : Int) : Step cx (cx.add (.int value)).2
  | var {cx later : Context} {d : DeclRef} {e : NodeRef} :
      cx.addVar d = .ok (e, later) → Step cx later
  | binary {cx later : Context} {kind : NodeKind} {left right e : NodeRef} :
      left.index < cx.size → right.index < cx.size →
      cx.addBinary kind left right = .ok (e, later) → Step cx later
  | scaling {cx : Context} {op : Scaling} {factor operand : NodeRef} :
      cx.isLiteral factor = true → operand.index < cx.size →
      Step cx (cx.add (.scaling op factor operand)).2
  | sign {cx : Context} {op : Sign} {operand : NodeRef} :
      operand.index < cx.size → Step cx (cx.add (.sign op operand)).2
  | not {cx : Context} {operand : NodeRef} :
      operand.index < cx.size → Step cx (cx.add (.not operand)).2
  | bind {cx : Context} {id : NodeRef} {name : Symbol} {ty : Ty} :
      cx.symbol? id = some name → Step cx (cx.add (.bind id ty)).2
  | quantifier {cx : Context} {op : Quantifier} {binding id body : NodeRef} {ty : Ty} :
      cx.node? binding = some (.bind id ty) → body.index < cx.size →
      Step cx (cx.add (.quantifier op binding body)).2
  /-- A name is declared, or with an initial value defined. -/
  | declare {cx later : Context} {text : String} {ty : Ty} {init : Option NodeRef} {d : DeclRef} :
      (∀ e, init = some e → e.index < cx.size) →
      cx.declare text ty init = .ok (d, later) → Step cx later
  /-- The same with a name that has a node. -/
  | declareId {cx later : Context} {id : NodeRef} {ty : Ty} {init : Option NodeRef} {d : DeclRef} :
      (∀ e, init = some e → e.index < cx.size) →
      cx.declareId id ty init = .ok (d, later) → Step cx later
  | enterScope (cx : Context) : Step cx cx.enterScope
  | leaveScope {cx later : Context} : cx.leaveScope = .ok later → Step cx later
  /-- An expression is elaborated, with or without success. -/
  | elaborate {s s' : Session} {tree : Tree} {r : Except ElabError Elaboration} :
      (elaborate tree).run s = .ok (r, s') → Step s.context s'.context
  | statement {s s' : Session} {tree : Tree} {r : Except ElabError Elaboration} :
      elaborateStatement tree s = .ok (r, s') → Step s.context s'.context
  | program {s s' : Session} {trees : List Tree} {rs : List (Except ElabError Elaboration)} :
      elaborateProgram trees s = .ok (rs, s') → Step s.context s'.context
  /-- An expression is brought into normal form, under either polarity. -/
  | normalize {s s' : Session} {e e' : NodeRef} {negated : Bool} :
      e.index < s.context.size → Action.normalize e negated s = .ok (e', s') →
      Step s.context s'.context

/-- The context is what some run of operations makes of the initial one. -/
def Built (cx : Context) : Prop := Relation.ReflTransGen Step .initial cx

/-! ## what one operation keeps -/

/-- A variable is made of a declaration, and gets its name. -/
theorem addVar_eq_ok_iff {cx later : Context} {d : DeclRef} {e : NodeRef} :
    cx.addVar d = .ok (e, later) ↔
      ∃ name, cx.declName? d = some name ∧ cx.add (.var name d) = (e, later) := by
  unfold addVar
  cases cx.declName? d <;> simp

/-- A node of two plain operands is a sum or a difference, a relation, or a
connective. -/
theorem add_of_addBinary {cx later : Context} {kind : NodeKind} {left right e : NodeRef}
    (h : cx.addBinary kind left right = .ok (e, later)) :
    (∃ op, cx.add (.additive op left right) = (e, later)) ∨
      (∃ op, cx.add (.relation op left right) = (e, later)) ∨
      ∃ op, cx.add (.connective op left right) = (e, later) := by
  cases kind with
  | additive op => exact .inl ⟨op, Except.ok.inj h⟩
  | relation op => exact .inr (.inl ⟨op, Except.ok.inj h⟩)
  | connective op => exact .inr (.inr ⟨op, Except.ok.inj h⟩)
  | _ => cases h

theorem Reachable.addId {cx : Context} (hr : cx.Reachable) (text : String) :
    (cx.addId text).2.Reachable :=
  have hinterned : (cx.intern text).2.Reachable := hr.intern
  hinterned.make (accepts_id fun _ => find?_intern cx text)

/-- What an operation makes of a context that is reached is reached, and holds
what the earlier one held. -/
theorem Step.reached {cx later : Context} (h : cx.Step later) (hr : cx.Reachable) :
    later.Reachable ∧ cx.Within later := by
  have hw := hr.wellFormed
  have hmake : ∀ {node : Node NodeRef}, cx.Accepts node →
      (cx.add node).2.Reachable ∧ cx.Within (cx.add node).2 :=
    fun haccepts => ⟨hr.make haccepts, .add cx _⟩
  cases h with
  | intern _ text => exact ⟨hr.intern, .intern cx text⟩
  | id _ text => exact ⟨hr.addId text, .addId cx text⟩
  | symbol hname => exact hmake (accepts_id fun _ => hname)
  | bool | int =>
    exact hmake (accepts_of_children (by simp [Node.children]) trivial (by simp) (by simp))
  | var hok =>
    obtain ⟨name, hname, ⟨⟩⟩ := addVar_eq_ok_iff.1 hok
    exact hmake (accepts_of_children (by simp [Node.children]) hname (by simp) (by simp))
  | binary hleft hright hok =>
    rcases add_of_addBinary hok with ⟨op, ⟨⟩⟩ | ⟨op, ⟨⟩⟩ | ⟨op, ⟨⟩⟩ <;>
      exact hmake (accepts_of_children (by simp [Node.children, hleft, hright]) trivial (by simp)
        (by simp))
  | scaling hfactor hoperand => exact hmake (accepts_scaling hfactor hoperand)
  | sign hoperand =>
    exact hmake (accepts_of_children (by simp [Node.children, hoperand]) trivial (by simp) (by simp))
  | not hoperand => exact hmake (accepts_not hoperand)
  | bind hname => exact hmake (accepts_bind _ hw hname)
  | quantifier hbinding hbody => exact hmake (accepts_quantifier hw hbinding hbody)
  | @declare _ _ text ty init d hinit hok =>
    have hid := Within.addId cx text
    exact ⟨(hr.addId text).declare (fun e he => hid.index_lt (hinit e he)) hok,
      hid.trans (.declareId hok)⟩
  | declareId hinit hok => exact ⟨hr.declare hinit hok, .declareId hok⟩
  | enterScope => exact ⟨hr.enterScope, .enterScope cx⟩
  | leaveScope hok => exact ⟨hr.leaveScope hok, .leaveScope hok⟩
  | elaborate hrun =>
    exact ⟨hr.elaborate hrun, (((run_elaborate_iff hw).1 hrun).kept hw).within⟩
  | statement hrun => exact ⟨hr.statement hrun, (kept_of_run_elaborateStatement hw hrun).within⟩
  | program hrun =>
    obtain ⟨s₁, hcourse, hsame⟩ := course_of_run_elaborateProgram hw hrun
    exact ⟨hr.program hrun, hsame ▸ (hcourse.kept hw).2.1⟩
  | normalize he hrun =>
    exact ⟨hr.normalize he hrun, ((normalizes_of_run hw he hrun).grows hw).1.within⟩

/-- The names that an operation brings in are the context's own. -/
theorem Step.native {cx later : Context} (h : cx.Step later) (hw : cx.WellFormed)
    (hn : cx.Native) : later.Native := by
  cases h with
  | intern _ text => exact hn.intern text
  | id _ text => exact hn.addId text
  | symbol hname =>
    refine hn.add ?_
    rintro _ ⟨⟩
    rw [(Interner.find?_eq_some_iff.1 hname).2]
  | bool | int | scaling | sign | not | bind | quantifier => exact hn.addOther (by simp)
  | var hok =>
    obtain ⟨name, -, ⟨⟩⟩ := addVar_eq_ok_iff.1 hok
    exact hn.addOther (by simp)
  | binary _ _ hok =>
    rcases add_of_addBinary hok with ⟨op, ⟨⟩⟩ | ⟨op, ⟨⟩⟩ | ⟨op, ⟨⟩⟩ <;>
      exact hn.addOther (by simp)
  | @declare _ _ text _ _ _ _ hok => exact (hn.addId text).declareId hok
  | declareId _ hok => exact hn.declareId hok
  | enterScope => exact hn.enterScope
  | leaveScope hok => exact hn.leaveScope hok
  | elaborate hrun => exact ((run_elaborate_iff hw).1 hrun).native hn
  | statement hrun =>
    obtain ⟨s₁, hcourse, hsame⟩ := course_of_run_elaborateStatement hw hrun
    exact hsame ▸ hcourse.native hn
  | program hrun =>
    obtain ⟨s₁, hcourse, hsame⟩ := course_of_run_elaborateProgram hw hrun
    exact hsame ▸ hcourse.native hn
  | normalize he hrun => exact (normalizes_of_run hw he hrun).native hn

/-- The later context is reached, holds what the earlier one held, and all its
names are its own. -/
structure Upheld (cx later : Context) : Prop where
  reachable : later.Reachable
  within : cx.Within later
  native : later.Native

namespace Upheld

variable {cx later last : Context}

theorem trans (h : cx.Upheld later) (h' : later.Upheld last) : cx.Upheld last :=
  ⟨h'.reachable, h.within.trans h'.within, h'.native⟩

theorem refl (hr : cx.Reachable) (hn : cx.Native) : cx.Upheld cx := ⟨hr, .refl cx, hn⟩

end Upheld

/-- Every operation upholds what the context is. -/
theorem Step.upheld {cx later : Context} (h : cx.Step later) (hr : cx.Reachable)
    (hn : cx.Native) : cx.Upheld later :=
  ⟨(h.reached hr).1, (h.reached hr).2, h.native hr.wellFormed hn⟩

/-! ## what runs keep -/

/-- A run of operations upholds what the context is. -/
theorem upheld_of_run {cx later : Context} (h : Relation.ReflTransGen Step cx later)
    (hr : cx.Reachable) (hn : cx.Native) : cx.Upheld later := by
  induction h with
  | refl => exact .refl hr hn
  | tail _ hstep ih => exact ih.trans (hstep.upheld ih.reachable ih.native)

theorem Built.upheld {cx : Context} (h : cx.Built) : Upheld .initial cx :=
  upheld_of_run h .initial native_initial

/-! ## a context that is built -/

/-- The initial context after the declaration of a formula `p`. -/
def declaredFormula : Context where
  interner := ⟨0, ["p", "int", "bool"]⟩
  nodes := initial.nodes.push (.id ⟨0, "p"⟩)
  decls := initial.decls.push ⟨⟨5⟩, .bool, none⟩
  scopes := ⟨[⟨[(⟨0, "p"⟩, ⟨2⟩), (⟨0, "int"⟩, ⟨1⟩), (⟨0, "bool"⟩, ⟨0⟩)]⟩]⟩

/-- The context of `p <-> p`, both sides of which are one node. -/
def selfEquivalence : Context :=
  ((declaredFormula.add (.var ⟨0, "p"⟩ ⟨2⟩)).2.add (.connective .iff ⟨6⟩ ⟨6⟩)).2

theorem selfEquivalence_built : selfEquivalence.Built := by
  have hdeclare : initial.declare "p" .bool none = .ok (⟨2⟩, declaredFormula) := rfl
  have hvar : declaredFormula.addVar ⟨2⟩ = .ok (declaredFormula.add (.var ⟨0, "p"⟩ ⟨2⟩)) := rfl
  have hbinary : (declaredFormula.add (.var ⟨0, "p"⟩ ⟨2⟩)).2.addBinary (.connective .iff) ⟨6⟩ ⟨6⟩ =
      .ok (⟨7⟩, selfEquivalence) := rfl
  have hrange : 6 < (declaredFormula.add (.var ⟨0, "p"⟩ ⟨2⟩)).2.size := by decide
  exact .tail (.tail (.tail .refl (.declare (by simp) hdeclare)) (.var hvar))
    (.binary hrange hrange hbinary)

/-! ## what is built -/

/-- Whatever is built is well formed: its handles are in range, lead to older
nodes and are of the kinds that their places demand, it has three type nodes,
and its environments bind names to declarations of those names, at the bottom
`bool` and `int`.  Two of its names are equal exactly when they are spelled
alike.  And however operations go on, they append to the nodes and the
declarations, so that every handle denotes what it denoted. -/
theorem Built.invariant {cx : Context} (h : cx.Built) :
    cx.WellFormed ∧
    (∀ a b, cx.Mentions a → cx.Mentions b → (a = b ↔ a.text = b.text)) ∧
    ∀ later, Relation.ReflTransGen Step cx later →
      (∃ nodes, later.nodes = cx.nodes ++ nodes) ∧ (∃ decls, later.decls = cx.decls ++ decls) ∧
        ∀ e t, cx.term? e = some t → later.term? e = some t := by
  have hcx := h.upheld
  have hw := hcx.reachable.wellFormed
  refine ⟨hw, fun a b ha hb => hw.eq_iff_text hcx.native ha hb, fun later hrun => ?_⟩
  have hwithin := (upheld_of_run hrun hcx.reachable hcx.native).within
  exact ⟨hwithin.exists_nodes, hwithin.exists_decls, fun e t ht => hwithin.term? ht⟩

/-- So it is with `p <-> p`. -/
theorem selfEquivalence_invariant : selfEquivalence.Built ∧ selfEquivalence.WellFormed ∧
    (∀ a b, selfEquivalence.Mentions a → selfEquivalence.Mentions b →
      (a = b ↔ a.text = b.text)) ∧
    ∀ later, Relation.ReflTransGen Step selfEquivalence later →
      (∃ nodes, later.nodes = selfEquivalence.nodes ++ nodes) ∧
      (∃ decls, later.decls = selfEquivalence.decls ++ decls) ∧
        ∀ e t, selfEquivalence.term? e = some t → later.term? e = some t :=
  ⟨selfEquivalence_built, selfEquivalence_built.invariant⟩

end ArithLogic.Context
