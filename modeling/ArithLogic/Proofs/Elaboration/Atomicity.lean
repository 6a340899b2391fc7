import ArithLogic.Proofs.Context.Reachable

/-!
# ArithLogic.Proofs.Elaboration.Atomicity

What elaboration does to the scopes.  An expression leaves them as they were,
however it ends, and so does a statement, but for one thing: a declaration or
a definition that succeeds binds its name in the innermost environment, to a
declaration that is new (`Context.BindsFresh`).  A name that is bound there
already is refused before anything is done.
-/

namespace ArithLogic

variable {tree : Tree} {s : Session} {out : Conclusion}

/-- The name that the tree, as a statement, is to bind. -/
def Tree.bound? : Tree → Option Token
  | .binary op left _ => if op.kind = .colon ∨ op.kind = .assign then left.name? else none
  | _ => none

theorem Tree.bound?_eq_some_iff {token : Token} : tree.bound? = some token ↔
    ∃ op left right, tree = .binary op left right ∧ (op.kind = .colon ∨ op.kind = .assign) ∧
      left.name? = some token := by
  cases tree with
  | binary op left right =>
    simp only [bound?, Option.ite_none_right_eq_some, binary.injEq]
    constructor
    · rintro ⟨hop, hname⟩
      exact ⟨_, _, _, ⟨rfl, rfl, rfl⟩, hop, hname⟩
    · rintro ⟨_, _, _, ⟨rfl, rfl, -⟩, hop, hname⟩
      exact ⟨hop, hname⟩
  | _ => simp [bound?]

/-- The scopes of the later context are those of the earlier one, but for one
more binding in the innermost environment: the name was free there, and it is
bound to a new declaration of that name. -/
def Context.BindsFresh (cx later : Context) (name : Symbol) (decl : Decl) : Prop :=
  ∃ env outer d, cx.scopes.environments = env :: outer ∧ env.contains name = false ∧
    later.scopes = ⟨⟨(name, d) :: env.bindings⟩ :: outer⟩ ∧ cx.decl? d = none ∧
    later.decl? d = some decl ∧ later.symbol? decl.name = some name

/-- The initial value that a statement gives to the name that it binds. -/
inductive Context.Initializes (cx : Context) (e : Elaboration) : Tree → Option NodeRef → Prop
  /-- A declaration gives none. -/
  | declaration {tree : Tree} : tree.IsBinding → Initializes cx e tree none
  /-- Where a type is defined, it is the node of the type that is designated. -/
  | designated {tree : Tree} {name : Symbol} {d : DeclRef} {decl : Decl} {ty : Ty} :
      tree.IsDefinition → e.ty = .kind → cx.node? e.expr = some (.var name d) →
      cx.decl? d = some decl → decl.init = some ty.ref → Initializes cx e tree (some ty.ref)
  /-- Otherwise it is the expression itself. -/
  | value {tree : Tree} :
      tree.IsDefinition → e.ty ≠ .kind → Initializes cx e tree (some e.expr)

/-! ## bindings -/

/-- A declaration that is made under the scopes of an earlier context binds a
fresh name. -/
theorem Context.Within.bindsFresh {cx before later : Context} (h : cx.Within before)
    (hscopes : before.scopes = cx.scopes) {id : NodeRef} {name : Symbol} {ty : Ty}
    {init : Option NodeRef} {d : DeclRef} (hid : before.symbol? id = some name)
    (hok : before.declareId id ty init = .ok (d, later)) :
    cx.BindsFresh later name ⟨id, ty, init⟩ := by
  have hnew := decl?_of_declareId hok
  have hlater := (Within.declareId hok).symbol? hid
  obtain ⟨_, scopes, hid', hinsert, rfl, rfl⟩ := declareId_eq_ok_iff.1 hok
  cases hid.symm.trans hid'
  obtain ⟨env, outer, hcons, hfree, rfl⟩ := ScopeStack.insert_eq_ok_iff.1 hinsert
  refine ⟨env, outer, _, by rw [← hscopes, hcons], hfree, rfl, ?_, hnew, hlater⟩
  cases hfound : cx.decl? ⟨before.decls.size⟩ with
  | none => rfl
  | some decl => exact absurd (index_lt_of_decl? (h.decl hfound)) (Nat.lt_irrefl _)

/-- The initial value of a definition is the type that is designated, or the
expression. -/
theorem Context.initializes_of_initialOf {cx later : Context} {e : Elaboration} {span : Span}
    {init : NodeRef} (hw : cx.WellFormed) (hwithin : cx.Within later) (hdefinition : tree.IsDefinition)
    (h : cx.initialOf e span = .ok init) : later.Initializes e tree (some init) := by
  unfold initialOf at h
  split at h
  · next hkind =>
    cases hty : cx.designation e span with
    | error fault => simp [hty, Except.map] at h
    | ok ty =>
      simp only [hty, Except.map, Except.ok.injEq] at h
      subst h
      obtain ⟨-, name, d, decl, value, hnode, hdecl, hinit, htype⟩ := designation_eq_ok hty
      rw [(hw.type_iff value ty).1 htype] at hinit
      exact .designated hdefinition hkind (hwithin.node hnode) (hwithin.decl hdecl) hinit
  · next hkind =>
    cases h
    exact .value hdefinition hkind

/-! ## statements -/

/-- A statement that fails leaves the scopes as they were. -/
theorem ElaboratesForm.scopes_of_error (h : ElaboratesForm tree s out) (hw : s.context.WellFormed)
    {error : ElabError} (herror : out.1 = .error error) :
    out.2.context.scopes = s.context.scopes := by
  cases h with
  | expression _ _ hcourse | bindingFailed _ _ _ hcourse | valueFailed _ _ _ hcourse =>
    exact (hcourse.kept hw).scopes
  | noName | redeclared => rfl
  | noInitial _ _ _ hcourse => exact (hcourse.kept hw).scopes
  | declared | defined => cases herror

/-- A statement that succeeds is an expression, and leaves the scopes as they
were, or it binds its name. -/
theorem ElaboratesForm.scopes_of_ok (h : ElaboratesForm tree s out) (hw : s.context.WellFormed)
    {e : Elaboration} (he : out.1 = .ok e) :
    (out.2.context.scopes = s.context.scopes ∧ ¬ tree.IsBinding ∧ ¬ tree.IsDefinition) ∨
      ∃ token id init, tree.bound? = some token ∧ out.2.context.Initializes e tree init ∧
        s.context.BindsFresh out.2.context ⟨s.context.interner.origin, token.text⟩
          ⟨id, e.ty, init⟩ := by
  cases h with
  | expression hbinding hdefinition hcourse =>
    exact .inl ⟨(hcourse.kept hw).scopes, hbinding, hdefinition⟩
  | @declared op name left right _ s₁ b id d cx hop hname _ hcourse hnode hdeclare =>
    cases he
    have hkept := hcourse.kept hw
    obtain ⟨found, _, s₀, ty, hfound, htype, -, rfl, rfl⟩ := hcourse.binding_parts hop
    cases hname.symm.trans hfound
    obtain ⟨hb, hid⟩ := s₀.node?_addBinding name.text ty
    cases hnode.symm.trans hb
    rw [(htype.kept hw).within.origin] at hid
    exact .inr ⟨name, _, none, Tree.bound?_eq_some_iff.2 ⟨_, _, _, rfl, .inl hop, hname⟩,
      .declaration hop, hkept.within.bindsFresh hkept.scopes hid hdeclare⟩
  | @defined op name left right _ s₁ _ init d cx hop hname _ hcourse hinit hdeclare =>
    cases he
    have hkept := hcourse.kept hw
    have hwithin := Context.Within.addId s₁.context name.text
    have hid := Context.symbol?_addId s₁.context name.text
    rw [hkept.within.origin] at hid
    exact .inr ⟨name, _, some init, Tree.bound?_eq_some_iff.2 ⟨_, _, _, rfl, .inr hop, hname⟩,
      Context.initializes_of_initialOf hkept.wellFormed (hwithin.trans (.declareId hdeclare)) hop hinit,
      (hkept.within.trans hwithin).bindsFresh hkept.scopes hid hdeclare⟩
  | _ => cases he

/-- A statement that binds a name which the innermost environment binds already
changes nothing but the record. -/
theorem elaborateStatement_redeclared {token : Token} (hname : tree.bound? = some token)
    (hlocal : s.context.isLocal token.text = true) :
    elaborateStatement tree s = .ok (.error (.redeclaration token.text),
      (s.report ⟨.redeclaration token.text, token.span⟩).moveTo s.context
        (.statementFailed tree.span (.redeclaration token.text))) := by
  obtain ⟨op, left, right, rfl, hop, hleft⟩ := Tree.bound?_eq_some_iff.1 hname
  have hrun : elaborateForm (.binary op left right) s =
      .ok (s.conclude (.refuse ⟨.redeclaration token.text, token.span⟩ [])) :=
    run_elaborateForm_redeclared hop hleft hlocal
  simp only [elaborateStatement, Action.run_bind, ExceptT.run, hrun]
  rfl

/-! ## the whole -/

/-- In every context that can be reached and for every tree: elaborating it as
an expression leaves the scopes as they were, with or without success.
Elaborating it as a statement does so too unless the statement is a declaration
or a definition and succeeds; then its name is bound in the innermost
environment and nothing else changes.  If that environment binds the name
already, the statement fails and the context stays as it was. -/
theorem elaborate_atomic {s : Session} (h : s.context.Reachable) (tree : Tree) :
    (∃ r s', (elaborate tree).run s = .ok (r, s') ∧ s'.context.scopes = s.context.scopes) ∧
    ∃ r s', elaborateStatement tree s = .ok (r, s') ∧
      ((s'.context.scopes = s.context.scopes ∧
          ∀ e, r = .ok e → ¬ tree.IsBinding ∧ ¬ tree.IsDefinition) ∨
        ∃ e token id init, r = .ok e ∧ tree.bound? = some token ∧
          s'.context.Initializes e tree init ∧
          s.context.BindsFresh s'.context ⟨s.context.interner.origin, token.text⟩
            ⟨id, e.ty, init⟩) ∧
      ∀ token env outer, tree.bound? = some token → s.context.scopes.environments = env :: outer →
        env.contains ⟨s.context.interner.origin, token.text⟩ = true →
        r = .error (.redeclaration token.text) ∧ s'.context = s.context := by
  have hw := h.wellFormed
  constructor
  · obtain ⟨⟨r, s'⟩, hcourse⟩ := exists_elaborates tree hw
    exact ⟨r, s', hcourse.run hw, (hcourse.kept hw).scopes⟩
  · obtain ⟨r, s₁, event, hcourse, hrun⟩ := exists_course_statement tree hw
    refine ⟨r, _, hrun, ?_, fun token env outer hname hcons hbound => ?_⟩
    · cases r with
      | error error => exact .inl ⟨hcourse.scopes_of_error hw rfl, by simp⟩
      | ok e =>
        rcases hcourse.scopes_of_ok hw rfl with ⟨hscopes, hshape⟩ | ⟨token, id, init, hbinds⟩
        · exact .inl ⟨hscopes, fun _ _ => hshape⟩
        · exact .inr ⟨e, token, id, init, rfl, hbinds⟩
    · rw [← hw.isLocal_eq hcons] at hbound
      have hrefused := hrun.symm.trans (elaborateStatement_redeclared hname hbound)
      obtain ⟨hr, hs'⟩ := Prod.mk.inj (Except.ok.inj hrefused)
      have hcontext := congrArg Session.context hs'
      exact ⟨hr, hcontext⟩

/-- `bool : int` is refused at the top, where `bool` is bound, and is an
expression all the same. -/
theorem elaborate_atomic_bool :
    let tree : Tree := .binary ⟨.colon, ":", .origin⟩ (.terminal ⟨.kwBool, "bool", .origin⟩)
      (.terminal ⟨.kwInt, "int", .origin⟩)
    Context.initial.Reachable ∧
      (∃ r s', (elaborate tree).run ⟨.initial, #[]⟩ = .ok (r, s') ∧
        s'.context.scopes = Context.initial.scopes) ∧
      ∃ s', elaborateStatement tree ⟨.initial, #[]⟩ = .ok (.error (.redeclaration "bool"), s') ∧
        s'.context = .initial := by
  intro tree
  obtain ⟨hexpression, r, s', hrun, -, hredeclared⟩ :=
    elaborate_atomic (s := ⟨.initial, #[]⟩) .initial tree
  obtain ⟨rfl, hcontext⟩ := hredeclared ⟨.kwBool, "bool", .origin⟩ _ _ rfl rfl rfl
  exact ⟨.initial, hexpression, s', hrun, hcontext⟩

end ArithLogic
