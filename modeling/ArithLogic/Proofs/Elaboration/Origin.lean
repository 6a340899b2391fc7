import ArithLogic.Proofs.Elaboration.Agreement

/-!
# ArithLogic.Proofs.Elaboration.Origin

Where a failure originates.  Elaborating a tree elaborates parts of it, each in
the session that the parts before it have left (`Tree.Tries`).  A tree that
fails although none of the parts that were tried does is where its failure
originates; otherwise the failure is that of the part (`Tree.Originates`).  On
the way up nothing is added: the whole fails with the error of the origin, and
with the same diagnostics (`Tree.Originates.failed`).
-/

namespace ArithLogic

/-- Elaborating the tree in a session elaborates the part, in a session of its
own. -/
inductive Tree.Tries : Tree → Session → Tree → Session → Prop
  | enclosed {opening closing : Token} {body : Tree} {s : Session} :
      Tries (.enclosed opening body closing) s body s
  | operand {op : Token} {operand : Tree} {s : Session} {form : PrefixForm} :
      PrefixForm.ofToken? op.kind = some form → Tries (.unary op operand) s operand s
  | left {op : Token} {left right : Tree} {s : Session} {form : InfixForm} :
      InfixForm.ofToken? op.kind = some form → Tries (.binary op left right) s left s
  | right {op : Token} {left right : Tree} {s s₁ : Session} {form : InfixForm} {l : Elaboration} :
      InfixForm.ofToken? op.kind = some form → (elaborate left).run s = .ok (.ok l, s₁) →
      Tries (.binary op left right) s right s₁
  | type {op name : Token} {left right : Tree} {s : Session} :
      op.kind = .colon → left.name? = some name → Tries (.binary op left right) s right s
  | binding {op : Token} {left right : Tree} {s : Session} {q : Quantifier} :
      Quantifier.ofToken? op.kind = some q → left.IsBinding → Tries (.binary op left right) s left s
  | body {op : Token} {left right : Tree} {s s₁ : Session} {q : Quantifier} {b : Elaboration}
      {id : NodeRef} {d : DeclRef} {inner : Context} :
      Quantifier.ofToken? op.kind = some q → left.IsBinding →
      (elaborate left).run s = .ok (.ok b, s₁) → s₁.context.node? b.expr = some (.bind id b.ty) →
      s₁.context.enterScope.declareId id b.ty none = .ok (d, inner) →
      Tries (.binary op left right) s right
        (s₁.moveTo inner (.scopeEntered (s₁.context.depth + 1)))

/-- The tree fails in the session. -/
def Tree.Fails (tree : Tree) (s : Session) : Prop :=
  ∃ error s', (elaborate tree).run s = .ok (.error error, s')

/-- The failure of the tree in the session originates at the site, which is
elaborated in the session `s₀`. -/
inductive Tree.Originates : Tree → Session → Tree → Session → Prop
  | here {tree : Tree} {s : Session} :
      tree.Fails s → (∀ part s₀, tree.Tries s part s₀ → ¬ part.Fails s₀) → Originates tree s tree s
  | within {tree part site : Tree} {s s₁ s₀ : Session} :
      tree.Tries s part s₁ → Originates part s₁ site s₀ → Originates tree s site s₀

variable {tree part part' site site' : Tree} {s s' s₀ s₀' : Session} {error : ElabError}

theorem Elaborates.fails (h : Elaborates tree s (.error error, s')) (hw : s.context.WellFormed) :
    tree.Fails s :=
  ⟨error, s', h.run hw⟩

namespace Tree.Tries

/-- Only what is smaller is tried. -/
theorem sizeOf_lt (h : tree.Tries s part s₀) : sizeOf part < sizeOf tree := by
  cases h <;> simp only [enclosed.sizeOf_spec, unary.sizeOf_spec, binary.sizeOf_spec] <;> omega

/-- A part is tried in a context that is well formed, and before anything is
reported. -/
theorem start (h : tree.Tries s part s₀) (hw : s.context.WellFormed) :
    s₀.context.WellFormed ∧ s₀.diagnostics = s.diagnostics := by
  cases h with
  | enclosed | operand | left | type | binding => exact ⟨hw, rfl⟩
  | right _ hl =>
    have hleft := (run_elaborate_iff hw).1 hl
    exact ⟨(hleft.kept hw).wellFormed, hleft.diagnostics rfl⟩
  | body _ _ hb _ hdeclare =>
    have hbinding := (run_elaborate_iff hw).1 hb
    exact ⟨(hbinding.kept hw).wellFormed.enterScope.declareVar hdeclare,
      (Session.diagnostics_moveTo rfl).trans (hbinding.diagnostics rfl)⟩

/-- If a part fails, so does the tree, with the same error, and nothing is
reported in addition. -/
theorem failed (h : tree.Tries s part s₀) (hw : s.context.WellFormed)
    (hpart : Elaborates part s₀ (.error error, s')) :
    ∃ last, Elaborates tree s (.error error, last) ∧ last.diagnostics = s'.diagnostics := by
  cases h with
  | enclosed => exact ⟨s', .enclosed hpart, rfl⟩
  | operand hform => exact ⟨s', .operandFailed hform hpart, rfl⟩
  | left hform => exact ⟨s', .leftFailed hform hpart, rfl⟩
  | right hform hl => exact ⟨s', .rightFailed hform ((run_elaborate_iff hw).1 hl) hpart, rfl⟩
  | type hop hname => exact ⟨s', .typeFailed hop hname hpart, rfl⟩
  | binding hq hleft => exact ⟨s', .bindingFailed hq hleft hpart, rfl⟩
  | body hq hleft hb hnode hdeclare =>
    have hbinding := (run_elaborate_iff hw).1 hb
    have hw₁ := (hbinding.kept hw).wellFormed
    -- the body keeps the scopes, so the one that was entered is left
    obtain ⟨_, hleave⟩ := hpart.exists_leaveScope hw₁ hdeclare
    exact ⟨_, .bodyFailed hq hleft hbinding hnode hdeclare hpart hleave,
      Session.diagnostics_moveTo rfl⟩

/-- At most one of the parts that are tried fails, for it is the last. -/
theorem unique (h : tree.Tries s part s₀) (h' : tree.Tries s part' s₀') (hfails : part.Fails s₀)
    (hfails' : part'.Fails s₀') : part' = part ∧ s₀' = s₀ := by
  obtain ⟨error, last, hrun⟩ := hfails
  obtain ⟨error', last', hrun'⟩ := hfails'
  cases h with
  | enclosed | operand =>
    cases h'
    exact ⟨rfl, rfl⟩
  | left hform | right hform =>
    obtain ⟨hcolon, -, hnone⟩ := InfixForm.kind_of_ofToken? hform
    cases h' with
    -- the right operand is tried only after the left one succeeded
    | left | right => grind
    | type hop => exact absurd hop hcolon
    | binding hq | body hq => cases hnone.symm.trans hq
  | type hop =>
    cases h' with
    | left hform | right hform => exact absurd hop (InfixForm.kind_of_ofToken? hform).1
    | type => exact ⟨rfl, rfl⟩
    | binding hq | body hq => exact absurd hop (Quantifier.kind_of_ofToken? hq).1
  | binding hq | body hq =>
    cases h' with
    | left hform | right hform =>
      cases (InfixForm.kind_of_ofToken? hform).2.2.symm.trans hq
    | type hop => exact absurd hop (Quantifier.kind_of_ofToken? hq).1
    | binding | body => grind

end Tree.Tries

namespace Tree.Originates

/-- The origin fails with the error of the tree and with the same diagnostics,
and before it is elaborated there are none. -/
theorem failed (h : tree.Originates s site s₀) (hw : s.context.WellFormed) :
    s₀.context.WellFormed ∧ s₀.diagnostics = s.diagnostics ∧ ∃ error s₁ s',
      Elaborates site s₀ (.error error, s₁) ∧ Elaborates tree s (.error error, s') ∧
      s'.diagnostics = s₁.diagnostics := by
  induction h with
  | here hfails =>
    obtain ⟨error, s', hrun⟩ := hfails
    have hcourse := (run_elaborate_iff hw).1 hrun
    exact ⟨hw, rfl, error, s', s', hcourse, hcourse, rfl⟩
  | within htries _ ih =>
    obtain ⟨hw₁, hstart⟩ := htries.start hw
    obtain ⟨hw₀, hbefore, error, s₁, s₂, hsite, hpart, hsame⟩ := ih hw₁
    obtain ⟨s', htree, hlast⟩ := htries.failed hw hpart
    exact ⟨hw₀, hbefore.trans hstart, error, s₁, s', hsite, htree, hlast.trans hsame⟩

/-- What has an origin is a failure. -/
theorem fails (h : tree.Originates s site s₀) (hw : s.context.WellFormed) : tree.Fails s := by
  obtain ⟨-, -, error, s₁, s', -, htree, -⟩ := h.failed hw
  exact htree.fails hw

/-- None of the parts that are tried at the origin fails. -/
theorem detected (h : tree.Originates s site s₀) :
    ∀ part s₁, site.Tries s₀ part s₁ → ¬ part.Fails s₁ := by
  induction h with
  | here _ hparts => exact hparts
  | within _ _ ih => exact ih

/-- A failure has one origin. -/
theorem unique (h : tree.Originates s site s₀) (hw : s.context.WellFormed)
    (h' : tree.Originates s site' s₀') : site' = site ∧ s₀' = s₀ := by
  induction h with
  | here _ hparts =>
    cases h' with
    | here => exact ⟨rfl, rfl⟩
    | within htries hpart => exact absurd (hpart.fails (htries.start hw).1) (hparts _ _ htries)
  | within htries hpart ih =>
    have hw₁ := (htries.start hw).1
    cases h' with
    | here _ hparts => exact absurd (hpart.fails hw₁) (hparts _ _ htries)
    | within htries' hpart' =>
      obtain ⟨rfl, rfl⟩ :=
        htries.unique htries' (hpart.fails hw₁) (hpart'.fails (htries'.start hw).1)
      exact ih hw₁ hpart'

end Tree.Originates

/-- Every failure originates somewhere. -/
theorem Tree.Fails.exists_origin {tree : Tree} {s : Session} (h : tree.Fails s)
    (hw : s.context.WellFormed) : ∃ site s₀, tree.Originates s site s₀ := by
  by_cases hpart : ∃ part s₁, tree.Tries s part s₁ ∧ part.Fails s₁
  · obtain ⟨part, s₁, htries, hfails⟩ := hpart
    have hsmaller := htries.sizeOf_lt
    obtain ⟨site, s₀, horigin⟩ := hfails.exists_origin (htries.start hw).1
    exact ⟨site, s₀, .within htries horigin⟩
  · exact ⟨tree, s, .here h fun part s₁ htries hfails => hpart ⟨part, s₁, htries, hfails⟩⟩
termination_by sizeOf tree

end ArithLogic
