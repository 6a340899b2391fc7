import ArithLogic.Analysis
import ArithLogic.Proofs.Context.Reachable
import ArithLogic.Proofs.Context.Scoped

/-!
# ArithLogic.Proofs.History

Sessions as an analysis makes them: programs are read and elaborated, one
after the other, and what their statements mean is brought into normal form.
All of this happens under the top environment alone, so names that mean
something keep their meaning, and every expression that was ever made is
scoped in all later contexts (`History.settled`).
-/

namespace ArithLogic

/-- A session that was reached by elaborating programs that were read and
bringing expressions into normal form, and the results: what the statements
mean, and the normal forms of that. -/
inductive History : Session → List Elaboration → Prop
  | start {events : Array Event} : History ⟨.initial, events⟩ []
  | program {s s' : Session} {results : List Elaboration} {source : String} {trees : List Tree}
      {outcomes : List (Except ElabError Elaboration)} :
      History s results → parseProgram source = .ok trees →
      elaborateProgram trees s = .ok (outcomes, s') →
      History s' (results ++ outcomes.filterMap Except.toOption)
  | normalForm {s s' : Session} {results : List Elaboration} {e e' : Elaboration} :
      History s results → e ∈ results → e.normalForm s = .ok (e', s') →
      History s' (results ++ [e'])
  | negatedForm {s s' : Session} {results : List Elaboration} {e e' : Elaboration} :
      History s results → e ∈ results → e.negatedForm s = .ok (e', s') →
      History s' (results ++ [e'])
  /-- Any part of an expression is brought into normal form, under either
  polarity. -/
  | normalize {s s' : Session} {results : List Elaboration} {e e' : NodeRef} {negated : Bool} :
      History s results → e.index < s.context.size →
      Action.normalize e negated s = .ok (e', s') → History s' results

/-- A result is in range, and scoped unless it is a binding. -/
structure Context.Holds (cx : Context) (e : Elaboration) : Prop where
  inRange : e.expr.index < cx.size
  resolved : cx.isBinding e.expr = false → cx.Scoped cx.scopes.find? e.expr e.ty

/-- What is true of every session that an analysis makes. -/
structure Settled (cx : Context) (results : List Elaboration) : Prop where
  wellFormed : cx.WellFormed
  within : Context.Within .initial cx
  depth : cx.depth = 1
  noKind : cx.NoKind
  results : ∀ e ∈ results, cx.Holds e

namespace Context

variable {cx later : Context} {e : Elaboration}

/-- Whatever names mean, they mean in the later context as well. -/
def Keeps (cx later : Context) : Prop :=
  ∀ name d, cx.scopes.find? name = some d → later.scopes.find? name = some d

theorem Within.isBinding_eq {e : NodeRef} (h : cx.Within later) (he : e.index < cx.size) :
    later.isBinding e = cx.isBinding e := by
  unfold isBinding
  rw [h.node?_eq he]

theorem Holds.mono (h : cx.Holds e) (hwithin : cx.Within later) (hkeeps : cx.Keeps later) :
    later.Holds e where
  inRange := hwithin.index_lt h.inRange
  resolved hbinding := by
    rw [hwithin.isBinding_eq h.inRange] at hbinding
    exact (h.resolved hbinding).mono hwithin hkeeps

end Context

/-! ## statements -/

/-- A statement that was parsed keeps what holds of sessions, and its result
holds. -/
structure SettledForm (s : Session) (out : Conclusion) : Prop where
  noKind : out.2.context.NoKind
  keeps : s.context.Keeps out.2.context
  holds : ∀ e, out.1 = .ok e → out.2.context.Holds e

theorem Kept.keeps {s : Session} {out : Conclusion} (h : Kept s out) :
    s.context.Keeps out.2.context := by
  intro name d hd
  rw [h.scopes]
  exact hd

/-- Where names keep their meaning, nothing but the result is to be shown. -/
theorem Kept.settledForm {s : Session} {out : Conclusion} (h : Kept s out) (hkind : s.context.NoKind)
    (hholds : ∀ e, out.1 = .ok e → out.2.context.Holds e) : SettledForm s out :=
  ⟨h.noKind hkind, h.keeps, hholds⟩

/-- A fault settles nothing new. -/
theorem Kept.settledFault {s s' : Session} {error : ElabError} (h : Kept s (.error error, s'))
    (hkind : s.context.NoKind) : SettledForm s (.error error, s') :=
  h.settledForm hkind (by simp)

/-- The initial value of a definition is not the type of types. -/
theorem Context.initialOf_ne_kind {cx : Context} (hw : cx.WellFormed) (hkind : cx.NoKind)
    {e : Elaboration} (he : 2 < e.expr.index) {span : Span} {init : NodeRef}
    (h : cx.initialOf e span = .ok init) : init ≠ Ty.kind.ref := by
  unfold initialOf at h
  split at h
  · cases hty : cx.designation e span with
    | error fault => simp [hty, Except.map] at h
    | ok ty =>
      simp only [hty, Except.map, Except.ok.injEq] at h
      subst h
      intro heq
      exact hkind.designation_ne hw hty (Ty.ref_injective heq)
  · cases h
    intro heq
    rw [heq] at he
    exact absurd he (by decide)

/-- A declaration keeps the context free of definitions of the type of types. -/
theorem Context.NoKind.declareId {cx later : Context} {id : NodeRef} {ty : Ty}
    {init : Option NodeRef} {d : DeclRef} (h : cx.NoKind) (hinit : init ≠ some Ty.kind.ref)
    (hok : cx.declareId id ty init = .ok (d, later)) : later.NoKind := by
  intro d' decl hfound
  rcases decl?_of_declareId_cases hok hfound with ⟨-, rfl⟩ | hold
  · exact hinit
  · exact h d' decl hold

section Statements

variable {tree : Tree} {s : Session} {out : Conclusion}

/-- An expression that is elaborated holds, unless it is a binding. -/
theorem Elaborates.settledForm (h : Elaborates tree s out) (hshape : tree.IsExpression)
    (hw : s.context.WellFormed) (hkind : s.context.NoKind) : SettledForm s out := by
  have hkept := h.kept hw
  refine hkept.settledForm hkind fun e he => ⟨(hkept.fresh e he).2, fun _ => ?_⟩
  rw [hkept.scopes]
  exact h.scoped hshape hw hkind he

/-- A statement that declares a name settles nothing but the declaration. -/
theorem SettledForm.declare {s₁ : Session} {e : Elaboration} {cx before : Context} {id : NodeRef}
    {ty : Ty} {init : Option NodeRef} {d : DeclRef} (h : SettledForm s (.ok e, s₁))
    (hwithin : s₁.context.Within before) (hscopes : before.scopes = s₁.context.scopes)
    (hdecls : before.decls = s₁.context.decls) (hdepth : s₁.context.depth = 1)
    (hinit : init ≠ some Ty.kind.ref) (hdeclare : before.declareId id ty init = .ok (d, cx)) :
    SettledForm s (.ok e, ⟨cx, s₁.events⟩) := by
  have hkeeps : s₁.context.Keeps cx := by
    intro name d' hname
    rw [← hscopes] at hname
    exact Context.find?_mono_declareId hdeclare (by rw [Context.depth, hscopes]; exact hdepth) hname
  have hkind : before.NoKind := by
    intro d' decl hfound
    rw [Context.decl?, hdecls] at hfound
    exact h.noKind d' decl hfound
  refine ⟨hkind.declareId hinit hdeclare, fun name d' hname => hkeeps _ _ (h.keeps _ _ hname), ?_⟩
  intro e he
  exact (h.holds e he).mono (hwithin.trans (.declareId hdeclare)) hkeeps

/-- Statements that were parsed settle what they mean. -/
theorem ElaboratesForm.settledForm (h : ElaboratesForm tree s out) (hshape : tree.IsStatement)
    (hw : s.context.WellFormed) (hinitial : Context.Within .initial s.context)
    (hdepth : s.context.depth = 1) (hkind : s.context.NoKind) : SettledForm s out := by
  cases h with
  | expression hbinding hdefinition hcourse =>
    cases hshape with
    | expression hexpr => exact hcourse.settledForm hexpr hw hkind
    | declaration hcolon => exact absurd hcolon hbinding
    | definition hassign => exact absurd hassign hdefinition
  | noName | redeclared =>
    exact (Kept.refuse hw _ _).settledFault hkind
  | bindingFailed _ _ _ hcourse | valueFailed _ _ _ hcourse =>
    exact (hcourse.kept hw).settledFault hkind
  | @declared op name left right s s₁ b id d cx hop _ _ hcourse hnode hdeclare =>
    have hkept := hcourse.kept hw
    have hsettled : SettledForm s (.ok b, s₁) := by
      refine hkept.settledForm hkind fun e he => ⟨(hkept.fresh e he).2, fun hbinding => ?_⟩
      cases he
      simp [Context.isBinding, hnode] at hbinding
    exact hsettled.declare (.refl _) rfl rfl (hkept.form.depth.trans hdepth)
      (Option.some_ne_none _).symm hdeclare
  | noInitial _ _ _ hcourse =>
    have hkept := hcourse.kept hw
    exact (hkept.trans (.refuse hkept.wellFormed _ _)).settledFault hkind
  | @defined op name left right s s₁ e init d cx hop _ _ hcourse hinit hdeclare =>
    have hexpr := hshape.value hop
    have hkept := hcourse.kept hw
    have hbehind : 2 < e.expr.index :=
      Nat.lt_of_lt_of_le (by decide) (Nat.le_trans hinitial.size_le (hkept.fresh e rfl).1)
    have hne := Context.initialOf_ne_kind hkept.wellFormed (hkept.noKind hkind) hbehind hinit
    exact (hcourse.settledForm hexpr hw hkind).declare (.addId _ _) (Context.scopes_addId ..)
      (Context.decls_addId ..) (hkept.form.depth.trans hdepth) (fun h => hne (Option.some.inj h))
      hdeclare

end Statements

/-! ## programs and histories -/

namespace Settled

variable {cx later : Context} {results more : List Elaboration}

/-- Nothing was made in the initial context. -/
theorem initial : Settled .initial [] where
  wellFormed := Context.wellFormed_initial
  within := .refl _
  depth := rfl
  noKind d decl h := by
    rcases Context.decl?_initial h with ⟨-, rfl⟩ | ⟨-, rfl⟩ <;> decide
  results e he := nomatch he

/-- More results may be held. -/
theorem append (h : Settled cx results) (hmore : ∀ e ∈ more, cx.Holds e) :
    Settled cx (results ++ more) :=
  { h with results := fun e he => (List.mem_append.1 he).elim (h.results e) (hmore e) }

/-- A statement leads from one settled context to the next. -/
theorem form {tree : Tree} {s : Session} {out : Conclusion} (h : Settled s.context results)
    (hcourse : ElaboratesForm tree s out) (hshape : tree.IsStatement) :
    Settled out.2.context (results ++ out.1.toOption.toList) := by
  have hkept := hcourse.kept h.wellFormed
  have hform := hcourse.settledForm hshape h.wellFormed h.within h.depth h.noKind
  refine append ⟨hkept.wellFormed, h.within.trans hkept.within, hkept.depth.trans h.depth,
    hform.noKind, fun e he => (h.results e he).mono hkept.within hform.keeps⟩ fun e he => ?_
  refine hform.holds e ?_
  cases hout : out.1 with
  | error error => simp [hout, Except.toOption] at he
  | ok found =>
    simp only [hout, Except.toOption, Option.toList_some, List.mem_singleton] at he
    rw [he]

/-- So does a program. -/
theorem program {trees : List Tree} {s s' : Session}
    {outcomes : List (Except ElabError Elaboration)} (h : Settled s.context results)
    (hcourse : ElaboratesAll trees s outcomes s') (hshape : ∀ tree ∈ trees, tree.IsStatement) :
    Settled s'.context (results ++ outcomes.filterMap Except.toOption) := by
  induction hcourse generalizing results with
  | nil => simpa using h
  | @cons _ _ _ _ _ outcome outcomes _ hform _ ih =>
    rw [List.forall_mem_cons] at hshape
    have hlast := ih (h.form hform hshape.1) hshape.2
    rw [List.append_assoc] at hlast
    cases outcome with
    | error error => exact hlast
    | ok e => exact hlast

/-- Growth by nodes takes nothing away. -/
theorem grows (h : Settled cx results) (hgrows : cx.Grows later) : Settled later results where
  wellFormed := hgrows.wellFormed
  within := h.within.trans hgrows.within
  depth := by rw [Context.depth, hgrows.scopes]; exact h.depth
  noKind d decl hfound := h.noKind d decl (by rw [← hgrows.decl?]; exact hfound)
  results e he := (h.results e he).mono hgrows.within fun _ _ hname => by rwa [hgrows.scopes]

/-- The normal form of a result is a result. -/
theorem normalForm {e : Elaboration} {e' : NodeRef} {negated : Bool} (h : Settled cx results)
    (he : e ∈ results) (hcourse : Normalizes cx e.expr negated e' later)
    (hneg : negated = true → e.isFormula cx = true) :
    Settled later (results ++ [⟨e', e.ty⟩]) := by
  obtain ⟨hgrows, hrange⟩ := hcourse.grows h.wellFormed
  refine (h.grows hgrows).append fun _ hmem => ?_
  rw [List.mem_singleton.1 hmem]
  refine ⟨hrange, fun hbinding => ?_⟩
  have hformula : negated = true → e.ty = .bool := fun hflag =>
    (Elaboration.isFormula_eq_true_iff.1 (hneg hflag)).1
  have hold : cx.isBinding e.expr = false := by
    cases hfound : cx.isBinding e.expr with
    | false => rfl
    | true =>
      -- a binding is its own normal form
      unfold Context.isBinding at hfound
      split at hfound
      · next id ty hnode =>
        cases hcourse with
        | kept => simp [Context.isBinding, hnode] at hbinding
        | name hother hname => cases hnode.symm.trans hother; cases hname
        | _ hother => cases hnode.symm.trans hother
      · cases hfound
  have hscoped := hcourse.scoped h.wellFormed ((h.results e he).resolved hold) hformula
  rw [hgrows.scopes]
  exact hscoped

end Settled

/-- Whatever an analysis makes is settled. -/
theorem History.settled {s : Session} {results : List Elaboration} (h : History s results) :
    Settled s.context results := by
  induction h with
  | start => exact .initial
  | program _ hparse hrun ih =>
    obtain ⟨s₁, hcourse, hsame⟩ := course_of_run_elaborateProgram ih.wellFormed hrun
    rw [hsame]
    exact ih.program hcourse (isStatement_of_parseProgram hparse)
  | @normalForm s s' results e e' _ he hrun ih =>
    obtain ⟨_, _, hnormal, hcourse⟩ :=
      follows_normalize ih.wellFormed (ih.results e he).inRange false
    cases hrun.symm.trans (Elaboration.run_normalForm hnormal)
    exact ih.normalForm he hcourse fun h => absurd h Bool.false_ne_true
  | @negatedForm s s' results e e' _ he hrun ih =>
    have hrange := (ih.results e he).inRange
    by_cases hformula : e.isFormula s.context = true
    · obtain ⟨_, _, hnormal, hcourse⟩ := follows_normalize ih.wellFormed hrange true
      cases hrun.symm.trans (Elaboration.run_negatedForm hformula hnormal)
      exact ih.normalForm he hcourse fun _ => hformula
    · obtain ⟨node, hnode⟩ := Context.node?_of_index_lt hrange
      cases hrun.symm.trans (Elaboration.run_negatedForm_other hnode hformula)
  | normalize _ he hrun ih =>
    exact ih.grows ((Context.normalizes_of_run ih.wellFormed he hrun).grows ih.wellFormed).1

/-- The history of a program whose results and context are known. -/
theorem History.exists_of_program {source : String} {trees : List Tree}
    (results : List Elaboration) (known : Context → Bool)
    (hparse : (parseProgram source).toOption = some trees)
    (hrun : (elaborateProgram trees ⟨.initial, #[]⟩).toOption.map (fun out =>
      (out.1.filterMap Except.toOption, known out.2.context)) = some (results, true)) :
    ∃ s, History s results ∧ known s.context = true := by
  obtain ⟨⟨outcomes, s⟩, hout, heq⟩ := Option.map_eq_some_iff.1 hrun
  obtain ⟨hresults, hknown⟩ := Prod.mk.inj heq
  refine ⟨s, ?_, hknown⟩
  rw [← hresults]
  exact .program .start (eq_ok_of_toOption hparse) (eq_ok_of_toOption hout)

end ArithLogic
