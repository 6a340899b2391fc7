import ArithLogic.Proofs.Elaboration.Reporting
import ArithLogic.Proofs.Reading.Spans

/-!
# ArithLogic.Proofs.Elaboration.Places

Where failures are reported.  A fault is placed at an operand, at the operator
with its operands, or at the name that is at fault; all of these lie in the
tree whose elaboration fails there, and in one that was read every tree covers
its parts.  So whatever is reported of a statement has a place in the statement
(`ElaboratesForm.reportsWithin`), which itself is exactly where its tokens are
(`Tree.ReadFrom.places`).
-/

namespace ArithLogic

namespace Span.Within

variable {a b c : Span}

theorem refl (a : Span) : a.Within a := ⟨Nat.le_refl _, Nat.le_refl _⟩

theorem trans (h : a.Within b) (h' : b.Within c) : a.Within c :=
  ⟨Nat.le_trans h'.1 h.1, Nat.le_trans h.2 h'.2⟩

/-- What covers both covers their join. -/
theorem join (ha : a.Within c) (hb : b.Within c) : (a.join b).Within c :=
  ⟨Nat.le_min.2 ⟨ha.1, hb.1⟩, Nat.max_le.2 ⟨ha.2, hb.2⟩⟩

end Span.Within

namespace Tree

variable {op : Token} {left right : Tree}

theorem op_within_binary : op.span.Within (binary op left right).span :=
  (Span.within_join_left _ _).trans (Span.within_join_left _ _)

theorem left_within_binary : left.span.Within (binary op left right).span :=
  (Span.within_join_right _ _).trans (Span.within_join_left _ _)

theorem right_within_binary : right.span.Within (binary op left right).span :=
  Span.within_join_right _ _

end Tree

namespace Tree.Nested

variable {tree part l r : Tree} {op opening closing : Token}

/-- So are the nodes of a part. -/
theorem of_subset (h : tree.Nested) (hpart : part.subtrees ⊆ tree.subtrees) : part.Nested :=
  fun sub hsub => h sub (hpart hsub)

theorem body (h : (enclosed opening tree closing).Nested) :
    tree.Nested ∧ tree.span.Within (enclosed opening tree closing).span :=
  ⟨h.of_subset (List.subset_cons_self ..),
    (h _ (self_mem_subtrees _)).within tree.span (by simp [partSpans])⟩

theorem operand (h : (unary op tree).Nested) : tree.Nested :=
  h.of_subset (List.subset_cons_self ..)

theorem left (h : (binary op l r).Nested) : l.Nested :=
  h.of_subset (List.Subset.trans (List.subset_append_left ..) (List.subset_cons_self ..))

theorem right (h : (binary op l r).Nested) : r.Nested :=
  h.of_subset (List.Subset.trans (List.subset_append_right ..) (List.subset_cons_self ..))

end Tree.Nested

/-! ## what is reported within a span -/

/-- The faults of a verdict lie within the span. -/
def Verdict.Within (verdict : Verdict) (span : Span) : Prop :=
  ∀ fault ∈ verdict.faults, fault.span.Within span

/-- From one session to the other, nothing is reported but at places within the
span. -/
def Session.ReportsWithin (s s' : Session) (span : Span) : Prop :=
  ∃ ds, s'.diagnostics = s.diagnostics ++ ds ∧
    ∀ d ∈ ds, ∃ place, d.span? = some place ∧ place.Within span

namespace Session

variable {s s₁ s' : Session} {inner outer : Span}

namespace ReportsWithin

theorem nothing (h : s'.diagnostics = s.diagnostics) : s.ReportsWithin s' outer :=
  ⟨[], by simp [h], by simp⟩

theorem mono (h : s.ReportsWithin s' inner) (hwithin : inner.Within outer) :
    s.ReportsWithin s' outer := by
  obtain ⟨ds, hds, hplaces⟩ := h
  refine ⟨ds, hds, fun d hd => ?_⟩
  obtain ⟨place, hplace, hinner⟩ := hplaces d hd
  exact ⟨place, hplace, hinner.trans hwithin⟩

theorem trans (h : s.ReportsWithin s₁ outer) (h' : s₁.ReportsWithin s' outer) :
    s.ReportsWithin s' outer := by
  obtain ⟨ds, hds, hplaces⟩ := h
  obtain ⟨ds', hds', hplaces'⟩ := h'
  refine ⟨ds ++ ds', by rw [hds', hds, List.append_assoc], ?_⟩
  rw [List.forall_mem_append]
  exact ⟨hplaces, hplaces'⟩

/-- A verdict reports its faults, in their places. -/
theorem conclude {verdict : Verdict} (h : s.ReportsWithin s₁ outer)
    (hverdict : verdict.Within outer) : s.ReportsWithin (s₁.conclude verdict).2 outer := by
  refine h.trans ⟨_, (s₁.blames_conclude verdict).diagnostics, fun d hd => ?_⟩
  obtain ⟨fault, hfault, rfl⟩ := List.mem_map.1 hd
  exact ⟨fault.span, rfl, hverdict fault hfault⟩

/-- A scope that is entered or left is no report. -/
theorem moveTo {cx : Context} {event : Event} (h : s.ReportsWithin s₁ outer)
    (hsilent : event.diagnostic? = none) : s.ReportsWithin (s₁.moveTo cx event) outer :=
  h.trans (.nothing (diagnostics_moveTo hsilent))

end ReportsWithin

end Session

/-! ## verdicts -/

section Verdicts

variable {span leftSpan rightSpan outer : Span} {e l r : Elaboration}

theorem Verdict.Within.build {node : Node NodeRef} {ty : Ty} :
    (Verdict.build node ty).Within outer :=
  List.forall_mem_nil _

theorem Verdict.Within.refuse {fault : Fault} (h : fault.span.Within outer) :
    (Verdict.refuse fault []).Within outer :=
  List.forall_mem_singleton.2 h

theorem Verdict.Within.unless {verdict : Verdict} {faults : List Fault}
    (hverdict : verdict.Within outer) (hfaults : ∀ fault ∈ faults, fault.span.Within outer) :
    (verdict.unless faults).Within outer := by
  cases faults with
  | nil => exact hverdict
  | cons first others => exact hfaults

/-- An expression is blamed for its type where it is. -/
theorem Elaboration.span_of_mem_faults {expected : Ty} {fault : Fault}
    (h : fault ∈ e.faults expected span) : fault.span = span := by
  unfold faults at h
  split at h
  · cases h
  · rw [List.mem_singleton.1 h]

theorem Token.verdict_within (token : Token) : token.verdict.Within token.span := by
  exact token.verdict_cases (fun _ => .build) (fun _ => .build) (fun _ => .refuse (.refl _))

theorem PrefixForm.verdict_within (form : PrefixForm) (h : span.Within outer) :
    (form.verdict e span).Within outer :=
  .unless .build fun _ hfault => Elaboration.span_of_mem_faults hfault ▸ h

theorem Context.infixVerdict_within (cx : Context) (op : Token) (form : InfixForm)
    (hl : leftSpan.Within outer) (hr : rightSpan.Within outer) :
    (cx.infixVerdict op l r leftSpan rightSpan form).Within outer := by
  refine cx.infixVerdict_cases op l r leftSpan rightSpan form (fun _ => .build) (fun _ => .build)
    (fun _ => .build) (fun _ => .build) (fun _ _ => .build) (fun span hspan => .refuse ?_)
  rcases hspan with rfl | rfl
  · exact hl.join hr
  · exact hr

theorem InfixForm.span_of_mem_faults {form : InfixForm} {fault : Fault}
    (h : fault ∈ form.faults l r leftSpan rightSpan) :
    fault.span = leftSpan ∨ fault.span = rightSpan :=
  (List.mem_append.1 h).imp Elaboration.span_of_mem_faults Elaboration.span_of_mem_faults

/-- What designates no type is at fault where it is. -/
theorem Context.span_of_designation {cx : Context} {fault : Fault}
    (h : cx.designation e span = .error fault) : fault.span = span := by
  unfold designation at h
  split at h
  · split at h
    · split at h
      · cases h; rfl
      · split at h
        · cases h
        · cases h; rfl
    · cases h; rfl
  · cases h; rfl

theorem Context.span_of_initialOf {cx : Context} {fault : Fault}
    (h : cx.initialOf e span = .error fault) : fault.span = span := by
  unfold initialOf at h
  split at h
  · cases hdesignation : cx.designation e span with
    | error found =>
      rw [hdesignation] at h
      cases h
      exact span_of_designation hdesignation
    | ok ty => simp [hdesignation, Except.map] at h
  · cases h

end Verdicts

/-! ## courses -/

/-- What an expression reports is placed within it. -/
theorem Elaborates.reportsWithin {tree : Tree} {s : Session} {out : Conclusion}
    (h : Elaborates tree s out) (hnested : tree.Nested) : s.ReportsWithin out.2 tree.span := by
  induction h with
  | enclosed _ ih => exact (ih hnested.body.1).mono hnested.body.2
  | named => exact .nothing rfl
  | @unbound token s => exact .conclude (.nothing rfl) (.refuse (.refl _))
  | constant => exact .conclude (.nothing rfl) (Token.verdict_within _)
  | noPrefix => exact .conclude (.nothing rfl) (.refuse (.refl _))
  | operandFailed _ _ ih => exact (ih hnested.operand).mono (Span.within_join_right _ _)
  | prefixed _ _ ih =>
    exact ((ih hnested.operand).mono (Span.within_join_right _ _)).conclude
      (PrefixForm.verdict_within _ (Span.within_join_right _ _))
  | noInfix =>
    exact .conclude (.nothing rfl) (.refuse
      ((Tree.left_within_binary.join Tree.op_within_binary).join Tree.right_within_binary))
  | leftFailed _ _ ih => exact (ih hnested.left).mono Tree.left_within_binary
  | rightFailed _ _ _ ihl ihr =>
    exact ((ihl hnested.left).mono Tree.left_within_binary).trans
      ((ihr hnested.right).mono Tree.right_within_binary)
  | infixed _ _ _ ihl ihr =>
    refine (((ihl hnested.left).mono Tree.left_within_binary).trans
      ((ihr hnested.right).mono Tree.right_within_binary)).conclude (.unless
        (Context.infixVerdict_within _ _ _ Tree.left_within_binary Tree.right_within_binary)
        fun fault hfault => ?_)
    rcases InfixForm.span_of_mem_faults hfault with hspan | hspan <;> rw [hspan]
    · exact Tree.left_within_binary
    · exact Tree.right_within_binary
  | definition => exact .conclude (.nothing rfl) (.refuse (.refl _))
  | noName => exact .conclude (.nothing rfl) (.refuse Tree.left_within_binary)
  | typeFailed _ _ _ ih => exact (ih hnested.right).mono Tree.right_within_binary
  | noType _ _ _ hfault ih =>
    exact ((ih hnested.right).mono Tree.right_within_binary).conclude
      (.refuse (Context.span_of_designation hfault ▸ Tree.right_within_binary))
  | bound _ _ _ _ ih =>
    exact ((ih hnested.right).mono Tree.right_within_binary).trans (.nothing rfl)
  | noBinding => exact .conclude (.nothing rfl) (.refuse Tree.left_within_binary)
  | bindingFailed _ _ _ ih => exact (ih hnested.left).mono Tree.left_within_binary
  | bodyFailed _ _ _ _ _ _ _ ihb ih =>
    exact ((((ihb hnested.left).mono Tree.left_within_binary).moveTo rfl).trans
      ((ih hnested.right).mono Tree.right_within_binary)).moveTo rfl
  | bodyRefused _ _ _ _ _ _ _ _ ihb ih =>
    exact (((((ihb hnested.left).mono Tree.left_within_binary).moveTo rfl).trans
      ((ih hnested.right).mono Tree.right_within_binary)).conclude
        (.refuse Tree.right_within_binary)).moveTo rfl
  | quantified _ _ _ _ _ _ _ _ ihb ih =>
    exact (((((ihb hnested.left).mono Tree.left_within_binary).moveTo rfl).trans
      ((ih hnested.right).mono Tree.right_within_binary)).moveTo rfl).conclude .build

/-- So is what a statement reports. -/
theorem ElaboratesForm.reportsWithin {tree : Tree} {s : Session} {out : Conclusion}
    (h : ElaboratesForm tree s out) (hnested : tree.Nested) : s.ReportsWithin out.2 tree.span := by
  cases h with
  | expression _ _ hcourse | bindingFailed _ _ _ hcourse => exact hcourse.reportsWithin hnested
  | noName => exact .conclude (.nothing rfl) (.refuse Tree.left_within_binary)
  | redeclared _ hname =>
    obtain ⟨rfl, -⟩ := Tree.name?_eq_some_iff.1 hname
    exact .conclude (.nothing rfl) (.refuse Tree.left_within_binary)
  | declared _ _ _ hcourse => exact (hcourse.reportsWithin hnested).trans (.nothing rfl)
  | valueFailed _ _ _ hcourse =>
    exact (hcourse.reportsWithin hnested.right).mono Tree.right_within_binary
  | noInitial _ _ _ hcourse hfault =>
    exact ((hcourse.reportsWithin hnested.right).mono Tree.right_within_binary).conclude
      (.refuse (Context.span_of_initialOf hfault ▸ Tree.right_within_binary))
  | defined _ _ _ hcourse =>
    exact ((hcourse.reportsWithin hnested.right).mono Tree.right_within_binary).trans (.nothing rfl)

/-! ## the whole -/

/-- Spans are exact and nested, and failures are placed in what was read.

* Every part of a tree that was read lies at a stretch of the tokens of its
  source: its span goes from the start of the first to the end of the last, and
  so is a part of the text, of whole characters.  The spans of its tokens and
  children lie in it, one behind the other.
* Whatever is reported of the tree, as a statement in a context that is reached,
  has a place within its span. -/
theorem Tree.ReadFrom.places {tree : Tree} {source : String} (h : tree.ReadFrom source) :
    (∃ ts, tokenize source = .ok ts ∧ ∀ part ∈ tree.subtrees, part.PlacedIn source ts) ∧
    ∀ s : Session, s.context.Reachable → ∃ outcome s' ds,
      elaborateStatement tree s = .ok (outcome, s') ∧ s'.diagnostics = s.diagnostics ++ ds ∧
      ∀ d ∈ ds, ∃ place, d.span? = some place ∧ place.Within tree.span := by
  constructor
  · obtain ⟨ts, htokens, hparts⟩ := h.exists_derivedIn
    exact ⟨ts, htokens, fun part hpart => (hparts part hpart).placedIn htokens⟩
  · intro s hs
    obtain ⟨⟨outcome, s₁⟩, hcourse, -⟩ := exists_course_form tree hs.wellFormed
    obtain ⟨event, hevent⟩ := hcourse.exists_event hs.wellFormed
    have hreports : s.ReportsWithin (s₁.moveTo s₁.context event) tree.span :=
      (hcourse.reportsWithin h.nested).moveTo (Context.diagnostic?_outcomeEvent hevent)
    obtain ⟨ds, hds, hplaces⟩ := hreports
    exact ⟨outcome, _, ds, hcourse.run_statement hs.wellFormed hevent, hds, hplaces⟩

/-- The definition in `let p = not (1)` starts at its name, and what is wrong
with the number, parentheses included, is reported within it. -/
theorem Tree.ReadFrom.places_definition :
    let tree : Tree := .binary ⟨.assign, "=", ⟨6, 7⟩⟩ (.terminal ⟨.identifier, "p", ⟨4, 5⟩⟩)
      (.unary ⟨.kwNot, "not", ⟨8, 11⟩⟩ (.enclosed ⟨.openParen, "(", ⟨12, 13⟩⟩
        (.terminal ⟨.literal, "1", ⟨13, 14⟩⟩) ⟨.closeParen, ")", ⟨14, 15⟩⟩))
    tree.ReadFrom "let p = not (1)" ∧ tree.span = ⟨4, 15⟩ ∧
      (∃ ts us, tokenize "let p = not (1)" = .ok ts ∧ us <:+: ts ∧ tree.LiesAt us) ∧
      ∃ error s' d place, elaborateStatement tree ⟨.initial, #[]⟩ = .ok (.error error, s') ∧
        s'.diagnostics = [d] ∧ d.span? = some place ∧ place.Within ⟨4, 15⟩ := by
  intro tree
  have hread : tree.ReadFrom "let p = not (1)" :=
    .inr ⟨[tree], eq_ok_of_toOption (by decide +kernel), List.mem_cons_self⟩
  obtain ⟨⟨ts, htokens, hparts⟩, hreports⟩ := Tree.ReadFrom.places hread
  obtain ⟨us, hus, hlies⟩ := (hparts tree tree.self_mem_subtrees).tokens
  obtain ⟨outcome, s', ds, hrun, hds, hplaces⟩ := hreports ⟨.initial, #[]⟩ .initial
  have hfails : elaborateStatement tree ⟨.initial, #[]⟩ =
    .ok (.error (.typeMismatch .bool .int), _) := rfl
  obtain ⟨rfl, rfl⟩ := Prod.mk.inj (Except.ok.inj (hrun.symm.trans hfails))
  obtain rfl : _ = ds := hds
  obtain ⟨place, hplace, hwithin⟩ := hplaces _ List.mem_cons_self
  exact ⟨hread, rfl, ⟨ts, us, htokens, hus, hlies⟩, _, _, _, place, hrun, rfl, hplace, hwithin⟩

end ArithLogic
