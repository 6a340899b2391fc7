import ArithLogic.Proofs.Elaboration.Course

/-!
# ArithLogic.Proofs.Elaboration.Upkeep

What elaboration keeps, whether it succeeds or fails: the context stays well
formed, holds what it held, and has the scopes that it had; the expression
that comes out is new, and so are only declarations without a value
(`Elaborates.kept`).
-/

namespace ArithLogic

/-! ## sessions -/

namespace Session

@[simp] theorem context_report (s : Session) (fault : Fault) :
    (s.report fault).context = s.context := rfl

@[simp] theorem context_add (s : Session) (node : Node NodeRef) :
    (s.add node).context = (s.context.add node).2 := rfl

@[simp] theorem context_moveTo (s : Session) (cx : Context) (event : Event) :
    (s.moveTo cx event).context = cx := rfl

@[simp] theorem context_foldl_report (s : Session) (faults : List Fault) :
    (faults.foldl report s).context = s.context := by
  induction faults generalizing s with
  | nil => rfl
  | cons fault faults ih => rw [List.foldl_cons, ih, context_report]

/-- A refusal leaves the context as it is. -/
@[simp] theorem context_refuse (s : Session) (first : Fault) (others : List Fault) :
    (s.conclude (.refuse first others)).2.context = s.context :=
  s.context_foldl_report (first :: others)

end Session

/-- What every conclusion keeps of the session in which it was reached. -/
structure Kept (s : Session) (out : Conclusion) : Prop where
  wellFormed : out.2.context.WellFormed
  within : s.context.Within out.2.context
  scopes : out.2.context.scopes = s.context.scopes
  fresh : ∀ e, out.1 = .ok e → s.context.size ≤ e.expr.index ∧ e.expr.index < out.2.context.size
  declares : ∀ {d decl}, out.2.context.decl? d = some decl →
    s.context.decl? d = some decl ∨ decl.init = none

theorem Kept.trans {s s' : Session} {r : Except ElabError Elaboration} {out : Conclusion}
    (h : Kept s (r, s')) (h' : Kept s' out) : Kept s out where
  wellFormed := h'.wellFormed
  within := h.within.trans h'.within
  scopes := h'.scopes.trans h.scopes
  fresh e he := ⟨Nat.le_trans h.within.size_le (h'.fresh e he).1, (h'.fresh e he).2⟩
  declares hd := (h'.declares hd).elim h.declares .inr

/-- A fault changes nothing but the record. -/
theorem Kept.reported {s s' : Session} {r : Except ElabError Elaboration} (h : Kept s (r, s'))
    (fault : Fault) : Kept s (.error fault.error, s'.report fault) :=
  ⟨h.wellFormed, h.within, h.scopes, by simp, h.declares⟩

/-! ## verdicts -/

/-- What a verdict builds may be built. -/
def Verdict.Fits (cx : Context) : Verdict → Prop
  | build node _ => cx.Accepts node
  | refuse _ _ => True

theorem Verdict.Fits.unless {cx : Context} {verdict : Verdict} (h : verdict.Fits cx)
    (faults : List Fault) : (verdict.unless faults).Fits cx := by
  cases faults with
  | nil => exact h
  | cons => trivial

theorem Kept.conclude {s : Session} {verdict : Verdict} (hw : s.context.WellFormed)
    (h : verdict.Fits s.context) : Kept s (s.conclude verdict) := by
  cases verdict with
  | build node ty =>
    refine ⟨hw.add h, .add .., rfl, ?_, .inl⟩
    rintro e ⟨⟩
    exact ⟨Nat.le_refl _, by simp [Session.conclude]⟩
  | refuse first others =>
    have hcontext := s.context_refuse first others
    refine ⟨?_, ?_, ?_, by simp [Session.conclude], ?_⟩
    · rw [hcontext]; exact hw
    · rw [hcontext]; exact .refl _
    · rw [hcontext]
    · rw [hcontext]; exact .inl

theorem Kept.refuse {s : Session} (hw : s.context.WellFormed) (first : Fault) (others : List Fault) :
    Kept s (s.conclude (.refuse first others)) :=
  .conclude hw trivial

section Fits

variable {cx : Context}

theorem Token.verdict_fits (token : Token) : token.verdict.Fits cx := by
  refine token.verdict_cases (fun _ => ?_) (fun _ => ?_) (fun _ => trivial)
  · exact ⟨by simp [Node.handles, Node.children], trivial, by simp⟩
  · exact ⟨by simp [Node.handles, Node.children], trivial, by simp⟩

theorem PrefixForm.verdict_fits {form : PrefixForm} {e : Elaboration} {span : Span}
    (he : e.expr.index < cx.size) : (form.verdict e span).Fits cx := by
  refine Verdict.Fits.unless ?_ _
  cases form with
  | sign op => exact ⟨by simpa [node, Node.handles, Node.children] using he, trivial, by simp [node]⟩
  | not => exact ⟨by simpa [node, Node.handles, Node.children] using he, trivial, by simp [node]⟩

theorem Context.literal?_of_isLiteral {e : NodeRef} (h : cx.isLiteral e = true) :
    ∃ value, cx.node? e = some (.int value) ∧ cx.literal? e = some value := by
  unfold isLiteral at h
  split at h
  · next value hnode => exact ⟨value, hnode, by simp [literal?, hnode]⟩
  · cases h

/-- A literal and another operand may become a product or a quotient. -/
theorem Context.accepts_scaling {op : Scaling} {factor operand : NodeRef}
    (hfactor : cx.isLiteral factor = true) (ho : operand.index < cx.size) :
    cx.Accepts (.scaling op factor operand) := by
  obtain ⟨value, hnode, hvalue⟩ := literal?_of_isLiteral hfactor
  have hf := index_lt_of_node? hnode
  exact ⟨by simp [Node.handles, Node.children, hf, ho], by simp [Admits, hvalue], by simp⟩

theorem Context.infixVerdict_fits {op : Token} {l r : Elaboration} {leftSpan rightSpan : Span}
    {form : InfixForm} (hl : l.expr.index < cx.size) (hr : r.expr.index < cx.size) :
    (cx.infixVerdict op l r leftSpan rightSpan form).Fits cx := by
  refine cx.infixVerdict_cases op l r leftSpan rightSpan form (fun _ => ?_) (fun _ => ?_)
    (fun _ => ?_) (fun hleft => accepts_scaling hleft hr)
    (fun _ hright => accepts_scaling hright hl) (fun _ _ => trivial)
  all_goals exact ⟨by simp [Node.handles, Node.children, hl, hr], trivial, by simp⟩

end Fits

/-- What designates a type is a reference to a definition, and the value of the
definition is the type. -/
theorem Context.designation_eq_ok {cx : Context} {e : Elaboration} {span : Span} {ty : Ty}
    (h : cx.designation e span = .ok ty) : e.ty = .kind ∧ ∃ name d decl init,
      cx.node? e.expr = some (.var name d) ∧ cx.decl? d = some decl ∧ decl.init = some init ∧
        cx.type? init = some ty := by
  unfold designation at h
  split at h
  · next hkind =>
    split at h
    · next name d hnode =>
      cases hdecl : cx.decl? d with
      | none => simp [hdecl] at h
      | some decl =>
        cases hinit : decl.init with
        | none => simp [hdecl, hinit] at h
        | some init =>
          cases hty : cx.type? init with
          | none => simp [hdecl, hinit, hty] at h
          | some found =>
            simp only [hdecl, Option.bind_some, hinit, hty, Except.ok.injEq] at h
            subst h
            exact ⟨hkind, name, d, decl, init, hnode, hdecl, hinit, hty⟩
    · cases h
  · cases h

/-! ## bindings and scopes -/

theorem Context.accepts_bind {cx : Context} {id : NodeRef} {name : Symbol} (ty : Ty)
    (h : cx.WellFormed) (hid : cx.symbol? id = some name) : cx.Accepts (.bind id ty) := by
  have hrange := index_lt_of_node? (node?_of_symbol? hid)
  exact ⟨by simp [Node.handles, hrange, h.ref_lt ty], by simp [Admits, hid], by simp⟩

/-- The two nodes of a binding. -/
theorem Session.node?_addBinding (s : Session) (text : String) (ty : Ty) :
    (s.addBinding text ty).context.node? ⟨s.context.size + 1⟩ = some (.bind ⟨s.context.size⟩ ty) ∧
      (s.addBinding text ty).context.symbol? ⟨s.context.size⟩ =
        some ⟨s.context.interner.origin, text⟩ := by
  constructor
  · have hself := Context.node?_add_self (s.context.addId text).2 (.bind ⟨s.context.size⟩ ty)
    rwa [Context.size_addId] at hself
  · exact (Context.Within.add ..).symbol? (Context.symbol?_addId s.context text)

theorem Session.within_addBinding (s : Session) (text : String) (ty : Ty) :
    s.context.Within (s.addBinding text ty).context :=
  (Context.Within.addId s.context text).trans (.add ..)

theorem Session.wellFormed_addBinding {s : Session} (hw : s.context.WellFormed) (text : String)
    (ty : Ty) : (s.addBinding text ty).context.WellFormed :=
  have hid := hw.addId text
  hid.add (Context.accepts_bind ty hid (Context.symbol?_addId s.context text))

theorem Kept.addBinding {s : Session} (hw : s.context.WellFormed) (text : String) (ty : Ty) :
    Kept s (.ok ⟨⟨s.context.size + 1⟩, ty⟩, s.addBinding text ty) := by
  refine ⟨s.wellFormed_addBinding hw text ty, s.within_addBinding text ty, rfl, ?_, .inl⟩
  rintro e ⟨⟩
  exact ⟨Nat.le_succ _, Context.index_lt_of_node? (s.node?_addBinding text ty).1⟩

/-- A binding may stand in front of a body. -/
theorem Context.accepts_quantifier {cx : Context} (h : cx.WellFormed) {q : Quantifier}
    {b body id : NodeRef} {ty : Ty} (hb : cx.node? b = some (.bind id ty))
    (hbody : body.index < cx.size) : cx.Accepts (.quantifier q b body) := by
  have hid : cx.symbol? id ≠ none := h.admits b _ hb
  obtain ⟨name, hname⟩ := Option.ne_none_iff_exists'.1 hid
  refine ⟨?_, ?_, by simp⟩
  · simp [Node.handles, Node.children, hbody, index_lt_of_node? hb]
  · simp [Admits, binding?, hb, hname]

/-- The scope of a quantifier's body, from before it is entered until after it
is left. -/
theorem Kept.inScope {s s₂ : Session} {b : Elaboration} {id : NodeRef} {d : DeclRef}
    {inner outer : Context} {event event' : Event} {r : Except ElabError Elaboration}
    (hdeclare : s.context.enterScope.declareId id b.ty none = .ok (d, inner))
    (hbody : Kept (s.moveTo inner event) (r, s₂)) (hleave : s₂.context.leaveScope = .ok outer) :
    Kept s (r, s₂.moveTo outer event') := by
  have hinner : s.context.Within inner :=
    (Context.Within.enterScope _).trans (.declareId hdeclare)
  have hout := Context.Within.leaveScope hleave
  have hdeclares : ∀ {d' decl}, outer.decl? d' = some decl →
      s.context.decl? d' = some decl ∨ decl.init = none := by
    intro d' decl hfound
    have hfound : s₂.context.decl? d' = some decl := by
      rw [Context.decl?, ← Context.decls_of_leaveScope hleave]
      exact hfound
    rcases hbody.declares hfound with hold | hnone
    · rcases Context.decl?_of_declareId_cases hdeclare hold with ⟨-, rfl⟩ | hold
      · exact .inr rfl
      · exact .inl hold
    · exact .inr hnone
  obtain ⟨name, scopes, -, hinsert, -, rfl⟩ := Context.declareId_eq_ok_iff.1 hdeclare
  obtain ⟨env, around, hcons, -, rfl⟩ := ScopeStack.insert_eq_ok_iff.1 hinsert
  obtain ⟨env', next, around', hcons', rfl⟩ := Context.leaveScope_eq_ok_iff.1 hleave
  cases hcons
  have hscopes := hbody.scopes
  simp only [Session.context_moveTo] at hscopes
  rw [hscopes] at hcons'
  have haround : s.context.scopes.environments = next :: around' := (List.cons.inj hcons').2
  have hback : (⟨next :: around'⟩ : ScopeStack) = s.context.scopes := by rw [← haround]
  refine ⟨hbody.wellFormed.leaveScope hleave, (hinner.trans hbody.within).trans hout, hback, ?_,
    hdeclares⟩
  intro e he
  obtain ⟨hlow, hhigh⟩ := hbody.fresh e he
  exact ⟨Nat.le_trans hinner.size_le hlow, hhigh⟩

/-! ## the whole course -/

/-- Elaboration keeps the context well formed, what it holds and its scopes. -/
theorem Elaborates.kept {tree : Tree} {s : Session} {out : Conclusion}
    (h : Elaborates tree s out) (hw : s.context.WellFormed) : Kept s out := by
  induction h with
  | enclosed _ ih => exact ih hw
  | @named token s d decl name _ _ _ hname =>
    exact .conclude hw ⟨by simp [Node.handles, Node.children], hname, by simp⟩
  | unbound => exact .conclude hw trivial
  | constant => exact .conclude hw (Token.verdict_fits _)
  | noPrefix => exact .conclude hw trivial
  | operandFailed _ _ ih => exact ih hw
  | prefixed _ _ ih =>
    have hoperand := ih hw
    exact hoperand.trans (.conclude hoperand.wellFormed
      (PrefixForm.verdict_fits (hoperand.fresh _ rfl).2))
  | noInfix => exact .conclude hw trivial
  | leftFailed _ _ ih => exact ih hw
  | rightFailed _ _ _ ihl ihr =>
    have hl := ihl hw
    exact hl.trans (ihr hl.wellFormed)
  | infixed _ _ _ ihl ihr =>
    have hl := ihl hw
    have hr := ihr hl.wellFormed
    have hleft := hr.within.index_lt (hl.fresh _ rfl).2
    exact (hl.trans hr).trans (.conclude hr.wellFormed
      (.unless (Context.infixVerdict_fits hleft (hr.fresh _ rfl).2) _))
  | definition => exact .conclude hw trivial
  | noName => exact .conclude hw trivial
  | typeFailed _ _ _ ih => exact ih hw
  | noType _ _ _ _ ih =>
    have htype := ih hw
    exact htype.trans (.conclude htype.wellFormed trivial)
  | bound _ _ _ _ ih =>
    have htype := ih hw
    exact htype.trans (.addBinding htype.wellFormed ..)
  | noBinding => exact .conclude hw trivial
  | bindingFailed _ _ _ ih => exact ih hw
  | bodyFailed _ _ _ hnode hdeclare _ hleave ihb ih =>
    have hb := ihb hw
    have hinner := hb.wellFormed.enterScope.declareVar hdeclare
    exact hb.trans (.inScope hdeclare (ih hinner) hleave)
  | bodyRefused _ _ _ hnode hdeclare _ hleave _ ihb ih =>
    have hb := ihb hw
    have hinner := hb.wellFormed.enterScope.declareVar hdeclare
    exact hb.trans (.inScope hdeclare ((ih hinner).reported ⟨_, _⟩) hleave)
  | @quantified op left right s s₁ s₂ q b e id d inner outer _ _ _ hnode hdeclare _ hleave _ ihb ih =>
    have hb := ihb hw
    have hinner := hb.wellFormed.enterScope.declareVar hdeclare
    have hbody : Kept s₁ (.ok e, s₂.moveTo outer (.scopeLeft outer.depth)) :=
      .inScope hdeclare (ih hinner) hleave
    exact (hb.trans hbody).trans (.conclude hbody.wellFormed
      (Context.accepts_quantifier hbody.wellFormed (hbody.within.node hnode) (hbody.fresh _ rfl).2))

/-! ## diagnostics -/

/-- The diagnostics that were reported in the session. -/
def Session.diagnostics (s : Session) : List Diagnostic := diagnosticsOf s.events.toList

/-- Scopes are recorded, but not reported. -/
theorem Session.diagnostics_moveTo {s : Session} {cx : Context} {event : Event}
    (h : event.diagnostic? = none) : (s.moveTo cx event).diagnostics = s.diagnostics := by
  simp [diagnostics, moveTo, diagnosticsOf, h]

/-- A verdict that succeeds reports nothing. -/
theorem Session.diagnostics_conclude {s : Session} {verdict : Verdict} {e : Elaboration}
    (h : (s.conclude verdict).1 = .ok e) : (s.conclude verdict).2.diagnostics = s.diagnostics := by
  cases verdict with
  | build => rfl
  | refuse => cases h

/-- An elaboration that succeeds reports nothing. -/
theorem Elaborates.diagnostics {tree : Tree} {s : Session} {out : Conclusion}
    (h : Elaborates tree s out) {e : Elaboration} (he : out.1 = .ok e) :
    out.2.diagnostics = s.diagnostics := by
  induction h generalizing e with
  | enclosed _ ih => exact ih he
  | named | constant => exact Session.diagnostics_conclude he
  | prefixed _ _ ih => exact (Session.diagnostics_conclude he).trans (ih rfl)
  | infixed _ _ _ ihl ihr => exact (Session.diagnostics_conclude he).trans ((ihr rfl).trans (ihl rfl))
  | bound _ _ _ _ ih => exact ih rfl
  | quantified _ _ _ _ _ _ _ _ ihb ih =>
    have hbody := (ih rfl).trans (Session.diagnostics_moveTo rfl)
    exact (Session.diagnostics_conclude he).trans
      ((Session.diagnostics_moveTo rfl).trans (hbody.trans (ihb rfl)))
  | _ => cases he

end ArithLogic
