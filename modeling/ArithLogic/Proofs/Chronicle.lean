import ArithLogic.Proofs.Context.Lexical
import ArithLogic.Proofs.Elaboration.Ownership
import ArithLogic.Proofs.History

/-!
# ArithLogic.Proofs.Chronicle

Sessions with a record of what each statement meant, and in which context it
was elaborated.  Wherever the analysis goes from there, variables keep to the
rule of lexical scoping: each refers to what the innermost quantifier around it
binds, or else to what its name meant at the top when its statement was
elaborated, and still means; and what a quantifier declares occurs in its body
only, not in what other statements meant (`Chronicle.lexically_scoped`).
-/

namespace ArithLogic

/-- What a statement meant, and the context in which it was elaborated. -/
structure Finding where
  before : Context
  result : Elaboration

/-- A session that was reached by elaborating statements that were read and
bringing expressions into normal form; with what the statements meant, and
normal forms of that, under either polarity. -/
inductive Chronicle : Session → List Finding → List NodeRef → Prop
  | start {events : Array Event} : Chronicle ⟨.initial, events⟩ [] []
  | statement {s s' : Session} {findings : List Finding} {forms : List NodeRef} {source : String}
      {trees : List Tree} {tree : Tree} {r : Except ElabError Elaboration} :
      Chronicle s findings forms → parseProgram source = .ok trees → tree ∈ trees →
      elaborateStatement tree s = .ok (r, s') →
      Chronicle s' (findings ++ r.toOption.toList.map (Finding.mk s.context)) forms
  | record {s : Session} {findings : List Finding} {forms : List NodeRef} {event : Event} :
      Chronicle s findings forms → Chronicle (s.moveTo s.context event) findings forms
  | normalForm {s s' : Session} {findings : List Finding} {forms : List NodeRef} {f : Finding}
      {e' : NodeRef} {negated : Bool} :
      Chronicle s findings forms → f ∈ findings →
      Action.normalize f.result.expr negated s = .ok (e', s') →
      Chronicle s' findings (forms ++ [e'])
  /-- Any part of an expression is brought into normal form. -/
  | normalize {s s' : Session} {findings : List Finding} {forms : List NodeRef} {e e' : NodeRef}
      {negated : Bool} :
      Chronicle s findings forms → e.index < s.context.size →
      Action.normalize e negated s = .ok (e', s') → Chronicle s' findings forms

/-! ## programs -/

/-- Some of the statements that were read are elaborated, one by one. -/
theorem Chronicle.statements {s s' : Session} {findings : List Finding} {forms : List NodeRef}
    {source : String} {trees some : List Tree} {outcomes : List (Except ElabError Elaboration)}
    (h : Chronicle s findings forms) (hparse : parseProgram source = .ok trees)
    (hsome : ∀ tree ∈ some, tree ∈ trees)
    (hrun : (some.mapM elaborateStatement : Action _) s = .ok (outcomes, s')) :
    ∃ more, Chronicle s' (findings ++ more) forms ∧
      more.map Finding.result = outcomes.filterMap Except.toOption := by
  induction some generalizing s findings outcomes with
  | nil =>
    simp only [List.mapM_nil, Action.run_pure] at hrun
    cases hrun
    exact ⟨[], by simpa using h, rfl⟩
  | cons tree rest ih =>
    rw [List.forall_mem_cons] at hsome
    simp only [List.mapM_cons, Action.run_bind] at hrun
    cases hfirst : elaborateStatement tree s with
    | error breach => simp [hfirst] at hrun
    | ok result =>
      obtain ⟨r, s₁⟩ := result
      simp only [hfirst] at hrun
      cases hrest : (rest.mapM elaborateStatement : Action _) s₁ with
      | error breach => simp [hrest] at hrun
      | ok results =>
        obtain ⟨rs, s₂⟩ := results
        simp only [hrest, Action.run_pure] at hrun
        cases hrun
        obtain ⟨more, hmore, hresults⟩ :=
          ih (h.statement hparse hsome.1 hfirst) hsome.2 hrest
        refine ⟨r.toOption.toList.map (Finding.mk s.context) ++ more, ?_, ?_⟩
        · rw [← List.append_assoc]
          exact hmore
        · rw [List.map_append, hresults]
          cases r <;> rfl

/-- To elaborate a program is to elaborate its statements and to record it. -/
theorem Chronicle.program {s s' : Session} {findings : List Finding} {forms : List NodeRef}
    {source : String} {trees : List Tree} {outcomes : List (Except ElabError Elaboration)}
    (h : Chronicle s findings forms) (hparse : parseProgram source = .ok trees)
    (hrun : elaborateProgram trees s = .ok (outcomes, s')) :
    ∃ more, Chronicle s' (findings ++ more) forms ∧
      more.map Finding.result = outcomes.filterMap Except.toOption := by
  rw [elaborateProgram, Action.run_bind] at hrun
  cases hall : (trees.mapM elaborateStatement : Action _) s with
  | error breach => simp [hall] at hrun
  | ok results =>
    obtain ⟨rs, s₁⟩ := results
    simp only [hall, Action.run_bind, Action.run_record, Action.run_pure] at hrun
    cases hrun
    obtain ⟨more, hmore, hresults⟩ := h.statements hparse (fun _ => id) hall
    exact ⟨more, hmore.record, hresults⟩

/-- The chronicle of a program whose results and context are known. -/
theorem Chronicle.exists_of_program {source : String} {trees : List Tree}
    (results : List Elaboration) (known : Context → Bool)
    (hparse : (parseProgram source).toOption = some trees)
    (hrun : (elaborateProgram trees ⟨.initial, #[]⟩).toOption.map (fun out =>
      (out.1.filterMap Except.toOption, known out.2.context)) = some (results, true)) :
    ∃ s findings, Chronicle s findings [] ∧ findings.map Finding.result = results ∧
      known s.context = true := by
  obtain ⟨⟨outcomes, s⟩, hout, heq⟩ := Option.map_eq_some_iff.1 hrun
  obtain ⟨hresults, hknown⟩ := Prod.mk.inj heq
  obtain ⟨findings, hchronicle, hfindings⟩ :=
    Chronicle.start.program (eq_ok_of_toOption hparse) (eq_ok_of_toOption hout)
  exact ⟨s, findings, hchronicle, hfindings.trans hresults, hknown⟩

/-! ## what is kept of a finding -/

section Findings

variable {cx later : Context} {f : Finding}

/-- A finding as every later context holds it: its variables are scoped lexically
under the names of the context in which it was elaborated, and its nodes, from
the first one that was appended then, belong to it alone. -/
structure Finding.Held (f : Finding) (cx : Context) : Prop where
  within : f.before.Within cx
  keeps : f.before.Keeps cx
  depth : f.before.depth = 1
  lexical : cx.Lexical f.before.scopes.find? f.result.expr
  forest : cx.Forest f.before.size (f.result.expr.index + 1)
  lower : f.before.size ≤ f.result.expr.index

theorem Finding.Held.mono (h : f.Held cx) (hwithin : cx.Within later) (hkeeps : cx.Keeps later) :
    f.Held later where
  within := h.within.trans hwithin
  keeps name d hd := hkeeps name d (h.keeps name d hd)
  depth := h.depth
  lexical := h.lexical.within hwithin
  forest := h.forest.mono hwithin (Nat.le_refl _) h.lexical.index_lt
  lower := h.lower

/-- What occurs in a finding is of the nodes that were appended for it. -/
theorem Finding.Held.occurs (h : f.Held cx) (hw : cx.WellFormed) {qs : List NodeRef} {v : NodeRef}
    (ho : cx.Occurs f.result.expr qs v) :
    f.before.size ≤ v.index ∧ v.index < f.result.expr.index + 1 := by
  have hchild : ∀ {p c : NodeRef}, f.before.size ≤ p.index ∧ p.index < f.result.expr.index + 1 →
      cx.HasChild p c → f.before.size ≤ c.index ∧ c.index < f.result.expr.index + 1 :=
    fun ⟨hlo, hhi⟩ hc => ⟨h.forest.inner _ _ hlo hhi hc, Nat.lt_trans (hw.index_lt_of_hasChild hc) hhi⟩
  induction ho with
  | root => exact ⟨h.lower, Nat.lt_succ_self _⟩
  | child _ hnode hc _ ih => exact hchild ih ⟨_, hnode, hc⟩
  | body _ hnode ih => exact hchild ih ⟨_, hnode, List.mem_cons_of_mem _ List.mem_cons_self⟩

/-- What a statement that was read means is scoped lexically, under the names as
they were before. -/
theorem ElaboratesForm.lexical {tree : Tree} {s : Session} {out : Conclusion}
    (h : ElaboratesForm tree s out) (hshape : tree.IsStatement) (hw : s.context.WellFormed)
    (hkind : s.context.NoKind) {e : Elaboration} (he : out.1 = .ok e) :
    out.2.context.Lexical s.context.scopes.find? e.expr := by
  cases h with
  | expression hbinding hdefinition hcourse =>
    cases hshape with
    | expression hexpr => exact (hcourse.scoped hexpr hw hkind he).lexical
    | declaration hcolon => exact absurd hcolon hbinding
    | definition hassign => exact absurd hassign hdefinition
  | declared _ _ _ hcourse hnode hdeclare =>
    cases he
    have hadmits := (hcourse.kept hw).wellFormed.admits _ _ hnode
    obtain ⟨name, hid⟩ := Option.ne_none_iff_exists'.1 hadmits
    exact (Context.lexical_of_bind hnode hid).within (.declareId hdeclare)
  | defined hop _ _ hcourse _ hdeclare =>
    cases he
    have hscoped := hcourse.scoped (hshape.value hop) hw hkind rfl
    exact hscoped.lexical.within ((Context.Within.addId ..).trans (.declareId hdeclare))
  | _ => cases he

end Findings

/-! ## bindings and normal form -/

section Bindings

variable {cx later last : Context} {e e' old : NodeRef} {node : Node NodeRef} {negated : Bool}

/-- Every quantifier of the later context is over a binding that some quantifier
of the earlier one is over. -/
def Context.OldBindings (cx later : Context) : Prop :=
  ∀ q op b body, later.node? q = some (.quantifier op b body) →
    ∃ q' op' body', cx.node? q' = some (.quantifier op' b body')

namespace Context.OldBindings

theorem refl (cx : Context) : cx.OldBindings cx := fun q op _ body hq => ⟨q, op, body, hq⟩

theorem trans (h : cx.OldBindings later) (h' : later.OldBindings last) : cx.OldBindings last := by
  intro q op b body hq
  obtain ⟨q', op', body', hq'⟩ := h' q op b body hq
  exact h q' op' b body' hq'

/-- A node that is appended is no quantifier, or is over an old binding. -/
theorem add (h : ∀ op b body, node = .quantifier op b body →
    ∃ q' op' body', cx.node? q' = some (.quantifier op' b body')) :
    cx.OldBindings (cx.add node).2 := by
  intro q op b body hq
  rw [node?_add] at hq
  split at hq
  · exact h op b body (Option.some.inj hq)
  · exact ⟨q, op, body, hq⟩

theorem addOther (hnode : ∀ op b body, node ≠ .quantifier op b body) :
    cx.OldBindings (cx.add node).2 :=
  add fun op b body heq => absurd heq (hnode op b body)

theorem addConnective (cx : Context) (op : Connective) (a b : NodeRef) :
    cx.OldBindings (cx.add (.connective op a b)).2 :=
  addOther (by simp)

theorem settles (h : Settles cx old node e' last)
    (hnode : ∀ op b body, node ≠ .quantifier op b body) : cx.OldBindings last := by
  cases h with
  | reused => exact .refl cx
  | added => exact .addOther hnode

end Context.OldBindings

/-- Normal form builds quantifiers over old bindings alone. -/
theorem Normalizes.oldBindings (h : Normalizes cx e negated e' last) : cx.OldBindings last := by
  induction h with
  | kept => exact .refl _
  | truth | name => exact .addOther (by simp)
  | additive _ _ _ hsettles iha ihb | relation _ _ _ hsettles iha ihb
  | junction _ _ _ _ hsettles iha ihb => exact (iha.trans ihb).trans (.settles hsettles (by simp))
  | scaling _ _ hsettles ih | sign _ _ hsettles ih => exact ih.trans (.settles hsettles (by simp))
  | implication _ _ _ iha ihb => exact (iha.trans ihb).trans (.addOther (by simp))
  | equivalence _ _ _ _ _ ihpa ihna ihpb ihnb | difference _ _ _ _ _ ihpa ihna ihpb ihnb =>
    have hparts := ((ihpa.trans ihna).trans ihpb).trans ihnb
    exact ((hparts.trans (.addConnective _ _ _ _)).trans (.addConnective _ _ _ _)).trans
      (.addConnective _ _ _ _)
  | not _ _ ih => exact ih
  | quantifier hnode _ hsettles ih =>
    cases hsettles with
    | reused => exact ih
    | added =>
      intro q op b body hq
      rw [Context.node?_add] at hq
      split at hq
      · cases hq
        exact ⟨_, _, _, hnode⟩
      · exact ih q op b body hq

/-- Normal form leaves names free of quantifiers. -/
theorem Normalizes.freeNames (h : Normalizes cx e negated e' last) (hw : cx.WellFormed)
    (hfree : cx.FreeNames) : last.FreeNames := by
  have hgrows := (h.grows hw).1
  intro name d decl hd hdecl q op b body ty hq hb
  rw [hgrows.scopes] at hd
  rw [hgrows.decl?] at hdecl
  obtain ⟨q', op', body', hq'⟩ := h.oldBindings q op b body hq
  have hlt := Nat.lt_trans (hw.children_older hq' b List.mem_cons_self)
    (Context.index_lt_of_node? hq')
  rw [hgrows.within.node?_eq hlt] at hb
  exact hfree name d decl hd hdecl q' op' b body' ty hq' hb

end Bindings

/-! ## what is true of every chronicle -/

theorem Settled.forget {cx : Context} {results : List Elaboration} (h : Settled cx results) :
    Settled cx [] :=
  { h with results := fun _ he => nomatch he }

/-- What is true of the context that a chronicle leads to. -/
structure Recorded (cx : Context) (findings : List Finding) (forms : List NodeRef) : Prop where
  settled : Settled cx []
  distinct : cx.DistinctNames
  free : cx.FreeNames
  held : ∀ f ∈ findings, f.Held cx
  /-- No two findings have a node in common. -/
  apart : ∀ f ∈ findings, ∀ f' ∈ findings, f = f' ∨
    f.result.expr.index < f'.before.size ∨ f'.result.expr.index < f.before.size
  forms : ∀ e ∈ forms, cx.Lexical cx.scopes.find? e

namespace Recorded

variable {s : Session} {cx later : Context} {findings : List Finding} {forms : List NodeRef}

theorem initial : Recorded .initial [] [] where
  settled := .initial
  distinct := Context.distinctNames_initial
  free := Context.freeNames_initial
  held _ hf := nomatch hf
  apart _ hf := nomatch hf
  forms _ he := nomatch he

/-- A statement adds what it means to the findings. -/
theorem statement {tree : Tree} {s₁ : Session} {r : Except ElabError Elaboration}
    (h : Recorded s.context findings forms) (hcourse : ElaboratesForm tree s (r, s₁))
    (hshape : tree.IsStatement) :
    Recorded s₁.context (findings ++ r.toOption.toList.map (Finding.mk s.context)) forms := by
  have hw := h.settled.wellFormed
  have hkept := hcourse.kept hw
  have hsprouts := hcourse.sprouts hw
  have hkeeps := (hcourse.settledForm hshape hw h.settled.within h.settled.depth h.settled.noKind).keeps
  have hnew : ∀ f ∈ r.toOption.toList.map (Finding.mk s.context),
      f.Held s₁.context ∧ f.before = s.context := by
    intro f hf
    cases r with
    | error error => simp [Except.toOption] at hf
    | ok e =>
      obtain rfl : f = ⟨s.context, e⟩ := by simpa [Except.toOption] using hf
      have hroot := hsprouts.root e rfl
      exact ⟨⟨hkept.within, hkeeps, h.settled.depth,
        hcourse.lexical hshape hw h.settled.noKind rfl,
        hsprouts.forest.mono (.refl _) hroot.upper (Nat.le_refl _), hroot.lower⟩, rfl⟩
  have hold : ∀ f ∈ findings, f.result.expr.index < s.context.size := fun f hf =>
    (h.held f hf).lexical.index_lt
  refine ⟨(h.settled.form hcourse hshape).forget, hcourse.distinctNames hw h.distinct,
    hcourse.freeNames hw h.free, fun f hf => ?_, fun f hf f' hf' => ?_, fun e he => ?_⟩
  · rcases List.mem_append.1 hf with hf | hf
    · exact (h.held f hf).mono hkept.within hkeeps
    · exact (hnew f hf).1
  · rcases List.mem_append.1 hf with hf | hf <;> rcases List.mem_append.1 hf' with hf' | hf'
    · exact h.apart f hf f' hf'
    · rw [(hnew f' hf').2]
      exact .inr (.inl (hold f hf))
    · rw [(hnew f hf).2]
      exact .inr (.inr (hold f' hf'))
    · obtain ⟨e, he, rfl⟩ := List.mem_map.1 hf
      obtain ⟨e', he', rfl⟩ := List.mem_map.1 hf'
      rw [Option.mem_toList] at he he'
      exact .inl (by rw [Option.some.inj (he.symm.trans he')])
  · exact (h.forms e he).mono hkept.within hkeeps

/-- To bring an expression into normal form changes nothing of what is recorded. -/
theorem normalize {e e' : NodeRef} {negated : Bool} (h : Recorded cx findings forms)
    (hcourse : Normalizes cx e negated e' later) : Recorded later findings forms := by
  have hw := h.settled.wellFormed
  have hgrows := (hcourse.grows hw).1
  have hkeeps : cx.Keeps later := fun name d hd => by rwa [hgrows.scopes]
  exact ⟨h.settled.grows hgrows, h.distinct.of_decls hgrows.decls, hcourse.freeNames hw h.free,
    fun f hf => (h.held f hf).mono hgrows.within hkeeps, h.apart,
    fun e he => (h.forms e he).mono hgrows.within hkeeps⟩

/-- The normal form of a finding is recorded. -/
theorem normalForm {f : Finding} {e' : NodeRef} {negated : Bool} (h : Recorded cx findings forms)
    (hf : f ∈ findings) (hcourse : Normalizes cx f.result.expr negated e' later) :
    Recorded later findings (forms ++ [e']) := by
  have hgrown := h.normalize hcourse
  refine { hgrown with forms := fun e he => ?_ }
  rcases List.mem_append.1 he with he | he
  · exact hgrown.forms e he
  · rw [List.mem_singleton.1 he]
    exact (hcourse.lexical h.settled.wellFormed (h.held f hf).lexical).mono (.refl _)
      (hgrown.held f hf).keeps

end Recorded

/-- A chronicle records what is true. -/
theorem Chronicle.recorded {s : Session} {findings : List Finding} {forms : List NodeRef}
    (h : Chronicle s findings forms) : Recorded s.context findings forms := by
  induction h with
  | start => exact .initial
  | statement _ hparse htree hrun ih =>
    obtain ⟨s₁, hcourse, hsame⟩ := course_of_run_elaborateStatement ih.settled.wellFormed hrun
    rw [hsame]
    exact ih.statement hcourse (isStatement_of_parseProgram hparse _ htree)
  | record _ ih => exact ih
  | normalForm _ hf hrun ih =>
    exact ih.normalForm hf (Context.normalizes_of_run ih.settled.wellFormed
      (ih.held _ hf).lexical.index_lt hrun)
  | normalize _ he hrun ih =>
    exact ih.normalize (Context.normalizes_of_run ih.settled.wellFormed he hrun)

namespace Recorded

variable {cx : Context} {findings : List Finding} {forms : List NodeRef}

/-- A variable in a finding refers to what lexical scoping says, by what names
meant before and by what they mean now. -/
theorem resolves (h : Recorded cx findings forms) {f : Finding} (hf : f ∈ findings)
    {qs : List NodeRef} {v : NodeRef} {name : Symbol} {d : DeclRef}
    (ho : cx.Occurs f.result.expr qs v) (hv : cx.node? v = some (.var name d)) :
    cx.Resolves f.before.top? qs name d ∧ cx.Resolves cx.top? qs name d := by
  have hheld := h.held f hf
  rw [Context.top?_eq_find? hheld.depth, Context.top?_eq_find? h.settled.depth]
  exact ⟨hheld.lexical.resolves ho hv, (hheld.lexical.mono (.refl _) hheld.keeps).resolves ho hv⟩

/-- What a quantifier of one finding declares occurs in its body, and in no other
place of any finding. -/
theorem encloses (h : Recorded cx findings forms) {f f' : Finding} (hf : f ∈ findings)
    (hf' : f' ∈ findings) {qs qs' : List NodeRef} {q id v : NodeRef} {bound name : Symbol} {ty : Ty}
    {d : DeclRef} {decl : Decl} (hq : cx.Occurs f.result.expr qs q)
    (hquantifies : cx.Quantifies q bound id ty) (ho : cx.Occurs f'.result.expr qs' v)
    (hv : cx.node? v = some (.var name d)) (hd : cx.decl? d = some decl) (hid : decl.name = id) :
    q ∈ qs' := by
  have hw := h.settled.wellFormed
  obtain ⟨op, b, body, hnode, hb, -⟩ := hquantifies
  have hqb : cx.HasChild q b := ⟨_, hnode, List.mem_cons_self⟩
  have hbid : cx.HasChild b id := ⟨_, hb, List.mem_cons_self⟩
  rcases (h.resolves hf' ho hv).2 with ⟨inner, q', outer, id', ty', rfl, hq', -, hd'⟩ | ⟨-, htop⟩
  · -- both bind the same node, which belongs to one finding and has one parent there
    obtain ⟨op', b', body', hnode', hb', -⟩ := hq'
    cases hd'.symm.trans hd
    obtain rfl : id' = id := hid
    have hqb' : cx.HasChild q' b' := ⟨_, hnode', List.mem_cons_self⟩
    have hbid' : cx.HasChild b' id' := ⟨_, hb', List.mem_cons_self⟩
    obtain ⟨qs₀, hoq'⟩ := ho.exists_of_mem (q := q') (by simp)
    have hrange : ∀ {g : Finding} {qs p c}, g ∈ findings → cx.Occurs g.result.expr qs p →
        ∀ {i}, cx.HasChild p c → cx.HasChild c i →
        (g.before.size ≤ p.index ∧ p.index < g.result.expr.index + 1) ∧
          (g.before.size ≤ c.index ∧ c.index < g.result.expr.index + 1) ∧
          (g.before.size ≤ i.index ∧ i.index < g.result.expr.index + 1) := by
      intro g qs p c hg hop i hpc hci
      have hheld := h.held g hg
      obtain ⟨hlo, hhi⟩ := hheld.occurs hw hop
      have hlt := hw.index_lt_of_hasChild hpc
      have hlt' := hw.index_lt_of_hasChild hci
      have hlo' := hheld.forest.inner p c hlo hhi hpc
      have hlo'' := hheld.forest.inner c i hlo' (by omega) hci
      omega
    obtain ⟨hrq, hrb, hri⟩ := hrange hf hq hqb hbid
    obtain ⟨hrq', hrb', hri'⟩ := hrange hf' hoq' hqb' hbid'
    obtain rfl : f = f' := by
      rcases h.apart f hf f' hf' with heq | hlt | hlt
      · exact heq
      · omega
      · omega
    have hforest := (h.held f hf).forest
    obtain rfl := hforest.single b b' id' hrb.1 hrb.2 hrb'.1 hrb'.2 hbid hbid'
    obtain rfl := hforest.single q q' b hrq.1 hrq.2 hrq'.1 hrq'.2 hqb hqb'
    simp
  · -- what is declared at the top belongs to no quantifier
    rw [Context.top?_eq_find? h.settled.depth] at htop
    subst hid
    exact absurd hb (h.free name d decl htop hd q op b body ty hnode)

end Recorded

/-! ## lexical scoping -/

/-- Name resolution is lexical and never escapes.  In every session that is
reached by elaborating statements that were read and bringing expressions into
normal form:

* every variable in what a statement meant refers to what the innermost
  quantifier around it that binds its name declares, and if there is none to
  what the name meant at the top when the statement was elaborated, and means
  there now;
* a declaration is known by the node of its name;
* what a quantifier declares occurs in its body alone, in whatever any statement
  meant;
* what a statement meant can be brought into normal form under either polarity,
  and the rule of resolution holds of the result;
* and it still holds of all normal forms that were made before. -/
theorem Chronicle.lexically_scoped {s : Session} {findings : List Finding} {forms : List NodeRef}
    (h : Chronicle s findings forms) :
    (∀ f ∈ findings, ∀ qs v name d, s.context.Occurs f.result.expr qs v →
      s.context.node? v = some (.var name d) →
      s.context.Resolves f.before.top? qs name d ∧ s.context.Resolves s.context.top? qs name d) ∧
    (∀ d d' decl decl', s.context.decl? d = some decl → s.context.decl? d' = some decl' →
      decl.name = decl'.name → d = d') ∧
    (∀ f ∈ findings, ∀ f' ∈ findings, ∀ qs q bound id ty qs' v name d decl,
      s.context.Occurs f.result.expr qs q → s.context.Quantifies q bound id ty →
      s.context.Occurs f'.result.expr qs' v → s.context.node? v = some (.var name d) →
      s.context.decl? d = some decl → decl.name = id → q ∈ qs') ∧
    (∀ f ∈ findings, ∀ negated, ∃ e' s',
      Action.normalize f.result.expr negated s = .ok (e', s') ∧
      ∀ qs v name d, s'.context.Occurs e' qs v → s'.context.node? v = some (.var name d) →
        s'.context.Resolves f.before.top? qs name d ∧
          s'.context.Resolves s'.context.top? qs name d) ∧
    ∀ e ∈ forms, ∀ qs v name d, s.context.Occurs e qs v →
      s.context.node? v = some (.var name d) → s.context.Resolves s.context.top? qs name d := by
  have hrecorded := h.recorded
  have hw := hrecorded.settled.wellFormed
  refine ⟨fun f hf qs v name d => hrecorded.resolves hf, hrecorded.distinct,
    fun f hf f' hf' qs q bound id ty qs' v name d decl => hrecorded.encloses hf hf', ?_, ?_⟩
  · intro f hf negated
    have hheld := hrecorded.held f hf
    obtain ⟨e', s', hrun, hcourse⟩ := follows_normalize hw hheld.lexical.index_lt negated
    have hafter := hrecorded.normalForm hf hcourse
    have hlexical := hcourse.lexical hw hheld.lexical
    refine ⟨e', s', hrun, fun qs v name d ho hv => ?_⟩
    rw [Context.top?_eq_find? hheld.depth, Context.top?_eq_find? hafter.settled.depth]
    exact ⟨hlexical.resolves ho hv, (hafter.forms e' (by simp)).resolves ho hv⟩
  · intro e he qs v name d ho hv
    rw [Context.top?_eq_find? hrecorded.settled.depth]
    exact (hrecorded.forms e he).resolves ho hv

/-- In `forall bool : int . bool < 1` the second `bool` is the bound one, which is
a number. -/
theorem Chronicle.lexically_scoped_forall : ∃ s f, Chronicle s [f] [] ∧
    s.context.Occurs f.result.expr [⟨11⟩] ⟨8⟩ ∧
    s.context.node? ⟨8⟩ = some (.var ⟨0, "bool"⟩ ⟨2⟩) ∧
    s.context.Resolves s.context.top? [⟨11⟩] ⟨0, "bool"⟩ ⟨2⟩ := by
  have hparse : (parseProgram "forall bool : int . bool < 1").toOption = some
      [.binary ⟨.kwForall, "forall", ⟨0, 6⟩⟩
        (.binary ⟨.colon, ":", ⟨12, 13⟩⟩ (.terminal ⟨.kwBool, "bool", ⟨7, 11⟩⟩)
          (.terminal ⟨.kwInt, "int", ⟨14, 17⟩⟩))
        (.binary ⟨.less, "<", ⟨25, 26⟩⟩ (.terminal ⟨.kwBool, "bool", ⟨20, 24⟩⟩)
          (.terminal ⟨.literal, "1", ⟨27, 28⟩⟩))] := by decide +kernel
  let known : Context → Bool := fun cx =>
    cx.node? ⟨11⟩ == some (.quantifier .all ⟨7⟩ ⟨10⟩) &&
      cx.node? ⟨10⟩ == some (.relation .lt ⟨8⟩ ⟨9⟩) && cx.node? ⟨8⟩ == some (.var ⟨0, "bool"⟩ ⟨2⟩)
  obtain ⟨s, findings, hchronicle, hresults, hknown⟩ :=
    exists_of_program [⟨⟨11⟩, .bool⟩] known hparse (by decide +kernel)
  obtain ⟨f, rest, rfl, hf, hrest⟩ := List.map_eq_cons_iff.1 hresults
  obtain rfl := List.map_eq_nil_iff.1 hrest
  simp only [known, Bool.and_eq_true, beq_iff_eq, and_assoc] at hknown
  obtain ⟨hnode, hbody, hvar⟩ := hknown
  have hoccurs : s.context.Occurs f.result.expr [⟨11⟩] ⟨8⟩ := by
    rw [hf]
    exact .child (.body .root hnode) hbody List.mem_cons_self (by simp)
  obtain ⟨hresolves, -, -, -, -⟩ := hchronicle.lexically_scoped
  exact ⟨s, f, hchronicle, hoccurs, hvar,
    (hresolves f List.mem_cons_self _ _ _ _ hoccurs hvar).2⟩

end ArithLogic
