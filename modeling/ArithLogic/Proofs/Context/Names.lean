import ArithLogic.Proofs.Context.Reachable

/-!
# ArithLogic.Proofs.Context.Names

The names that a context knows.  A context is `Native` if every name in one of
its nodes comes from its own interner.  Elaboration interns every name that it
puts into a node, and normal form makes no node of a name, so both keep a
context native; and in a native context two names are equal exactly when they
are spelled alike (`WellFormed.eq_iff_text`).
-/

namespace ArithLogic

namespace Context

variable {cx later : Context}

/-- Every name in a node comes from the interner of the context. -/
def Native (cx : Context) : Prop :=
  ∀ e name, cx.node? e = some (.id name) → name.origin = cx.interner.origin

/-- The names that a context knows: those that its interner hands out, those
that its nodes hold, and those that its environments bind. -/
inductive Mentions (cx : Context) : Symbol → Prop
  | interned {text : String} {name : Symbol} :
      cx.interner.find? text = some name → Mentions cx name
  | id {e : NodeRef} {name : Symbol} : cx.node? e = some (.id name) → Mentions cx name
  | var {e : NodeRef} {name : Symbol} {d : DeclRef} :
      cx.node? e = some (.var name d) → Mentions cx name
  | bound {env : Environment} {name : Symbol} {d : DeclRef} :
      env ∈ cx.scopes.environments → env.find? name = some d → Mentions cx name

/-! ## names that are spelled alike -/

theorem Native.origin_of_symbol? (h : cx.Native) {e : NodeRef} {name : Symbol}
    (hname : cx.symbol? e = some name) : name.origin = cx.interner.origin :=
  h e name (node?_of_symbol? hname)

/-- Declarations are of native names. -/
theorem Native.origin_of_declName? (h : cx.Native) {d : DeclRef} {name : Symbol}
    (hname : cx.declName? d = some name) : name.origin = cx.interner.origin := by
  obtain ⟨decl, -, hsymbol⟩ := Option.bind_eq_some_iff.1 hname
  exact h.origin_of_symbol? hsymbol

/-- Whatever name a native context knows is its own. -/
theorem WellFormed.origin_of_mentions (hw : cx.WellFormed) (hn : cx.Native) {name : Symbol}
    (h : cx.Mentions name) : name.origin = cx.interner.origin := by
  cases h with
  | interned hfind => rw [(Interner.find?_eq_some_iff.1 hfind).2]
  | id hnode => exact hn _ _ hnode
  | var hnode => exact hn.origin_of_declName? (hw.admits _ _ hnode)
  | bound henv hfind => exact hn.origin_of_declName? (hw.bound _ henv _ _ hfind)

/-- Two names of a native context are equal exactly when they are spelled
alike. -/
theorem WellFormed.eq_iff_text (hw : cx.WellFormed) (hn : cx.Native) {a b : Symbol}
    (ha : cx.Mentions a) (hb : cx.Mentions b) : a = b ↔ a.text = b.text := by
  have horigin : a.origin = b.origin :=
    (hw.origin_of_mentions hn ha).trans (hw.origin_of_mentions hn hb).symm
  rw [Symbol.mk.injEq, and_iff_right horigin]

/-! ## the operations -/

theorem native_initial : initial.Native := by
  intro e name hnode
  rcases node?_initial hnode with ⟨-, h⟩ | ⟨-, h⟩ | ⟨-, h⟩ | ⟨-, h⟩ | ⟨-, h⟩ <;> cases h <;> rfl

namespace Native

/-- What leaves the nodes and the interner's number alone keeps names native. -/
theorem of_nodes (h : cx.Native) (hnodes : later.nodes = cx.nodes)
    (horigin : later.interner.origin = cx.interner.origin) : later.Native := by
  intro e name hnode
  rw [horigin]
  exact h e name (by rw [node?, ← hnodes]; exact hnode)

theorem add (h : cx.Native) {node : Node NodeRef}
    (hname : ∀ name, node = .id name → name.origin = cx.interner.origin) :
    (cx.add node).2.Native := by
  intro e name hnode
  rw [node?_add] at hnode
  split at hnode
  · exact hname name (Option.some.inj hnode)
  · exact h e name hnode

/-- A node that is no name may be appended. -/
theorem addOther (h : cx.Native) {node : Node NodeRef} (hnode : ∀ name, node ≠ .id name) :
    (cx.add node).2.Native :=
  h.add fun name hname => absurd hname (hnode name)

theorem intern (h : cx.Native) (text : String) : (cx.intern text).2.Native :=
  h.of_nodes rfl (Interner.origin_intern ..)

theorem addId (h : cx.Native) (text : String) : (cx.addId text).2.Native := by
  refine (h.intern text).add ?_
  rintro name ⟨⟩
  exact (Interner.origin_intern ..).symm

theorem declareId (h : cx.Native) {id : NodeRef} {ty : Ty} {init : Option NodeRef} {d : DeclRef}
    (hok : cx.declareId id ty init = .ok (d, later)) : later.Native := by
  obtain ⟨name, scopes, -, -, -, rfl⟩ := declareId_eq_ok_iff.1 hok
  exact h.of_nodes rfl rfl

theorem enterScope (h : cx.Native) : cx.enterScope.Native := h.of_nodes rfl rfl

theorem leaveScope (h : cx.Native) (hok : cx.leaveScope = .ok later) : later.Native := by
  obtain ⟨env, next, around, -, rfl⟩ := leaveScope_eq_ok_iff.1 hok
  exact h.of_nodes rfl rfl

end Native

end Context

/-! ## elaboration -/

/-- What a verdict builds is no name. -/
def Verdict.Nameless : Verdict → Prop
  | build node _ => ∀ name, node ≠ .id name
  | refuse _ _ => True

theorem Verdict.Nameless.unless {verdict : Verdict} (h : verdict.Nameless) (faults : List Fault) :
    (verdict.unless faults).Nameless := by
  cases faults with
  | nil => exact h
  | cons => trivial

theorem Token.verdict_nameless (token : Token) : token.verdict.Nameless := by
  refine token.verdict_cases (fun _ => ?_) (fun _ => ?_) (fun _ => trivial) <;>
    simp [Verdict.Nameless]

theorem PrefixForm.verdict_nameless (form : PrefixForm) (e : Elaboration) (span : Span) :
    (form.verdict e span).Nameless := by
  refine .unless ?_ _
  cases form with
  | sign | not => simp [Verdict.Nameless, node]

theorem Context.infixVerdict_nameless (cx : Context) (op : Token) (l r : Elaboration)
    (leftSpan rightSpan : Span) (form : InfixForm) :
    (cx.infixVerdict op l r leftSpan rightSpan form).Nameless := by
  refine cx.infixVerdict_cases op l r leftSpan rightSpan form (fun _ => ?_) (fun _ => ?_)
    (fun _ => ?_) (fun _ => ?_) (fun _ _ => ?_) (fun _ _ => trivial) <;>
    simp [Verdict.Nameless]

theorem Context.Native.conclude {s : Session} (h : s.context.Native) {verdict : Verdict}
    (hverdict : verdict.Nameless) : (s.conclude verdict).2.context.Native := by
  cases verdict with
  | build node ty => exact h.addOther hverdict
  | refuse first others =>
    rw [s.context_refuse first others]
    exact h

/-- Elaboration keeps names native. -/
theorem Elaborates.native {tree : Tree} {s : Session} {out : Conclusion}
    (h : Elaborates tree s out) (hn : s.context.Native) : out.2.context.Native := by
  induction h with
  | enclosed _ ih | operandFailed _ _ ih | leftFailed _ _ ih | typeFailed _ _ _ ih
  | bindingFailed _ _ _ ih => exact ih hn
  | named => exact hn.conclude (by simp [Verdict.Nameless])
  | unbound | noPrefix | noInfix | definition | noName | noBinding => exact hn
  | constant => exact hn.conclude (Token.verdict_nameless _)
  | prefixed _ _ ih => exact (ih hn).conclude (PrefixForm.verdict_nameless ..)
  | rightFailed _ _ _ ihl ihr => exact ihr (ihl hn)
  | infixed _ _ _ ihl ihr =>
    exact (ihr (ihl hn)).conclude (.unless (Context.infixVerdict_nameless ..) _)
  | noType _ _ _ _ ih => exact ih hn
  | bound _ _ _ _ ih => exact ((ih hn).addId _).addOther (by simp)
  | bodyFailed _ _ _ _ hdeclare _ hleave ihb ih | bodyRefused _ _ _ _ hdeclare _ hleave _ ihb ih =>
    exact (ih ((ihb hn).enterScope.declareId hdeclare)).leaveScope hleave
  | quantified _ _ _ _ hdeclare _ hleave _ ihb ih =>
    exact ((ih ((ihb hn).enterScope.declareId hdeclare)).leaveScope hleave).addOther (by simp)

theorem ElaboratesForm.native {tree : Tree} {s : Session} {out : Conclusion}
    (h : ElaboratesForm tree s out) (hn : s.context.Native) : out.2.context.Native := by
  cases h with
  | expression _ _ hcourse => exact hcourse.native hn
  | noName | redeclared => exact hn
  | bindingFailed _ _ _ hcourse | valueFailed _ _ _ hcourse => exact hcourse.native hn
  | declared _ _ _ hcourse _ hdeclare => exact (hcourse.native hn).declareId hdeclare
  | noInitial _ _ _ hcourse => exact hcourse.native hn
  | defined _ _ _ hcourse _ hdeclare => exact ((hcourse.native hn).addId _).declareId hdeclare

theorem ElaboratesAll.native {trees : List Tree} {s s' : Session}
    {outcomes : List (Except ElabError Elaboration)} (h : ElaboratesAll trees s outcomes s')
    (hn : s.context.Native) : s'.context.Native := by
  induction h with
  | nil => exact hn
  | cons hcourse _ ih => exact ih (hcourse.native hn)

/-! ## normal form -/

theorem Settles.native {cx last : Context} {old e' : NodeRef} {node : Node NodeRef}
    (h : Settles cx old node e' last) (hnode : ∀ name, node ≠ .id name) (hn : cx.Native) :
    last.Native := by
  cases h with
  | reused => exact hn
  | added => exact hn.addOther hnode

/-- Normal form keeps names native. -/
theorem Normalizes.native {cx last : Context} {e e' : NodeRef} {negated : Bool}
    (h : Normalizes cx e negated e' last) (hn : cx.Native) : last.Native := by
  induction h with
  | kept => exact hn
  | truth | name => exact hn.addOther (by simp)
  | additive _ _ _ hsettles iha ihb | relation _ _ _ hsettles iha ihb
  | junction _ _ _ _ hsettles iha ihb => exact hsettles.native (by simp) (ihb (iha hn))
  | scaling _ _ hsettles ih | sign _ _ hsettles ih | quantifier _ _ hsettles ih =>
    exact hsettles.native (by simp) (ih hn)
  | implication _ _ _ iha ihb => exact (ihb (iha hn)).addOther (by simp)
  | equivalence _ _ _ _ _ ihpa ihna ihpb ihnb | difference _ _ _ _ _ ihpa ihna ihpb ihnb =>
    have hparts := ihnb (ihpb (ihna (ihpa hn)))
    refine .addOther ?_ (by simp)
    refine .addOther ?_ (by simp)
    exact hparts.addOther (by simp)
  | not _ _ ih => exact ih hn

end ArithLogic
