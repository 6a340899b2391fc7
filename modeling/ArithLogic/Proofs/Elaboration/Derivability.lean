import ArithLogic.Proofs.Context.Reachable
import ArithLogic.Proofs.Elaboration.TypeSystem

/-!
# ArithLogic.Proofs.Elaboration.Derivability

Elaboration decides the type system.  What names stand for does not change
while a context grows under the same scopes, so every course that succeeds is
a derivation of `Types` (`Elaborates.types`), and every derivation is such a
course (`Types.elaborates`).
-/

namespace ArithLogic

namespace Context

variable {cx later : Context} {e : NodeRef} {t : Term}

/-! ## what names stand for in later contexts -/

/-- The handles to types are the same in all well formed contexts. -/
theorem WellFormed.type?_eq (h : cx.WellFormed) (h' : later.WellFormed) :
    later.type? = cx.type? := by
  funext e
  refine Option.ext fun ty => ?_
  rw [h.type_iff, h'.type_iff]

/-- Under the same scopes names stand for what they stood for. -/
theorem WellFormed.meaning_within (h : cx.WellFormed) (h' : later.WellFormed)
    (hwithin : cx.Within later) (hscopes : later.scopes = cx.scopes) :
    later.meaning = cx.meaning := by
  funext text
  unfold meaning
  rw [h.lookup?_eq, h'.lookup?_eq, hwithin.origin, hscopes, h.type?_eq h']
  cases hfind : cx.scopes.find? ⟨cx.interner.origin, text⟩ with
  | none => rfl
  | some d =>
    obtain ⟨decl, hdecl, -⟩ := Option.bind_eq_some_iff.1 (h.declName?_of_find? hfind)
    simp [hdecl, hwithin.decl hdecl]

/-- In the scope of a quantifier the bound name stands for its declaration. -/
theorem WellFormed.meaning_declareId {id : NodeRef} {ty : Ty} {d : DeclRef} {inner : Context}
    {text : String} (h : cx.WellFormed) (hid : cx.symbol? id = some ⟨cx.interner.origin, text⟩)
    (hdeclare : cx.enterScope.declareId id ty none = .ok (d, inner)) :
    inner.meaning = cx.meaning.bind text d ty := by
  have hinner : inner.WellFormed := h.enterScope.declareVar hdeclare
  have hwithin : cx.Within inner := (Within.enterScope cx).trans (.declareId hdeclare)
  funext other
  have hfind := find?_declareId hdeclare (show cx.enterScope.symbol? id = _ from hid)
    ⟨cx.interner.origin, other⟩
  simp only [meaning, Naming.bind]
  rw [hinner.lookup?_eq, hwithin.origin, hfind]
  by_cases heq : other = text
  · have hdecl := decl?_of_declareId hdeclare
    simp [heq, hdecl]
  · have hne : (⟨cx.interner.origin, other⟩ : Symbol) ≠ ⟨cx.interner.origin, text⟩ := by
      simpa using heq
    have hscopes : cx.enterScope.scopes.find? ⟨cx.interner.origin, other⟩ =
        cx.scopes.find? ⟨cx.interner.origin, other⟩ := ScopeStack.find?_push_empty ..
    rw [if_neg hne, if_neg heq, hscopes, h.lookup?_eq, h.type?_eq hinner]
    cases hold : cx.scopes.find? ⟨cx.interner.origin, other⟩ with
    | none => rfl
    | some d' =>
      obtain ⟨decl, hdecl, -⟩ := Option.bind_eq_some_iff.1 (h.declName?_of_find? hold)
      simp [hdecl, hwithin.decl hdecl]

/-! ## the terms of new nodes -/

/-- A node means in every later context what it means. -/
theorem Within.termOf? {node : Node NodeRef} (h : cx.Within later)
    (ht : cx.termOf? node = some t) : later.termOf? node = some t := by
  cases node with
  | additive op l r | relation op l r | connective op l r =>
    obtain ⟨tl, hl, ht⟩ := Option.bind_eq_some_iff.1 ht
    obtain ⟨tr, hr, ht⟩ := Option.bind_eq_some_iff.1 ht
    simp only [Context.termOf?, h.term? hl, h.term? hr]
    exact ht
  | scaling op factor operand =>
    obtain ⟨value, hvalue, ht⟩ := Option.bind_eq_some_iff.1 ht
    obtain ⟨t', ht', ht⟩ := Option.bind_eq_some_iff.1 ht
    simp only [Context.termOf?, h.literal? hvalue, h.term? ht']
    exact ht
  | sign op operand =>
    obtain ⟨t', ht', ht⟩ := Option.bind_eq_some_iff.1 ht
    simp only [Context.termOf?, h.term? ht']
    exact ht
  | not operand =>
    obtain ⟨t', ht', ht⟩ := Option.bind_eq_some_iff.1 ht
    simp only [Context.termOf?, h.term? ht']
    exact ht
  | bind name ty =>
    obtain ⟨symbol, hsymbol, ht⟩ := Option.bind_eq_some_iff.1 ht
    simp only [Context.termOf?, h.symbol? hsymbol]
    exact ht
  | quantifier op binding body =>
    obtain ⟨⟨name, ty⟩, hbinding, ht⟩ := Option.bind_eq_some_iff.1 ht
    obtain ⟨t', ht', ht⟩ := Option.bind_eq_some_iff.1 ht
    simp only [Context.termOf?, h.binding? hbinding, h.term? ht']
    exact ht
  | id | bool | int | var | type => exact ht

/-- An appended node means what it is made of. -/
theorem WellFormed.term?_add {node : Node NodeRef} (h : cx.WellFormed) (ha : cx.Accepts node)
    (ht : cx.termOf? node = some t) : (cx.add node).2.term? ⟨cx.size⟩ = some t := by
  rw [(h.add ha).term?_eq (node?_add_self cx node)]
  exact (Within.add cx node).termOf? ht

/-- A term is of the kind of its node. -/
theorem kind_of_termOf? {node : Node NodeRef} (ht : cx.termOf? node = some t) :
    t.kind = node.kind := by
  cases node with
  | id | bool | int | var | type => cases ht; rfl
  | additive op l r | relation op l r | connective op l r =>
    obtain ⟨tl, -, ht⟩ := Option.bind_eq_some_iff.1 ht
    obtain ⟨tr, -, ht⟩ := Option.bind_eq_some_iff.1 ht
    cases ht; rfl
  | scaling op factor operand | quantifier op factor operand =>
    obtain ⟨_, -, ht⟩ := Option.bind_eq_some_iff.1 ht
    obtain ⟨_, -, ht⟩ := Option.bind_eq_some_iff.1 ht
    cases ht; rfl
  | sign op operand | not operand | bind name ty =>
    obtain ⟨_, -, ht⟩ := Option.bind_eq_some_iff.1 ht
    cases ht; rfl

/-- What denotes a term is a handle to a node. -/
theorem node?_of_term? (ht : cx.term? e = some t) : ∃ node, cx.node? e = some node := by
  cases hnode : cx.node? e with
  | some node => exact ⟨node, rfl⟩
  | none => simp [term?, view?, hnode] at ht

theorem index_lt_of_term? (ht : cx.term? e = some t) : e.index < cx.size :=
  have ⟨_, hnode⟩ := node?_of_term? ht
  index_lt_of_node? hnode

/-- The literals are the handles that denote numbers. -/
theorem WellFormed.literal?_eq_some_iff (h : cx.WellFormed) {value : Int} :
    cx.literal? e = some value ↔ cx.term? e = some (.int value) := by
  constructor
  · intro hvalue
    exact h.term?_eq (node?_of_literal? hvalue)
  · intro ht
    obtain ⟨node, hnode⟩ := node?_of_term? ht
    rw [h.term?_eq hnode] at ht
    have hkind := kind_of_termOf? ht
    cases node <;> simp only [Term.kind, Node.kind, reduceCtorEq] at hkind
    cases ht
    simp [literal?, hnode]

theorem isLiteral_eq (cx : Context) (e : NodeRef) : cx.isLiteral e = (cx.literal? e).isSome := by
  unfold isLiteral literal?
  cases cx.node? e with
  | none => rfl
  | some node => cases node <;> rfl

/-- The name that a binding binds is behind its handle. -/
theorem WellFormed.symbol?_of_binding (h : cx.WellFormed) {id : NodeRef} {ty : Ty} {name : Symbol}
    (hnode : cx.node? e = some (.bind id ty)) (ht : cx.term? e = some (.bind name ty)) :
    cx.symbol? id = some name := by
  rw [h.term?_eq hnode, termOf?] at ht
  obtain ⟨symbol, hsymbol, ht⟩ := Option.bind_eq_some_iff.1 ht
  cases ht
  exact hsymbol

end Context

/-! ## what derivations say about the root -/

namespace Types

variable {origin n n' : Nat} {names : Naming} {tree : Tree} {ty : Ty} {t : Term}

/-- The trees of literals are the ones that mean numbers. -/
theorem literal?_eq_some_iff (h : Types origin names n tree ty t n') {value : Int} :
    tree.literal? = some value ↔ t = .int value := by
  induction h with
  | @name _ _ token _ hname =>
    have hkind : token.kind ≠ .literal := by
      intro hkind
      simp [hkind, TokenKind.isName] at hname
    simp [Tree.literal?, hkind]
  | @truth _ _ _ truth hkind => cases truth <;> simp [Tree.literal?, hkind]
  | literal hkind hvalue => simp [Tree.literal?, hkind, hvalue]
  | enclosed _ ih => exact ih
  | _ => simp [Tree.literal?]

/-- The literals among the expressions are the ones among their trees. -/
theorem literal?_eq {cx : Context} {e : NodeRef} (h : Types origin names n tree ty t n')
    (hw : cx.WellFormed) (ht : cx.term? e = some t) : cx.literal? e = tree.literal? := by
  refine Option.ext fun value => ?_
  rw [hw.literal?_eq_some_iff, h.literal?_eq_some_iff, ht, Option.some.injEq]

/-- The trees that mean variables are names. -/
theorem name_of_var {name : Symbol} {d : DeclRef}
    (h : Types origin names n tree ty (.var name d) n') : ∃ token meaning,
      tree.unparenthesized = .terminal token ∧ token.kind.isName = true ∧
      names token.text = some meaning ∧ meaning.ty = ty ∧ meaning.decl = d ∧ n' = n := by
  generalize hvar : Term.var name d = t at h
  induction h with
  | name hname hmeaning =>
    cases hvar
    exact ⟨_, _, rfl, hname, hmeaning, rfl, rfl, rfl⟩
  | enclosed _ ih => exact ih hvar
  | _ => cases hvar

/-- The tree of a binding is derived as one. -/
theorem binding_inv {colon : Token} {left type : Tree}
    (h : Types origin names n (.binary colon left type) ty t n') (hcolon : colon.kind = .colon) :
    ∃ name, left = .terminal name ∧ name.kind.isName = true ∧ names.Designates type ty ∧
      t = .bind ⟨origin, name.text⟩ ty ∧ n' = n := by
  cases h with
  | binding _ hname htype => exact ⟨_, rfl, hname, htype, rfl, rfl⟩
  | @additive _ _ _ _ _ _ _ a _ _ hop => cases a <;> simp [hcolon, Additive.token] at hop
  | @relation _ _ _ _ _ _ _ a _ _ hop => cases a <;> simp [hcolon, Relation.token] at hop
  | @connective _ _ _ _ _ _ _ a _ _ hop => cases a <;> simp [hcolon, Connective.token] at hop
  | @quantifier _ _ _ _ _ _ _ _ q _ _ hop => cases q <;> simp [hcolon, Quantifier.token] at hop
  | leftFactor hop | rightFactor hop | divisor hop => simp [hcolon] at hop

end Types

/-! ## courses are derivations -/

theorem Verdict.unless_eq_build {verdict : Verdict} {faults : List Fault} {node : Node NodeRef}
    {ty : Ty} (h : verdict.unless faults = .build node ty) :
    faults = [] ∧ verdict = .build node ty := by
  cases faults with
  | nil => exact ⟨rfl, h⟩
  | cons => cases h

theorem Elaboration.faults_eq_nil {e : Elaboration} {expected : Ty} {span : Span} :
    e.faults expected span = [] ↔ e.ty = expected := by
  unfold faults
  split <;> simp_all

theorem Tree.name?_eq_some_iff {tree : Tree} {token : Token} :
    tree.name? = some token ↔ tree = .terminal token ∧ token.kind.isName = true := by
  cases tree with
  | terminal found =>
    simp only [name?, Tree.terminal.injEq]
    split
    · next hname =>
      rw [Option.some.injEq]
      exact ⟨fun heq => ⟨heq, heq ▸ hname⟩, fun h => h.1⟩
    · next hname =>
      constructor
      · intro h
        cases h
      · rintro ⟨rfl, hname'⟩
        exact absurd hname' hname
  | _ => simp [name?]

section Sound

variable {s : Session} {e : Elaboration}

/-- A name that elaborates is derived. -/
theorem types_of_lookup (hw : s.context.WellFormed) {token : Token} {d : DeclRef} {decl : Decl}
    {name : Symbol} (hkind : token.kind.isName = true)
    (hlookup : s.context.lookup? token.text = some d) (hdecl : s.context.decl? d = some decl)
    (hname : s.context.declName? d = some name) (n : Nat) :
    Types s.context.interner.origin s.context.meaning n (.terminal token) decl.ty (.var name d) n := by
  have hfind := hlookup
  rw [hw.lookup?_eq] at hfind
  cases hname.symm.trans (hw.declName?_of_find? hfind)
  have hmeaning : s.context.meaning token.text =
      some ⟨d, decl.ty, decl.init.bind s.context.type?⟩ := by
    simp [Context.meaning, hlookup, hdecl]
  exact .name hkind hmeaning

/-- A token that is no name and elaborates is derived. -/
theorem types_of_verdict (names : Naming) (origin n : Nat) {token : Token} {node : Node NodeRef}
    {ty : Ty} (h : token.verdict = .build node ty) : ∃ t,
      Types origin names n (.terminal token) ty t n ∧ s.context.termOf? node = some t := by
  unfold Token.verdict at h
  split at h
  · next hkind => cases h; exact ⟨.bool true, .truth hkind, rfl⟩
  · next hkind => cases h; exact ⟨.bool false, .truth hkind, rfl⟩
  · next hkind =>
    split at h
    · next value hvalue => cases h; exact ⟨_, .literal hkind hvalue, rfl⟩
    · cases h
  · cases h

/-- What is built over operands without faults is derived. -/
theorem types_of_infixVerdict {origin n n₁ n₂ : Nat} {names : Naming} {op : Token}
    {left right : Tree} {l r : Elaboration} {form : InfixForm} {tl tr : Term} {node : Node NodeRef}
    {ty : Ty} (hw : s.context.WellFormed) (hform : InfixForm.ofToken? op.kind = some form)
    (hl : Types origin names n left form.operandType tl n₁)
    (hr : Types origin names n₁ right form.operandType tr n₂)
    (htl : s.context.term? l.expr = some tl) (htr : s.context.term? r.expr = some tr)
    (h : s.context.infixVerdict op l r left.span right.span form = .build node ty) :
    ∃ t, Types origin names n (.binary op left right) ty t n₂ ∧ s.context.termOf? node = some t := by
  have hop := InfixForm.ofToken?_eq_some_iff.1 hform
  cases form with
  | additive a =>
    cases h
    exact ⟨_, .additive hop hl hr, by simp [Context.termOf?, htl, htr]⟩
  | relation a =>
    cases h
    exact ⟨_, .relation hop hl hr, by simp [Context.termOf?, htl, htr]⟩
  | connective a =>
    cases h
    exact ⟨_, .connective hop hl hr, by simp [Context.termOf?, htl, htr]⟩
  | product =>
    have hleftLiteral := hl.literal?_eq hw htl
    have hrightLiteral := hr.literal?_eq hw htr
    simp only [Context.infixVerdict, Context.isLiteral_eq, hleftLiteral, hrightLiteral] at h
    split at h
    · next hleft =>
      cases h
      obtain ⟨value, hvalue⟩ := Option.isSome_iff_exists.1 hleft
      exact ⟨_, .leftFactor hop hl hr hvalue,
        by simp [Context.termOf?, hleftLiteral, hvalue, htr]⟩
    · next hleft =>
      split at h
      · next hright =>
        cases h
        obtain ⟨value, hvalue⟩ := Option.isSome_iff_exists.1 hright
        exact ⟨_, .rightFactor hop hl hr (by simpa using hleft) hvalue,
          by simp [Context.termOf?, hrightLiteral, hvalue, htl]⟩
      · cases h
  | quotient =>
    have hrightLiteral := hr.literal?_eq hw htr
    simp only [Context.infixVerdict, Context.isLiteral_eq, hrightLiteral] at h
    split at h
    · next hright =>
      cases h
      obtain ⟨value, hvalue⟩ := Option.isSome_iff_exists.1 hright
      exact ⟨_, .divisor hop hl hr hvalue,
        by simp [Context.termOf?, hrightLiteral, hvalue, htl]⟩
    · cases h

/-- An expression that designates a type is a name that stands for one. -/
theorem designates_of_designation {s' : Session} {tree : Tree} {t : Term} {n n' : Nat} {ty : Ty}
    (hw : s.context.WellFormed) (hw' : s'.context.WellFormed)
    (hwithin : s.context.Within s'.context)
    (h : Types s.context.interner.origin s.context.meaning n tree e.ty t n')
    (ht : s'.context.term? e.expr = some t) {span : Span}
    (hty : s'.context.designation e span = .ok ty) :
    s.context.meaning.Designates tree ty ∧ n' = n := by
  obtain ⟨hkind, name, d, decl, init, hnode, hdecl, hinit, htype⟩ := Context.designation_eq_ok hty
  cases (hw'.term?_eq hnode).symm.trans ht
  obtain ⟨token, meaning, htree, hname, hmeaning, hmty, rfl, rfl⟩ := h.name_of_var
  refine ⟨⟨token, meaning, htree, hname, hmeaning, hmty.trans hkind, ?_⟩, rfl⟩
  obtain ⟨d, hlookup, hmeaning⟩ := Option.bind_eq_some_iff.1 hmeaning
  obtain ⟨old, hold, hmeaning⟩ := Option.bind_eq_some_iff.1 hmeaning
  cases hmeaning
  cases (hwithin.decl hold).symm.trans hdecl
  rw [hw.type?_eq hw'] at htype
  simpa only [hinit, Option.bind_some] using htype

end Sound

/-- The term of a binding that was appended. -/
theorem Session.term?_addBinding {s : Session} (hw : s.context.WellFormed) (text : String) (ty : Ty) :
    (s.addBinding text ty).context.term? ⟨s.context.size + 1⟩ =
      some (.bind ⟨s.context.interner.origin, text⟩ ty) := by
  obtain ⟨hnode, hsymbol⟩ := s.node?_addBinding text ty
  rw [(s.wellFormed_addBinding hw text ty).term?_eq hnode, Context.termOf?, hsymbol]
  rfl

/-- The term of a quantifier over a binding. -/
theorem Context.termOf?_quantifier {cx : Context} {q : Quantifier} {b id body : NodeRef} {ty : Ty}
    {name : Symbol} {t : Term} (hb : cx.node? b = some (.bind id ty))
    (hid : cx.symbol? id = some name) (ht : cx.term? body = some t) :
    cx.termOf? (.quantifier q b body) = some (.quantifier q name ty t) := by
  rw [termOf?, binding?_of_node? hb hid, ht]
  rfl

/-- A course of elaboration is sound if its success is a derivation. -/
def Elaborates.Sound (tree : Tree) (s : Session) (out : Conclusion) : Prop :=
  ∀ e, out.1 = .ok e → ∃ t,
    Types s.context.interner.origin s.context.meaning s.context.decls.size tree e.ty t
      out.2.context.decls.size ∧ out.2.context.term? e.expr = some t

/-- A verdict is sound if what it builds is derived. -/
theorem Elaborates.Sound.conclude {s s' : Session} {tree : Tree} {verdict : Verdict}
    (hw : s'.context.WellFormed) (hfits : verdict.Fits s'.context)
    (h : ∀ node ty, verdict = .build node ty → ∃ t,
      Types s.context.interner.origin s.context.meaning s.context.decls.size tree ty t
        s'.context.decls.size ∧ s'.context.termOf? node = some t) :
    Elaborates.Sound tree s (s'.conclude verdict) := by
  intro e he
  cases verdict with
  | refuse first others => cases he
  | build node ty =>
    cases he
    obtain ⟨t, htypes, ht⟩ := h node ty rfl
    exact ⟨t, htypes, hw.term?_add hfits ht⟩

/-- Every course that succeeds is a derivation. -/
theorem Elaborates.types {tree : Tree} {s : Session} {out : Conclusion}
    (h : Elaborates tree s out) (hw : s.context.WellFormed) : Elaborates.Sound tree s out := by
  induction h with
  | enclosed _ ih =>
    intro e he
    obtain ⟨t, htypes, ht⟩ := ih hw e he
    exact ⟨t, .enclosed htypes, ht⟩
  | @named token s d decl name hkind hlookup hdecl hname =>
    refine .conclude hw ⟨by simp [Node.handles, Node.children], hname, by simp⟩ ?_
    rintro node ty ⟨⟩
    exact ⟨_, types_of_lookup hw hkind hlookup hdecl hname _, rfl⟩
  | constant =>
    exact .conclude hw (Token.verdict_fits _) fun node ty hbuild => types_of_verdict _ _ _ hbuild
  | prefixed hform hoperand ih =>
    have hkept := hoperand.kept hw
    refine .conclude hkept.wellFormed (PrefixForm.verdict_fits (hkept.fresh _ rfl).2) ?_
    intro node ty hbuild
    obtain ⟨hfaults, hnode⟩ := Verdict.unless_eq_build hbuild
    obtain ⟨t, htypes, ht⟩ := ih hw _ rfl
    rw [Elaboration.faults_eq_nil.1 hfaults] at htypes
    have hop := PrefixForm.ofToken?_eq_some_iff.1 hform
    rename_i form _
    cases form with
    | sign op =>
      cases hnode
      exact ⟨_, .sign hop htypes, by simp [PrefixForm.node, Context.termOf?, ht]⟩
    | not =>
      cases hnode
      exact ⟨_, .not hop htypes, by simp [PrefixForm.node, Context.termOf?, ht]⟩
  | @infixed op left right s s₁ s₂ form l r hform hleft hright ihl ihr =>
    have hl := hleft.kept hw
    have hr := hright.kept hl.wellFormed
    have hrange := hr.within.index_lt (hl.fresh _ rfl).2
    refine .conclude hr.wellFormed
      (.unless (Context.infixVerdict_fits hrange (hr.fresh _ rfl).2) _) ?_
    intro node ty hbuild
    obtain ⟨hfaults, hnode⟩ := Verdict.unless_eq_build hbuild
    obtain ⟨hlfaults, hrfaults⟩ := List.append_eq_nil_iff.1 hfaults
    obtain ⟨tl, hltypes, htl⟩ := ihl hw _ rfl
    obtain ⟨tr, hrtypes, htr⟩ := ihr hl.wellFormed _ rfl
    rw [Elaboration.faults_eq_nil.1 hlfaults] at hltypes
    rw [Elaboration.faults_eq_nil.1 hrfaults, hl.within.origin,
      hw.meaning_within hl.wellFormed hl.within hl.scopes] at hrtypes
    exact types_of_infixVerdict hr.wellFormed hform hltypes hrtypes (hr.within.term? htl) htr hnode
  | @bound op name left right s s' e ty hop hname htype hty ih =>
    rintro _ ⟨⟩
    have hkept := htype.kept hw
    obtain ⟨t, htypes, ht⟩ := ih hw _ rfl
    obtain ⟨hdesignates, hn⟩ :=
      designates_of_designation hw hkept.wellFormed hkept.within htypes ht hty
    obtain ⟨rfl, hkind⟩ := Tree.name?_eq_some_iff.1 hname
    have hdecls : (s'.addBinding name.text ty).context.decls.size = s.context.decls.size := hn
    refine ⟨.bind ⟨s.context.interner.origin, name.text⟩ ty, ?_, ?_⟩
    · rw [hdecls]
      exact .binding hop hkind hdesignates
    · rw [← hkept.within.origin]
      exact Session.term?_addBinding hkept.wellFormed name.text ty
  | @quantified op left right s s₁ s₂ q b e id d inner outer hq hleft hb hnode hdeclare hbody hleave
      hty ihb ih =>
    have hkb := hb.kept hw
    have hinner := hkb.wellFormed.enterScope.declareVar hdeclare
    have hkbody := hbody.kept hinner
    have hwithinner : s₁.context.Within inner :=
      (Context.Within.enterScope _).trans (.declareId hdeclare)
    have hleft' := Context.Within.leaveScope hleave
    have houter := hkbody.wellFormed.leaveScope hleave
    -- the binding
    cases left with
    | binary colon name type =>
      obtain ⟨tb, hbtypes, htb⟩ := ihb hw _ rfl
      obtain ⟨token, rfl, hname, hdesignates, rfl, hn⟩ := hbtypes.binding_inv hleft
      have hid := hkb.wellFormed.symbol?_of_binding hnode htb
      rw [← hkb.within.origin] at hid
      have hmeaning := hkb.wellFormed.meaning_declareId hid hdeclare
      rw [hw.meaning_within hkb.wellFormed hkb.within hkb.scopes] at hmeaning
      -- the body, in which the name stands for the next declaration
      obtain ⟨rfl, hdecls⟩ := Context.decls_of_declareId hdeclare
      obtain ⟨t, htypes, ht⟩ := ih hinner _ rfl
      simp only [Session.context_moveTo] at htypes
      have hnext : s₁.context.enterScope.decls.size = s.context.decls.size := hn
      rw [hmeaning, hwithinner.origin, hkb.within.origin, hdecls, Array.size_push, hty, hnext,
        ← Context.decls_of_leaveScope hleave] at htypes
      have hbouter := hleft'.node (hkbody.within.node (hwithinner.node hnode))
      refine .conclude houter (Context.accepts_quantifier houter hbouter
        (hleft'.index_lt (hkbody.fresh _ rfl).2)) ?_
      rintro node _ ⟨⟩
      refine ⟨_, .quantifier (Quantifier.ofToken?_eq_some_iff.1 hq) hleft hname hdesignates htypes, ?_⟩
      rw [hkb.within.origin] at hid
      exact Context.termOf?_quantifier hbouter
        (hleft'.symbol? (hkbody.within.symbol? (hwithinner.symbol? hid))) (hleft'.term? ht)
    | _ => exact hleft.elim
  | _ =>
    intro e he
    cases he

/-! ## derivations are courses -/

/-- In every session where names stand for what they are taken to stand for,
the tree elaborates to an expression of the type that denotes the term. -/
def Types.Reached (origin : Nat) (names : Naming) (n : Nat) (tree : Tree) (ty : Ty) (t : Term)
    (n' : Nat) : Prop :=
  ∀ {s : Session}, s.context.WellFormed → s.context.interner.origin = origin →
    s.context.meaning = names → s.context.decls.size = n →
    ∃ e s', Elaborates tree s (.ok ⟨e, ty⟩, s') ∧ s'.context.decls.size = n' ∧
      s'.context.term? e = some t

namespace Types

variable {origin n n₁ n₂ : Nat} {names : Naming} {left right : Tree} {op : Token} {l r t : Term}
  {ty : Ty}

/-- What a verdict builds has been reached. -/
theorem reached_conclude {s s' : Session} {tree : Tree} {node : Node NodeRef}
    (hcourse : Elaborates tree s (s'.conclude (.build node ty))) (hw : s'.context.WellFormed)
    (haccepts : s'.context.Accepts node) (ht : s'.context.termOf? node = some t) :
    ∃ e s'', Elaborates tree s (.ok ⟨e, ty⟩, s'') ∧
      s''.context.decls.size = s'.context.decls.size ∧ s''.context.term? e = some t :=
  ⟨_, _, hcourse, rfl, hw.term?_add haccepts ht⟩

/-- An infix operator over two operands that are reached is reached if its
verdict is to build. -/
theorem reached_operation (form : InfixForm) (hop : op.kind = form.token)
    (hleft : Reached origin names n left form.operandType l n₁)
    (hright : Reached origin names n₁ right form.operandType r n₂)
    (hbuild : ∀ {cx : Context} {el er : NodeRef}, cx.WellFormed → cx.term? el = some l →
      cx.term? er = some r → ∃ node,
        cx.infixVerdict op ⟨el, form.operandType⟩ ⟨er, form.operandType⟩ left.span right.span form =
          .build node ty ∧ cx.termOf? node = some t) :
    Reached origin names n (.binary op left right) ty t n₂ := by
  intro s hw horigin hnames hn
  obtain ⟨el, s₁, hl, hn₁, htl⟩ := hleft hw horigin hnames hn
  have hkl := hl.kept hw
  have hnames₁ := hw.meaning_within hkl.wellFormed hkl.within hkl.scopes
  obtain ⟨er, s₂, hr, hn₂, htr⟩ := hright hkl.wellFormed (hkl.within.origin.trans horigin)
    (hnames₁.trans hnames) hn₁
  have hkr := hr.kept hkl.wellFormed
  obtain ⟨node, hverdict, ht⟩ := hbuild hkr.wellFormed (hkr.within.term? htl) htr
  have hcourse := Elaborates.infixed (InfixForm.ofToken?_eq_some_iff.2 hop) hl hr
  have hfaults : form.faults ⟨el, form.operandType⟩ ⟨er, form.operandType⟩ left.span right.span =
      [] := by simp [InfixForm.faults, Elaboration.faults]
  have hfits : (s₂.context.infixVerdict op ⟨el, form.operandType⟩ ⟨er, form.operandType⟩ left.span
      right.span form).Fits s₂.context :=
    Context.infixVerdict_fits (hkr.within.index_lt (hkl.fresh _ rfl).2) (hkr.fresh _ rfl).2
  rw [hfaults, hverdict] at hcourse
  rw [hverdict] at hfits
  rw [← hn₂]
  exact reached_conclude hcourse hkr.wellFormed hfits ht

/-- A prefix operator over an operand that is reached is reached. -/
theorem reached_unary (form : PrefixForm) {operand : Tree} (hop : op.kind = form.token)
    (hoperand : Reached origin names n operand form.type l n₁)
    (hnode : ∀ {cx : Context} {e : NodeRef}, cx.term? e = some l →
      cx.termOf? (form.node e) = some t) :
    Reached origin names n (.unary op operand) form.type t n₁ := by
  intro s hw horigin hnames hn
  obtain ⟨e, s₁, he, hn₁, ht⟩ := hoperand hw horigin hnames hn
  have hk := he.kept hw
  have hcourse := Elaborates.prefixed (PrefixForm.ofToken?_eq_some_iff.2 hop) he
  have hfits : (form.verdict ⟨e, form.type⟩ operand.span).Fits s₁.context :=
    PrefixForm.verdict_fits (hk.fresh _ rfl).2
  have hverdict : form.verdict ⟨e, form.type⟩ operand.span = .build (form.node e) form.type := by
    simp [PrefixForm.verdict, Elaboration.faults, Verdict.unless]
  rw [hverdict] at hcourse hfits
  rw [← hn₁]
  exact reached_conclude hcourse hk.wellFormed hfits (hnode ht)

/-- A tree elaborates as the tree inside its parentheses does. -/
theorem elaborates_of_unparenthesized {tree : Tree} {s : Session} {out : Conclusion}
    (h : Elaborates tree.unparenthesized s out) : Elaborates tree s out := by
  induction tree with
  | enclosed opening body closing ih => exact .enclosed (ih h)
  | _ => exact h

/-- A name that stands for something elaborates to a variable. -/
theorem elaborates_of_meaning {s : Session} {token : Token} {meaning : Meaning}
    (hw : s.context.WellFormed) (hkind : token.kind.isName = true)
    (hmeaning : s.context.meaning token.text = some meaning) :
    ∃ decl, s.context.decl? meaning.decl = some decl ∧
      meaning = ⟨meaning.decl, decl.ty, decl.init.bind s.context.type?⟩ ∧
      s.context.declName? meaning.decl = some ⟨s.context.interner.origin, token.text⟩ ∧
      Elaborates (.terminal token) s
        (s.conclude (.build (.var ⟨s.context.interner.origin, token.text⟩ meaning.decl) meaning.ty)) := by
  obtain ⟨d, hlookup, hmeaning⟩ := Option.bind_eq_some_iff.1 hmeaning
  obtain ⟨decl, hdecl, hmeaning⟩ := Option.bind_eq_some_iff.1 hmeaning
  cases hmeaning
  have hfind := hlookup
  rw [hw.lookup?_eq] at hfind
  have hname := hw.declName?_of_find? hfind
  exact ⟨decl, hdecl, rfl, hname, .named hkind hlookup hdecl hname⟩

/-- The tree of a type elaborates to an expression that designates the type. -/
theorem elaborates_of_designates {s : Session} {tree : Tree} (hw : s.context.WellFormed)
    (h : s.context.meaning.Designates tree ty) (span : Span) :
    ∃ e s', Elaborates tree s (.ok e, s') ∧ s'.context.designation e span = .ok ty ∧
      s'.context.decls = s.context.decls := by
  obtain ⟨token, meaning, htree, hkind, hmeaning, hty, hdesignates⟩ := h
  obtain ⟨decl, hdecl, hsame, hname, hcourse⟩ := elaborates_of_meaning hw hkind hmeaning
  rw [← htree] at hcourse
  refine ⟨_, _, elaborates_of_unparenthesized hcourse, ?_, rfl⟩
  have haccepts : s.context.Accepts (.var ⟨s.context.interner.origin, token.text⟩ meaning.decl) :=
    ⟨by simp [Node.handles, Node.children], hname, by simp⟩
  have hnode := Context.node?_add_self s.context
    (.var ⟨s.context.interner.origin, token.text⟩ meaning.decl)
  rw [hsame] at hdesignates
  obtain ⟨init, hinit, htype⟩ := Option.bind_eq_some_iff.1 hdesignates
  have hdecl' := (Context.Within.add s.context
    (.var ⟨s.context.interner.origin, token.text⟩ meaning.decl)).decl hdecl
  have htype' := (Context.Within.add s.context
    (.var ⟨s.context.interner.origin, token.text⟩ meaning.decl)).type? htype
  simp only [Context.designation, Session.context_add, hty, if_true, hnode, hdecl', Option.bind_some,
    hinit, htype']

/-- A binding to a name that designates a type elaborates. -/
theorem elaborates_binding {s : Session} {colon name : Token} {type : Tree}
    (hw : s.context.WellFormed) (hcolon : colon.kind = .colon) (hname : name.kind.isName = true)
    (htype : s.context.meaning.Designates type ty) : ∃ s₀ : Session,
      Elaborates (.binary colon (.terminal name) type) s
        (.ok ⟨⟨s₀.context.size + 1⟩, ty⟩, s₀.addBinding name.text ty) ∧
      Kept s (.ok ⟨⟨s₀.context.size + 1⟩, ty⟩, s₀.addBinding name.text ty) ∧
      s₀.context.WellFormed ∧ s₀.context.decls = s.context.decls ∧
      s₀.context.interner.origin = s.context.interner.origin := by
  obtain ⟨e, s₀, he, hty, hdecls⟩ := elaborates_of_designates hw htype type.span
  have hk := he.kept hw
  have hcourse := Elaborates.bound hcolon (Tree.name?_eq_some_iff.2 ⟨rfl, hname⟩) he hty
  exact ⟨s₀, hcourse, hcourse.kept hw, hk.wellFormed, hdecls, hk.within.origin⟩

/-- Every derivation is a course of elaboration. -/
theorem reached {origin n n' : Nat} {names : Naming} {tree : Tree} {ty : Ty} {t : Term}
    (h : Types origin names n tree ty t n') : Reached origin names n tree ty t n' := by
  induction h with
  | @name names n token meaning hkind hmeaning =>
    rintro s hw rfl rfl rfl
    obtain ⟨decl, hdecl, hsame, hname, hcourse⟩ := elaborates_of_meaning hw hkind hmeaning
    exact reached_conclude hcourse hw ⟨by simp [Node.handles, Node.children], hname, by simp⟩ rfl
  | @truth names n token value hkind =>
    rintro s hw rfl rfl rfl
    have hverdict : token.verdict = .build (.bool value) .bool := by
      cases value <;> simp [Token.verdict, hkind]
    have hcourse : Elaborates (.terminal token) s (s.conclude token.verdict) := .constant (by
      cases value <;> simp [hkind, TokenKind.isName])
    have hfits : token.verdict.Fits s.context := token.verdict_fits
    rw [hverdict] at hcourse hfits
    exact reached_conclude hcourse hw hfits rfl
  | @literal names n token value hkind hvalue =>
    rintro s hw rfl rfl rfl
    have hverdict : token.verdict = .build (.int value) .int := by
      simp [Token.verdict, hkind, hvalue]
    have hcourse : Elaborates (.terminal token) s (s.conclude token.verdict) :=
      .constant (by simp [hkind, TokenKind.isName])
    have hfits : token.verdict.Fits s.context := token.verdict_fits
    rw [hverdict] at hcourse hfits
    exact reached_conclude hcourse hw hfits rfl
  | enclosed _ ih =>
    intro s hw horigin hnames hn
    obtain ⟨e, s', he, hn', ht⟩ := ih hw horigin hnames hn
    exact ⟨e, s', .enclosed he, hn', ht⟩
  | @sign _ _ _ _ _ op _ hop _ ih =>
    exact reached_unary (.sign op) hop ih fun ht => by
      simp [PrefixForm.node, Context.termOf?, ht]
  | not hop _ ih =>
    exact reached_unary .not hop ih fun ht => by
      simp [PrefixForm.node, Context.termOf?, ht]
  | @additive _ _ _ _ _ _ _ a _ _ hop _ _ ihl ihr =>
    exact reached_operation (.additive a) hop ihl ihr fun _ hl hr =>
      ⟨_, rfl, by simp [Context.termOf?, hl, hr]⟩
  | @relation _ _ _ _ _ _ _ a _ _ hop _ _ ihl ihr =>
    exact reached_operation (.relation a) hop ihl ihr fun _ hl hr =>
      ⟨_, rfl, by simp [Context.termOf?, hl, hr]⟩
  | @connective _ _ _ _ _ _ _ a _ _ hop _ _ ihl ihr =>
    exact reached_operation (.connective a) hop ihl ihr fun _ hl hr =>
      ⟨_, rfl, by simp [Context.termOf?, hl, hr]⟩
  | leftFactor hop hl _ hvalue ihl ihr =>
    refine reached_operation .product hop ihl ihr fun {cx el er} hw htl htr => ?_
    have hliteral := (hl.literal?_eq hw htl).trans hvalue
    have hfactor : cx.isLiteral el = true := by rw [Context.isLiteral_eq, hliteral]; rfl
    exact ⟨.scaling .mul el er, by simp [Context.infixVerdict, hfactor],
      by simp [Context.termOf?, hliteral, htr]⟩
  | rightFactor hop hl hr hnone hvalue ihl ihr =>
    refine reached_operation .product hop ihl ihr fun {cx el er} hw htl htr => ?_
    have hliteral := (hr.literal?_eq hw htr).trans hvalue
    have hother : cx.isLiteral el = false := by
      rw [Context.isLiteral_eq, hl.literal?_eq hw htl, hnone]; rfl
    have hfactor : cx.isLiteral er = true := by rw [Context.isLiteral_eq, hliteral]; rfl
    exact ⟨.scaling .mul er el, by simp [Context.infixVerdict, hother, hfactor],
      by simp [Context.termOf?, hliteral, htl]⟩
  | divisor hop hl hr hvalue ihl ihr =>
    refine reached_operation .quotient hop ihl ihr fun {cx el er} hw htl htr => ?_
    have hliteral := (hr.literal?_eq hw htr).trans hvalue
    have hdivisor : cx.isLiteral er = true := by rw [Context.isLiteral_eq, hliteral]; rfl
    exact ⟨.scaling .div er el, by simp [Context.infixVerdict, hdivisor],
      by simp [Context.termOf?, hliteral, htl]⟩
  | @binding names n colon name type ty hcolon hname htype =>
    rintro s hw rfl rfl rfl
    obtain ⟨s₀, hcourse, hkept, hw₀, hdecls, horigin⟩ := elaborates_binding hw hcolon hname htype
    refine ⟨_, _, hcourse, ?_, ?_⟩
    · rw [← hdecls]; rfl
    · rw [← horigin]
      exact Session.term?_addBinding hw₀ name.text ty
  | @quantifier names n n' op colon name type body q ty t hop hcolon hname htype _ ih =>
    rintro s hw rfl rfl rfl
    obtain ⟨s₀, hcourse, hkept, hw₀, hdecls, horigin⟩ := elaborates_binding hw hcolon hname htype
    obtain ⟨hnode, hid⟩ := s₀.node?_addBinding name.text ty
    have hw₁ := hkept.wellFormed
    obtain ⟨inner, hdeclare, hscopes, hinnerDecls⟩ := Context.exists_declareId_enterScope hid ty none
    have hinner := hw₁.enterScope.declareVar hdeclare
    have hwithin : (s₀.addBinding name.text ty).context.Within inner :=
      (Context.Within.enterScope _).trans (.declareId hdeclare)
    -- in the inner scope the name stands for the new declaration
    rw [← (s₀.within_addBinding name.text ty).origin] at hid
    have hnames := hw₁.meaning_declareId hid hdeclare
    rw [hw.meaning_within hw₁ hkept.within hkept.scopes] at hnames
    have hnext : (s₀.addBinding name.text ty).context.decls.size = s.context.decls.size := by
      rw [← hdecls]; rfl
    have hnextInner : inner.decls.size = s.context.decls.size + 1 := by
      rw [hinnerDecls, Array.size_push, hnext]
    rw [hnext] at hnames
    obtain ⟨e, s₂, he, hn', ht⟩ := ih
      (s := (s₀.addBinding name.text ty).moveTo inner
        (.scopeEntered ((s₀.addBinding name.text ty).context.depth + 1)))
      hinner (hwithin.origin.trans hkept.within.origin) hnames hnextInner
    have hkbody := he.kept hinner
    have hleave := Context.leaveScope_of_push hw₁.depth_pos (hkbody.scopes.trans hscopes)
    have hleft := Context.Within.leaveScope hleave
    have houter := hkbody.wellFormed.leaveScope hleave
    have hb := hleft.node (hkbody.within.node (hwithin.node hnode))
    have hbinding : Tree.IsBinding (.binary colon (.terminal name) type) := hcolon
    have hquantified := Elaborates.quantified (Quantifier.ofToken?_eq_some_iff.2 hop) hbinding hcourse
      hnode hdeclare he hleave rfl
    rw [hkept.within.origin] at hid
    obtain ⟨e', s', hcourse', hn'', ht'⟩ := reached_conclude hquantified houter
      (Context.accepts_quantifier houter hb (hleft.index_lt (hkbody.fresh _ rfl).2))
      (Context.termOf?_quantifier hb (hleft.symbol? (hkbody.within.symbol? (hwithin.symbol? hid)))
        (hleft.term? ht))
    exact ⟨e', s', hcourse', hn''.trans hn', ht'⟩

end Types

/-! ## elaboration decides derivability -/

/-- In every context that can be reached, a tree elaborates to an expression of
a type exactly if it is derivable at that type, and what comes out is unfolded
to the image of the tree under the rules. -/
theorem elaborate_ok_iff_types {s : Session} (h : s.context.Reachable) (tree : Tree) (ty : Ty) :
    ((∃ e s', (elaborate tree).run s = .ok (.ok ⟨e, ty⟩, s')) ↔
      ∃ t n, Types s.context.interner.origin s.context.meaning s.context.decls.size tree ty t n) ∧
    ∀ e s' t n, (elaborate tree).run s = .ok (.ok ⟨e, ty⟩, s') →
      Types s.context.interner.origin s.context.meaning s.context.decls.size tree ty t n →
      s'.context.term? e = some t := by
  have hw := h.wellFormed
  refine ⟨⟨?_, ?_⟩, ?_⟩
  · rintro ⟨e, s', hrun⟩
    obtain ⟨t, htypes, -⟩ := ((run_elaborate_iff hw).1 hrun).types hw _ rfl
    exact ⟨t, _, htypes⟩
  · rintro ⟨t, n, htypes⟩
    obtain ⟨e, s', hcourse, -, -⟩ := htypes.reached hw rfl rfl rfl
    exact ⟨e, s', hcourse.run hw⟩
  · intro e s' t n hrun htypes
    obtain ⟨e', s'', hcourse, -, ht⟩ := htypes.reached hw rfl rfl rfl
    cases hrun.symm.trans (hcourse.run hw)
    exact ht

/-- `forall x : int . x == 1`, in the initial context. -/
theorem elaborate_ok_iff_types_forall :
    let tree : Tree := .binary ⟨.kwForall, "forall", .origin⟩
      (.binary ⟨.colon, ":", .origin⟩ (.terminal ⟨.identifier, "x", .origin⟩)
        (.terminal ⟨.kwInt, "int", .origin⟩))
      (.binary ⟨.equal, "==", .origin⟩ (.terminal ⟨.identifier, "x", .origin⟩)
        (.terminal ⟨.literal, "1", .origin⟩))
    Context.initial.Reachable ∧ ∃ e s',
      (elaborate tree).run ⟨.initial, #[]⟩ = .ok (.ok ⟨e, .bool⟩, s') ∧
      s'.context.term? e = some (.quantifier .all ⟨0, "x"⟩ .int
        (.relation .eq (.var ⟨0, "x"⟩ ⟨2⟩) (.int 1))) := by
  intro tree
  obtain ⟨hiff, hterm⟩ := elaborate_ok_iff_types (s := ⟨.initial, #[]⟩) .initial tree .bool
  have hint : Context.initial.meaning.Designates (.terminal ⟨.kwInt, "int", .origin⟩) .int :=
    ⟨_, ⟨⟨1⟩, .kind, some .int⟩, rfl, rfl, rfl, rfl, rfl⟩
  have hx : (Context.initial.meaning.bind "x" ⟨2⟩ .int) "x" = some ⟨⟨2⟩, .int, none⟩ := rfl
  have hl : Types 0 (Context.initial.meaning.bind "x" ⟨2⟩ .int) 3
      (.terminal ⟨.identifier, "x", .origin⟩) .int (.var ⟨0, "x"⟩ ⟨2⟩) 3 :=
    @Types.name 0 _ 3 ⟨.identifier, "x", .origin⟩ ⟨⟨2⟩, .int, none⟩ rfl hx
  have hr : Types 0 (Context.initial.meaning.bind "x" ⟨2⟩ .int) 3
      (.terminal ⟨.literal, "1", .origin⟩) .int (.int 1) 3 := .literal rfl (by decide)
  have htypes : Types 0 Context.initial.meaning 2 tree .bool _ 3 :=
    .quantifier (q := .all) rfl rfl rfl hint (.relation (a := .eq) rfl hl hr)
  obtain ⟨e, s', hrun⟩ := hiff.2 ⟨_, _, htypes⟩
  exact ⟨.initial, e, s', hrun, hterm e s' _ _ hrun htypes⟩

end ArithLogic
