import ArithLogic.Proofs.Context.Lexical
import ArithLogic.Proofs.Printing.Reelaboration

/-!
# ArithLogic.Proofs.Printing.TypeNames

What the type names in a text mean.  A quantifier is printed with the name of
the type that it binds at, whatever names mean there.  A quantifier around it
may bind that very name, as a program that calls the type by another name is
free to do; then the text says something else, and it is no expression any more
(`History.typeNames_reelaborate`).
-/

namespace ArithLogic

namespace Context

/-- In the expression the quantifier stands in the bodies of the quantifiers `qs`,
innermost first, and binds the name behind `id` at the type, whose name is
written there. -/
def QuantifierAt (cx : Context) (root : NodeRef) (qs : List NodeRef) (q id : NodeRef) (ty : Ty) :
    Prop :=
  cx.Occurs root qs q ∧
    ∃ op b body, cx.node? q = some (.quantifier op b body) ∧ cx.node? b = some (.bind id ty)

/-- One of the quantifiers binds the name. -/
def Binds (cx : Context) (qs : List NodeRef) (name : Symbol) : Prop :=
  ∃ q ∈ qs, ∃ id ty, cx.Quantifies q name id ty

/-- In the bodies of the quantifiers the name of the type designates it. -/
def NamesType (cx : Context) (qs : List NodeRef) (ty : Ty) : Prop :=
  ∃ d id, cx.Resolves cx.top? qs ⟨cx.interner.origin, ty.spelling⟩ d ∧
    cx.decl? d = some ⟨id, .kind, some ty.ref⟩

/-- Wherever the expression writes the name of a type, it is not shadowed, be it
from outside or by a quantifier around it. -/
def Shelters (cx : Context) (root : NodeRef) (shadowed : List String) : Prop :=
  ∀ qs q id ty, cx.QuantifierAt root qs q id ty →
    ty.spelling ∉ shadowed ∧ ¬ cx.Binds qs ⟨cx.interner.origin, ty.spelling⟩

variable {cx : Context} {names top : Resolution} {root q id : NodeRef} {qs : List NodeRef} {ty : Ty}
  {t : Term} {name : Symbol} {shadowed : List String}

theorem binds_append {qs' : List NodeRef} :
    cx.Binds (qs ++ qs') name ↔ cx.Binds qs name ∨ cx.Binds qs' name := by
  simp only [Binds, List.mem_append, or_and_right, exists_or]

/-! ## where type names are written -/

/-- In a node that is no quantifier all quantifiers stand in its children. -/
theorem quantifierAt_node {node : Node NodeRef} (hnode : cx.node? root = some node)
    (hq : ∀ q b body, node ≠ .quantifier q b body) :
    cx.QuantifierAt root qs q id ty ↔ ∃ c ∈ node.children, cx.QuantifierAt c qs q id ty := by
  constructor
  · rintro ⟨ho, op, b, body, hquantifier, hb⟩
    rcases ho.cases_root with ⟨rfl, rfl⟩ | ⟨node', c, hnode', hc, -, ho⟩ |
      ⟨op', b', body', outer, hnode', -, -⟩
    · cases hnode.symm.trans hquantifier
      exact absurd rfl (hq _ _ _)
    · cases hnode.symm.trans hnode'
      exact ⟨c, hc, ho, op, b, body, hquantifier, hb⟩
    · cases hnode.symm.trans hnode'
      exact absurd rfl (hq _ _ _)
  · rintro ⟨c, hc, ho, hquantifier⟩
    exact ⟨ho.of_child hnode hc fun q b body heq => absurd heq (hq q b body), hquantifier⟩

/-- There are no quantifiers in a name or a literal. -/
theorem not_quantifierAt_of_symbol? (h : cx.symbol? root = some name) :
    ¬ cx.QuantifierAt root qs q id ty := by
  rw [quantifierAt_node (node?_of_symbol? h) (by simp)]
  simp [Node.children]

theorem not_quantifierAt_of_literal? {value : Int} (h : cx.literal? root = some value) :
    ¬ cx.QuantifierAt root qs q id ty := by
  rw [quantifierAt_node (node?_of_literal? h) (by simp)]
  simp [Node.children]

/-- A quantifier stands where it stands, and the others in its body. -/
theorem quantifierAt_quantifier {op : Quantifier} {b body bound : NodeRef} {boundTy : Ty}
    (hnode : cx.node? root = some (.quantifier op b body))
    (hb : cx.node? b = some (.bind bound boundTy)) (hid : cx.symbol? bound = some name) :
    cx.QuantifierAt root qs q id ty ↔ (qs = [] ∧ q = root ∧ id = bound ∧ ty = boundTy) ∨
      ∃ inner, qs = inner ++ [root] ∧ cx.QuantifierAt body inner q id ty := by
  constructor
  · rintro ⟨ho, op', b', body', hquantifier, hb'⟩
    rcases ho.cases_root with ⟨rfl, rfl⟩ | ⟨node', c, hnode', -, hbinding, ho⟩ |
      ⟨_, _, _, inner, hnode', rfl, ho⟩
    · cases hnode.symm.trans hquantifier
      cases hb.symm.trans hb'
      exact .inl ⟨rfl, rfl, rfl, rfl⟩
    · -- there is no quantifier in the binding
      cases hnode.symm.trans hnode'
      obtain rfl := hbinding _ _ _ rfl
      have hinside : cx.QuantifierAt c qs q id ty := ⟨ho, op', b', body', hquantifier, hb'⟩
      rw [quantifierAt_node hb (by simp)] at hinside
      obtain ⟨_, hc, hinside⟩ := hinside
      obtain rfl := List.mem_singleton.1 hc
      exact (not_quantifierAt_of_symbol? hid hinside).elim
    · cases hnode.symm.trans hnode'
      exact .inr ⟨inner, rfl, ho, op', b', body', hquantifier, hb'⟩
  · rintro (⟨rfl, rfl, rfl, rfl⟩ | ⟨inner, rfl, ho, hquantifier⟩)
    · exact ⟨.root, op, b, body, hnode, hb⟩
    · exact ⟨ho.of_body hnode, hquantifier⟩

/-- What a quantifier binds was declared, and at no type of types. -/
theorem Scoped.exists_decl {outerTy : Ty} (h : cx.Scoped names root outerTy)
    (hq : cx.QuantifierAt root qs q id ty) :
    ty ≠ .kind ∧ ∃ d, cx.decl? d = some ⟨id, ty, none⟩ := by
  induction h generalizing qs with
  | bool hnode | int hnode | var hnode =>
    rw [quantifierAt_node hnode (by simp)] at hq
    simp [Node.children] at hq
  | additive hnode _ _ ihl ihr | relation hnode _ _ ihl ihr | connective hnode _ _ ihl ihr =>
    rw [quantifierAt_node hnode (by simp)] at hq
    simp only [Node.children, List.mem_cons, List.not_mem_nil, or_false, exists_eq_or_imp,
      exists_eq_left] at hq
    exact hq.elim ihl ihr
  | scaling hnode hfactor _ _ ih =>
    rw [quantifierAt_node hnode (by simp)] at hq
    simp only [Node.children, List.mem_cons, List.not_mem_nil, or_false, exists_eq_or_imp,
      exists_eq_left, not_quantifierAt_of_literal? hfactor, false_or] at hq
    exact ih hq
  | sign hnode _ ih | not hnode _ ih =>
    rw [quantifierAt_node hnode (by simp)] at hq
    simp only [Node.children, List.mem_singleton, exists_eq_left] at hq
    exact ih hq
  | quantifier hnode hb hid _ _ hd hty _ ih =>
    rw [quantifierAt_quantifier hnode hb hid] at hq
    rcases hq with ⟨-, -, rfl, rfl⟩ | ⟨inner, -, hinner⟩
    · exact ⟨hty, _, hd⟩
    · exact ih hinner

/-! ## what they designate -/

/-- Some quantifier is the innermost one that binds the name. -/
theorem Binds.exists_innermost (h : cx.Binds qs name) : ∃ inner q outer id ty,
    qs = inner ++ q :: outer ∧ cx.Quantifies q name id ty ∧
      ∀ q' ∈ inner, ∀ id' ty', ¬ cx.Quantifies q' name id' ty' := by
  induction qs with
  | nil =>
    obtain ⟨_, hmem, _⟩ := h
    cases hmem
  | cons q qs ih =>
    by_cases hq : ∃ id ty, cx.Quantifies q name id ty
    · obtain ⟨id, ty, hq⟩ := hq
      exact ⟨[], q, qs, id, ty, rfl, hq, by simp⟩
    · have hrest : cx.Binds qs name := by
        obtain ⟨q', hmem, hq'⟩ := h
        rcases List.mem_cons.1 hmem with rfl | hmem
        · exact (hq hq').elim
        · exact ⟨q', hmem, hq'⟩
      obtain ⟨inner, q', outer, id, ty, rfl, hq', hinner⟩ := ih hrest
      refine ⟨q :: inner, q', outer, id, ty, rfl, hq', List.forall_mem_cons.2 ⟨?_, hinner⟩⟩
      exact fun id' ty' hquantifies => hq ⟨id', ty', hquantifies⟩

/-- The name of a type designates it if no quantifier binds the name. -/
theorem WellFormed.namesType (hw : cx.WellFormed) (hwithin : Within .initial cx)
    (hty : ty ≠ .kind) (h : ¬ cx.Binds qs ⟨cx.interner.origin, ty.spelling⟩) :
    cx.NamesType qs ty := by
  obtain ⟨env, hlast, hbool, hint⟩ := hw.top
  have hfree : ∀ q ∈ qs, ∀ id ty', ¬ cx.Quantifies q ⟨cx.interner.origin, ty.spelling⟩ id ty' :=
    fun q hq id ty' hquantifies => h ⟨q, hq, id, ty', hquantifies⟩
  have of_top {d : DeclRef} {id : NodeRef}
      (hfind : env.find? ⟨cx.interner.origin, ty.spelling⟩ = some d)
      (hdecl : initial.decl? d = some ⟨id, .kind, some ty.ref⟩) : cx.NamesType qs ty := by
    refine ⟨d, id, .inr ⟨hfree, ?_⟩, hwithin.decl hdecl⟩
    rw [top?, hlast]
    exact hfind
  cases ty with
  | bool => exact of_top hbool rfl
  | int => exact of_top hint rfl
  | kind => exact (hty rfl).elim

/-- A name that a quantifier binds stands for a variable. -/
theorem NamesType.not_binds (h : cx.NamesType qs ty) :
    ¬ cx.Binds qs ⟨cx.interner.origin, ty.spelling⟩ := by
  obtain ⟨d, id, ⟨_, _, _, _, _, -, -, -, hdecl⟩ | ⟨hnone, -⟩, htype⟩ := h
  · cases hdecl.symm.trans htype
  · rintro ⟨q, hq, id', ty', hquantifies⟩
    exact hnone q hq id' ty' hquantifies

/-- Where a quantifier binds the name, it stands for a variable, whose type is not
the type of types. -/
theorem Scoped.resolves_of_binds {outerTy : Ty} (h : cx.Scoped names root outerTy)
    (ho : cx.Occurs root qs q) (hbinds : cx.Binds qs name) : ∃ d id found,
      cx.Resolves top qs name d ∧ cx.decl? d = some ⟨id, found, none⟩ ∧ found ≠ .kind := by
  obtain ⟨inner, q', outer, id, found, rfl, hquantifies, hinner⟩ := hbinds.exists_innermost
  obtain ⟨around, ho'⟩ := ho.exists_of_mem (List.mem_append_right inner List.mem_cons_self)
  obtain ⟨op, b, body, hnode, hb, hid⟩ := hquantifies
  obtain ⟨hne, d, hd⟩ := h.exists_decl ⟨ho', op, b, body, hnode, hb⟩
  exact ⟨d, id, found, .inl ⟨inner, q', outer, id, found, rfl, ⟨op, b, body, hnode, hb, hid⟩,
    hinner, hd⟩, hd, hne⟩

/-! ## sheltered expressions -/

theorem shelters_node {node : Node NodeRef} (hnode : cx.node? root = some node)
    (hq : ∀ q b body, node ≠ .quantifier q b body) :
    cx.Shelters root shadowed ↔ ∀ c ∈ node.children, cx.Shelters c shadowed := by
  simp only [Shelters, quantifierAt_node hnode hq]
  exact ⟨fun h c hc qs q id ty hq => h qs q id ty ⟨c, hc, hq⟩,
    fun h qs q id ty ⟨c, hc, hq⟩ => h c hc qs q id ty hq⟩

/-- Names are sheltered in a quantifier if its own type is, and those in the body
also from the name that it binds. -/
theorem shelters_quantifier {op : Quantifier} {b id body : NodeRef} {bound : Ty} {text : String}
    (hnode : cx.node? root = some (.quantifier op b body))
    (hb : cx.node? b = some (.bind id bound))
    (hid : cx.symbol? id = some ⟨cx.interner.origin, text⟩) :
    cx.Shelters root shadowed ↔
      bound.spelling ∉ shadowed ∧ cx.Shelters body (text :: shadowed) := by
  have hbinds : ∀ ty : Ty,
      cx.Binds [root] ⟨cx.interner.origin, ty.spelling⟩ ↔ ty.spelling = text := by
    intro ty
    constructor
    · rintro ⟨q, hq, id', ty', _, b', _, hnode', hb', hid'⟩
      obtain rfl := List.mem_singleton.1 hq
      cases hnode.symm.trans hnode'
      cases hb.symm.trans hb'
      cases hid.symm.trans hid'
      rfl
    · rintro rfl
      exact ⟨root, List.mem_singleton_self _, id, bound, op, b, body, hnode, hb, hid⟩
  simp only [Shelters, quantifierAt_quantifier hnode hb hid]
  constructor
  · intro h
    refine ⟨(h [] root id bound (.inl ⟨rfl, rfl, rfl, rfl⟩)).1, fun qs q i ty hq => ?_⟩
    obtain ⟨hfree, hnot⟩ := h _ q i ty (.inr ⟨qs, rfl, hq⟩)
    rw [binds_append, hbinds, not_or] at hnot
    exact ⟨by simpa [hnot.2] using hfree, hnot.1⟩
  · rintro ⟨hfree, hbody⟩ qs q i ty (⟨rfl, -, -, rfl⟩ | ⟨inner, rfl, hq⟩)
    · exact ⟨hfree, fun ⟨_, hmem, _⟩ => nomatch hmem⟩
    · obtain ⟨hinner, hnot⟩ := hbody inner q i ty hq
      rw [List.mem_cons, not_or] at hinner
      rw [binds_append, hbinds, not_or]
      exact ⟨hinner.2, hnot, hinner.1⟩

/-- The term of an expression is sheltered if the expression is. -/
theorem Scoped.sheltered_iff (h : cx.Scoped names root ty) (hw : cx.WellFormed)
    (ht : cx.term? root = some t) : t.Sheltered shadowed ↔ cx.Shelters root shadowed := by
  induction h generalizing t shadowed with
  | bool hnode | int hnode | var hnode =>
    rw [hw.term?_eq hnode] at ht
    cases ht
    rw [shelters_node hnode (by simp)]
    simp [Term.Sheltered, Node.children]
  | additive hnode _ _ ihl ihr =>
    obtain ⟨tl, tr, hl, hr, rfl⟩ := hw.term?_additive hnode ht
    rw [shelters_node hnode (by simp)]
    simp [Term.Sheltered, Node.children, ihl hl, ihr hr]
  | relation hnode _ _ ihl ihr =>
    obtain ⟨tl, tr, hl, hr, rfl⟩ := hw.term?_relation hnode ht
    rw [shelters_node hnode (by simp)]
    simp [Term.Sheltered, Node.children, ihl hl, ihr hr]
  | connective hnode _ _ ihl ihr =>
    obtain ⟨tl, tr, hl, hr, rfl⟩ := hw.term?_connective hnode ht
    rw [shelters_node hnode (by simp)]
    simp [Term.Sheltered, Node.children, ihl hl, ihr hr]
  | scaling hnode hfactor _ _ ih =>
    obtain ⟨u, ho, rfl⟩ := hw.term?_scaling hnode hfactor ht
    have hliteral : cx.Shelters _ shadowed := fun _ _ _ _ hq =>
      (not_quantifierAt_of_literal? hfactor hq).elim
    rw [shelters_node hnode (by simp)]
    simp [Term.Sheltered, Node.children, ih ho, hliteral]
  | sign hnode _ ih =>
    obtain ⟨u, ho, rfl⟩ := hw.term?_sign hnode ht
    rw [shelters_node hnode (by simp)]
    simp [Term.Sheltered, Node.children, ih ho]
  | not hnode _ ih =>
    obtain ⟨u, ho, rfl⟩ := hw.term?_not hnode ht
    rw [shelters_node hnode (by simp)]
    simp [Term.Sheltered, Node.children, ih ho]
  | @quantifier _ _ _ _ _ _ _ name _ hnode hb hid horigin _ _ _ _ ih =>
    obtain ⟨tb, htb, rfl⟩ := hw.term?_quantifier hnode hb hid ht
    obtain ⟨origin, text⟩ := name
    cases horigin
    rw [shelters_quantifier hnode hb hid]
    exact and_congr_right fun _ => ih htb

end Context

/-! ## what is derived is sheltered -/

namespace Types

variable {origin n n' : Nat} {ns : Naming} {op : Token} {left right : Tree} {ty : Ty} {t : Term}

/-- The operands of an infix operator are derived. -/
theorem operands (h : Types origin ns n (.binary op left right) ty t n') (form : InfixForm)
    (hop : op.kind = form.token) : ∃ tyl l n₁ tyr r,
      Types origin ns n left tyl l n₁ ∧ Types origin ns n₁ right tyr r n' := by
  have hform := InfixForm.ofToken?_eq_some_iff.2 hop
  cases h with
  | additive _ hl hr | relation _ hl hr | connective _ hl hr | leftFactor _ hl hr
  | rightFactor _ hl hr | divisor _ hl hr => exact ⟨_, _, _, _, _, hl, hr⟩
  | binding hcolon =>
    rw [hcolon] at hform
    cases hform
  | @quantifier _ _ _ _ _ _ _ _ q _ _ hq =>
    rw [hq] at hform
    cases q <;> cases hform

theorem operand {operand : Tree} (h : Types origin ns n (.unary op operand) ty t n') :
    ∃ ty' t', Types origin ns n operand ty' t' n' := by
  cases h with
  | sign _ ho | not _ ho => exact ⟨_, _, ho⟩

/-- The type of what is quantified designates a type, and the body is derived. -/
theorem body {colon name : Token} {type body : Tree} {q : Quantifier}
    (h : Types origin ns n (.binary op (.binary colon (.terminal name) type) body) ty t n')
    (hop : op.kind = q.token) : ∃ bound t', ns.Designates type bound ∧
      Types origin (ns.bind name.text ⟨n⟩ bound) (n + 1) body .bool t' n' := by
  cases h with
  | quantifier _ _ _ htype hbody => exact ⟨_, _, htype, hbody⟩
  | @additive _ _ _ _ _ _ _ a _ _ hother | @relation _ _ _ _ _ _ _ a _ _ hother
  | @connective _ _ _ _ _ _ _ a _ _ hother => cases q <;> cases a <;> cases hother.symm.trans hop
  | leftFactor hother | rightFactor hother | divisor hother =>
    cases q <;> cases hother.symm.trans hop

/-- A tree is derived only if the names of types in the term that it was written
for are not shadowed by names that stand for variables. -/
theorem sheltered {tree : Tree} {t' : Term} {shadowed : List String}
    (h : Types origin ns n tree ty t' n') (hwritten : Term.Written t tree)
    (hshadowed : ∀ text ∈ shadowed, ∃ meaning, ns text = some meaning ∧ meaning.ty ≠ .kind)
    (hkind : ∀ text meaning, ns text = some meaning → meaning.designates ≠ some .kind) :
    t.Sheltered shadowed := by
  induction hwritten generalizing ns n n' ty t' shadowed with
  | id | var | bool | int | type => trivial
  | @additive a _ _ _ _ _ htoken _ _ ihl ihr =>
    obtain ⟨_, _, _, _, _, hl, hr⟩ := h.operands (.additive a) (Term.kind_of_unplaced htoken)
    exact ⟨ihl hl hshadowed hkind, ihr hr hshadowed hkind⟩
  | @relation a _ _ _ _ _ htoken _ _ ihl ihr =>
    obtain ⟨_, _, _, _, _, hl, hr⟩ := h.operands (.relation a) (Term.kind_of_unplaced htoken)
    exact ⟨ihl hl hshadowed hkind, ihr hr hshadowed hkind⟩
  | @connective a _ _ _ _ _ htoken _ _ ihl ihr =>
    obtain ⟨_, _, _, _, _, hl, hr⟩ := h.operands (.connective a) (Term.kind_of_unplaced htoken)
    exact ⟨ihl hl hshadowed hkind, ihr hr hshadowed hkind⟩
  | product htoken _ _ ih =>
    obtain ⟨_, _, _, _, _, -, hr⟩ := h.operands .product (Term.kind_of_unplaced htoken)
    exact (ih hr hshadowed hkind :)
  | quotient htoken _ _ ih =>
    obtain ⟨_, _, _, _, _, hl, -⟩ := h.operands .quotient (Term.kind_of_unplaced htoken)
    exact (ih hl hshadowed hkind :)
  | sign _ _ ih | not _ _ ih =>
    obtain ⟨_, _, ho⟩ := h.operand
    exact (ih ho hshadowed hkind :)
  | enclosed _ ih =>
    cases h with
    | enclosed hbody => exact ih hbody hshadowed hkind
  | @quantifier _ name written _ _ _ bound type _ htoken _ hname htype _ ih =>
    obtain ⟨ty', _, hdesignates, hbody⟩ := h.body (Term.kind_of_unplaced htoken)
    obtain ⟨_, meaning, htree, -, hmeaning, hty, hvalue⟩ := hdesignates
    cases htree
    have hnameText : bound.text = name.text := congrArg Token.text hname
    have htypeText : type.text = written.spelling := congrArg Token.text htype
    rw [hnameText] at hbody
    refine ⟨fun hmem => ?_, ih hbody (fun text hmem => ?_) fun text found hfound => ?_⟩
    · obtain ⟨found, hfound, hne⟩ := hshadowed _ hmem
      rw [htypeText] at hmeaning
      cases hmeaning.symm.trans hfound
      exact hne hty
    · by_cases heq : text = name.text
      · exact ⟨_, if_pos heq, fun hbound =>
          hkind _ _ hmeaning (hvalue.trans (congrArg some hbound))⟩
      · obtain ⟨found, hfound, hne⟩ := hshadowed _ ((List.mem_cons.1 hmem).resolve_left heq)
        exact ⟨found, (if_neg heq).trans hfound, hne⟩
    · unfold Naming.bind at hfound
      split at hfound
      · cases hfound
        exact (Option.some_ne_none _).symm
      · exact hkind _ _ hfound

end Types

/-! ## printed texts -/

namespace Context

variable {cx : Context} {e : NodeRef} {ty : Ty} {t : Term}

/-- No name designates the type of types. -/
theorem NoKind.meaning_ne (h : cx.NoKind) (hw : cx.WellFormed) {text : String} {meaning : Meaning}
    (hmeaning : cx.meaning text = some meaning) : meaning.designates ≠ some .kind := by
  obtain ⟨d, -, hmeaning⟩ := Option.bind_eq_some_iff.1 hmeaning
  obtain ⟨decl, hdecl, hmeaning⟩ := Option.bind_eq_some_iff.1 hmeaning
  cases hmeaning
  intro hkind
  obtain ⟨init, hinit, htype⟩ := Option.bind_eq_some_iff.1 hkind
  rw [hw.type_iff] at htype
  exact h d decl hdecl (hinit.trans (congrArg some htype))

end Context

/-- At a quantifier of a scoped expression the name of its type designates it
exactly if no quantifier around it binds the name, which else stands for a
variable. -/
theorem Settled.namesType_iff {cx : Context} {results : List Elaboration} {root q id : NodeRef}
    {qs : List NodeRef} {ty rootTy : Ty} (h : Settled cx results)
    (hscoped : cx.Scoped cx.scopes.find? root rootTy) (hq : cx.QuantifierAt root qs q id ty) :
    cx.NamesType qs ty ↔ ¬ cx.Binds qs ⟨cx.interner.origin, ty.spelling⟩ :=
  ⟨Context.NamesType.not_binds, h.wellFormed.namesType h.within (hscoped.exists_decl hq).1⟩

/-- The text of a scoped expression is elaborated exactly if the names of types in
it are sheltered. -/
theorem Settled.elaborate_render_iff {s : Session} {results : List Elaboration}
    (h : Settled s.context results) {e : NodeRef} {ty : Ty}
    (hscoped : s.context.Scoped s.context.scopes.find? e ty) (width : Nat) :
    ∃ tree outcome s', parseExpression (s.context.render e width) = .ok tree ∧
      (elaborate tree).run s = .ok (outcome, s') ∧
      ((∃ found, outcome = .ok found) ↔ s.context.Shelters e []) ∧
      ∀ found, outcome = .ok found → found.ty = ty ∧
        s'.context.AlphaEq s.context.scopes.find? [] e found.expr ∧
        ∀ w, s'.context.render found.expr w = s.context.render e w := by
  have hw := h.wellFormed
  obtain ⟨t, ht⟩ := hw.exists_term hscoped.index_lt
  obtain ⟨tree, hparse, hwritten, hshape⟩ :=
    Term.exists_parseExpression (hscoped.printable hw ht) width
  obtain ⟨⟨outcome, s'⟩, hcourse⟩ := exists_elaborates tree hw
  have hrun := hcourse.run hw
  have hread : parseExpression (s.context.render e width) = .ok tree := by
    rw [Context.render, ht]
    exact hparse
  -- whatever the tree elaborates to is derived, so nothing is shadowed
  have hforth : ∀ found, outcome = .ok found → t.Sheltered [] := fun found hok => by
    obtain ⟨t', htypes, -⟩ := hcourse.types hw found hok
    exact htypes.sheltered hwritten (by simp) fun _ _ => h.noKind.meaning_ne hw
  -- and where nothing is shadowed it is derived at the type of the expression
  have hback : t.Sheltered [] → ∃ found, outcome = .ok found ∧ found.ty = ty ∧
      s'.context.AlphaEq s.context.scopes.find? [] e found.expr ∧
      ∀ w, s'.context.render found.expr w = s.context.render e w := fun hsheltered => by
    obtain ⟨t', n', -, htypes, hsame, -⟩ := hscoped.retype_of_sheltered hw ht hwritten hsheltered
      (by simp) (hw.follows h.within h.depth) (Nat.le_refl _)
    obtain ⟨e', s'', hcourse', -, ht'⟩ := htypes.reached hw rfl rfl rfl
    cases hrun.symm.trans (hcourse'.run hw)
    have hkept := hcourse.kept hw
    have hagain := hcourse.scoped hshape hw h.noKind rfl
    have hfaithful : s'.context.Faithful s.context.scopes.find? := fun _ _ hd =>
      hkept.within.declName? (hw.declName?_of_find? hd)
    refine ⟨_, rfl, rfl, (hscoped.within hkept.within).alphaEq hkept.wellFormed hagain
      (hkept.within.term? ht) ht' hsame hfaithful.paired, fun w => ?_⟩
    rw [Context.render, ht', Context.render, ht]
    exact Term.render_eq_of_unresolved hsame w
  refine ⟨tree, outcome, s', hread, hrun, ?_, fun found hok => ?_⟩
  · rw [← hscoped.sheltered_iff hw ht]
    constructor
    · rintro ⟨found, hok⟩
      exact hforth found hok
    · intro hsheltered
      obtain ⟨found, hok, -⟩ := hback hsheltered
      exact ⟨found, hok⟩
  · obtain ⟨found', hok', hresult⟩ := hback (hforth found hok)
    cases hok.symm.trans hok'
    exact hresult

/-- At a quantifier of a result the name of its type designates the type exactly
if no quantifier around it binds that name; if one does, the name stands for a
variable.  The text of the result is elaborated again exactly if all its
quantifiers name their types, and then to the same expression but for the
declarations of bound variables, so at the same types; otherwise it is not
elaborated at all. -/
theorem History.typeNames_reelaborate {s : Session} {results : List Elaboration}
    (h : History s results) {r : Elaboration} (hr : r ∈ results)
    (hbinding : s.context.isBinding r.expr = false) :
    (∀ qs q id ty, s.context.QuantifierAt r.expr qs q id ty →
      (s.context.NamesType qs ty ↔
        ¬ s.context.Binds qs ⟨s.context.interner.origin, ty.spelling⟩) ∧
      (s.context.Binds qs ⟨s.context.interner.origin, ty.spelling⟩ → ∃ d id' found,
        s.context.Resolves s.context.top? qs ⟨s.context.interner.origin, ty.spelling⟩ d ∧
          s.context.decl? d = some ⟨id', found, none⟩ ∧ found ≠ .kind)) ∧
    ∀ width, ∃ tree outcome s', parseExpression (s.context.render r.expr width) = .ok tree ∧
      (elaborate tree).run s = .ok (outcome, s') ∧
      ((∃ e, outcome = .ok e) ↔
        ∀ qs q id ty, s.context.QuantifierAt r.expr qs q id ty → s.context.NamesType qs ty) ∧
      ∀ e, outcome = .ok e → e.ty = r.ty ∧
        s'.context.AlphaEq s.context.scopes.find? [] r.expr e.expr ∧
        ∀ w, s'.context.render e.expr w = s.context.render r.expr w := by
  have hsettled := h.settled
  have hscoped := (hsettled.results r hr).resolved hbinding
  refine ⟨fun qs q id ty hq => ⟨hsettled.namesType_iff hscoped hq, fun hbinds =>
    hscoped.resolves_of_binds hq.1 hbinds⟩, fun width => ?_⟩
  obtain ⟨tree, outcome, s', hparse, hrun, hiff, hresult⟩ :=
    hsettled.elaborate_render_iff hscoped width
  refine ⟨tree, outcome, s', hparse, hrun, hiff.trans ?_, hresult⟩
  constructor
  · intro hshelters qs q id ty hq
    exact (hsettled.namesType_iff hscoped hq).2 (hshelters qs q id ty hq).2
  · intro hnames qs q id ty hq
    exact ⟨List.not_mem_nil, (hsettled.namesType_iff hscoped hq).1 (hnames qs q id ty hq)⟩

/-- In the body of a quantifier another one stands, and the name is bound. -/
theorem Context.quantifierAt_body {cx : Context} {q b id inner b' id' body : NodeRef}
    {op op' : Quantifier} {ty ty' : Ty} {name : Symbol}
    (hnode : cx.node? q = some (.quantifier op b inner)) (hb : cx.node? b = some (.bind id ty))
    (hid : cx.symbol? id = some name) (hinner : cx.node? inner = some (.quantifier op' b' body))
    (hb' : cx.node? b' = some (.bind id' ty')) :
    cx.QuantifierAt q [q] inner id' ty' ∧ cx.Binds [q] name :=
  ⟨⟨.body .root hnode, op', b', body, hinner, hb'⟩,
    q, List.mem_singleton_self _, id, ty, op, b, inner, hnode, hb, hid⟩

/-- After `let B = bool` a quantifier may bind `bool`, and one in its body the type
by its other name.  The text writes `bool` for both. -/
theorem History.typeNames_reelaborate_shadowed : ∃ s results r tree outcome s',
    History s results ∧ r ∈ results ∧
      s.context.QuantifierAt r.expr [r.expr] ⟨14⟩ ⟨11⟩ .bool ∧
      ¬ s.context.NamesType [r.expr] .bool ∧
      parseExpression (s.context.render r.expr 80) = .ok tree ∧
      (elaborate tree).run s = .ok (outcome, s') ∧ ¬ ∃ e, outcome = .ok e := by
  have hparse : (parseProgram "let B = bool; forall bool : int . exists y : B . y").toOption = some
      [.binary ⟨.assign, "=", ⟨6, 7⟩⟩ (.terminal ⟨.identifier, "B", ⟨4, 5⟩⟩)
        (.terminal ⟨.kwBool, "bool", ⟨8, 12⟩⟩),
      .binary ⟨.kwForall, "forall", ⟨14, 20⟩⟩
        (.binary ⟨.colon, ":", ⟨26, 27⟩⟩ (.terminal ⟨.kwBool, "bool", ⟨21, 25⟩⟩)
          (.terminal ⟨.kwInt, "int", ⟨28, 31⟩⟩))
        (.binary ⟨.kwExists, "exists", ⟨34, 40⟩⟩
          (.binary ⟨.colon, ":", ⟨43, 44⟩⟩ (.terminal ⟨.identifier, "y", ⟨41, 42⟩⟩)
            (.terminal ⟨.identifier, "B", ⟨45, 46⟩⟩)) (.terminal ⟨.identifier, "y", ⟨49, 50⟩⟩))] := by
    decide +kernel
  let known : Context → Bool := fun cx =>
    cx.node? ⟨15⟩ == some (.quantifier .all ⟨9⟩ ⟨14⟩) && cx.node? ⟨9⟩ == some (.bind ⟨8⟩ .int) &&
      cx.symbol? ⟨8⟩ == some ⟨cx.interner.origin, "bool"⟩ &&
      cx.node? ⟨14⟩ == some (.quantifier .ex ⟨12⟩ ⟨13⟩) && cx.node? ⟨12⟩ == some (.bind ⟨11⟩ .bool)
  obtain ⟨s, hhistory, hknown⟩ :=
    exists_of_program [⟨⟨5⟩, .kind⟩, ⟨⟨15⟩, .bool⟩] known hparse (by decide +kernel)
  simp only [known, Bool.and_eq_true, beq_iff_eq, and_assoc] at hknown
  obtain ⟨hnode, hb, hid, hinner, hb'⟩ := hknown
  obtain ⟨hquantifier, hbinds⟩ := Context.quantifierAt_body hnode hb hid hinner hb'
  have hbinding : s.context.isBinding ⟨15⟩ = false := by simp [Context.isBinding, hnode]
  obtain ⟨hplaces, htexts⟩ := hhistory.typeNames_reelaborate
    (List.mem_cons_of_mem _ List.mem_cons_self) hbinding
  have hnot : ¬ s.context.NamesType [⟨15⟩] .bool :=
    fun hnames => (hplaces _ _ _ _ hquantifier).1.1 hnames hbinds
  obtain ⟨tree, outcome, s', hagain, hrun, hiff, -⟩ := htexts 80
  exact ⟨s, _, ⟨⟨15⟩, .bool⟩, tree, outcome, s', hhistory,
    List.mem_cons_of_mem _ List.mem_cons_self, hquantifier, hnot, hagain, hrun,
    fun hok => hnot (hiff.1 hok _ _ _ _ hquantifier)⟩

/-- The type that `T` stands for is printed as `int`, which a quantifier around it
has bound: read again, the text is found to use a number as a type. -/
theorem History.typeNames_captured : ∃ s results r tree s', History s results ∧ r ∈ results ∧
    s.context.isBinding r.expr = false ∧
    s.context.QuantifierAt r.expr [r.expr] ⟨14⟩ ⟨11⟩ .int ∧
    ¬ s.context.NamesType [r.expr] .int ∧
    parseExpression (s.context.render r.expr 80) = .ok tree ∧
    (elaborate tree).run s = .ok (.error (.typeMismatch .kind .int), s') := by
  let definition : Tree := .binary ⟨.assign, "=", ⟨6, 7⟩⟩ (.terminal ⟨.identifier, "T", ⟨4, 5⟩⟩)
    (.terminal ⟨.kwInt, "int", ⟨8, 11⟩⟩)
  let formula : Tree := .binary ⟨.kwForall, "forall", ⟨13, 19⟩⟩
    (.binary ⟨.colon, ":", ⟨24, 25⟩⟩ (.terminal ⟨.kwInt, "int", ⟨20, 23⟩⟩)
      (.terminal ⟨.kwInt, "int", ⟨26, 29⟩⟩))
    (.binary ⟨.kwExists, "exists", ⟨32, 38⟩⟩
      (.binary ⟨.colon, ":", ⟨41, 42⟩⟩ (.terminal ⟨.identifier, "y", ⟨39, 40⟩⟩)
        (.terminal ⟨.identifier, "T", ⟨43, 44⟩⟩)) (.terminal ⟨.kwTrue, "true", ⟨47, 51⟩⟩))
  have hparse : (parseProgram "let T = int; forall int : int . exists y : T . true").toOption =
      some [definition, formula] := by decide +kernel
  let known : Session → Bool := fun s =>
    s.context.node? ⟨15⟩ == some (.quantifier .all ⟨9⟩ ⟨14⟩) &&
      s.context.node? ⟨9⟩ == some (.bind ⟨8⟩ .int) &&
      s.context.symbol? ⟨8⟩ == some ⟨s.context.interner.origin, "int"⟩ &&
      s.context.node? ⟨14⟩ == some (.quantifier .ex ⟨12⟩ ⟨13⟩) &&
      s.context.node? ⟨12⟩ == some (.bind ⟨11⟩ .int)
  let mismatched : Session → Bool := fun s =>
    ((parseExpression (s.context.render ⟨15⟩ 80)).toOption.bind fun tree =>
      ((elaborate tree).run s).toOption).any fun again =>
        match again.1 with
        | .error error => error == .typeMismatch .kind .int
        | .ok _ => false
  have hruns : (elaborateProgram [definition, formula] ⟨.initial, #[]⟩).toOption.map (fun out =>
      (out.1.filterMap Except.toOption, known out.2, mismatched out.2)) =
        some ([⟨⟨5⟩, .kind⟩, ⟨⟨15⟩, .bool⟩], true, true) := by decide +kernel
  obtain ⟨⟨outcomes, s⟩, hout, heq⟩ := Option.map_eq_some_iff.1 hruns
  simp only [Prod.mk.injEq] at heq
  obtain ⟨hresults, hknown, hmismatched⟩ := heq
  have hhistory : History s (outcomes.filterMap Except.toOption) :=
    .program .start (eq_ok_of_toOption hparse) (eq_ok_of_toOption hout)
  rw [hresults] at hhistory
  simp only [known, Bool.and_eq_true, beq_iff_eq, and_assoc] at hknown
  obtain ⟨hnode, hb, hid, hinner, hb'⟩ := hknown
  obtain ⟨hquantifier, hbinds⟩ := Context.quantifierAt_body hnode hb hid hinner hb'
  obtain ⟨⟨outcome, s'⟩, hagain, herror⟩ := (Option.any_eq_true _ _).1 hmismatched
  obtain ⟨tree, htree, hrun⟩ := Option.bind_eq_some_iff.1 hagain
  cases outcome with
  | ok e => cases herror
  | error error =>
    obtain rfl := beq_iff_eq.1 herror
    exact ⟨s, _, ⟨⟨15⟩, .bool⟩, tree, s', hhistory, List.mem_cons_of_mem _ List.mem_cons_self,
      by simp [Context.isBinding, hnode], hquantifier, fun hnames => hnames.not_binds hbinds,
      eq_ok_of_toOption htree, eq_ok_of_toOption hrun⟩

end ArithLogic
