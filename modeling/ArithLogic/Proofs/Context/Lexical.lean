import ArithLogic.Proofs.Context.Scoped

/-!
# ArithLogic.Proofs.Context.Lexical

Where a variable stands and what it refers to.  `cx.Occurs root qs v` is an
occurrence of `v` in the expression `root`, with the quantifiers in whose bodies
it stands; `cx.Resolves top qs name d` is the rule of lexical scoping: the
innermost of them that binds the name counts, and if there is none what the name
means at the top.

`cx.Lexical names e` says the same of all variables in `e` at once, along the
expression; unlike `Context.Scoped` it says nothing of types, so it survives
every way of bringing an expression into normal form, also the negation of what
is no formula (`Normalizes.lexical`).
-/

namespace ArithLogic

namespace Context

/-- An occurrence of a node in an expression, with the quantifiers in whose
bodies it stands, innermost first.  The binding of a quantifier does not stand
in its body. -/
inductive Occurs (cx : Context) (root : NodeRef) : List NodeRef → NodeRef → Prop
  | root : Occurs cx root [] root
  | child {qs : List NodeRef} {p c : NodeRef} {node : Node NodeRef} :
      Occurs cx root qs p → cx.node? p = some node → c ∈ node.children →
      (∀ q b body, node = .quantifier q b body → c = b) → Occurs cx root qs c
  | body {qs : List NodeRef} {p b body : NodeRef} {q : Quantifier} :
      Occurs cx root qs p → cx.node? p = some (.quantifier q b body) →
      Occurs cx root (p :: qs) body

/-- The node is a quantifier that binds the name, with the node of the name and
the type of the binding. -/
def Quantifies (cx : Context) (q : NodeRef) (name : Symbol) (id : NodeRef) (ty : Ty) : Prop :=
  ∃ op b body, cx.node? q = some (.quantifier op b body) ∧ cx.node? b = some (.bind id ty) ∧
    cx.symbol? id = some name

/-- What a name refers to in the bodies of some quantifiers, innermost first:
the declaration of the first one that binds it, and if none does what the name
means at the top. -/
def Resolves (cx : Context) (top : Resolution) (qs : List NodeRef) (name : Symbol)
    (d : DeclRef) : Prop :=
  (∃ inner q outer id ty, qs = inner ++ q :: outer ∧ cx.Quantifies q name id ty ∧
      (∀ q' ∈ inner, ∀ id' ty', ¬ cx.Quantifies q' name id' ty') ∧
      cx.decl? d = some ⟨id, ty, none⟩) ∨
    ((∀ q ∈ qs, ∀ id ty, ¬ cx.Quantifies q name id ty) ∧ top name = some d)

/-- The variables in the expression refer to what their names mean where they
stand, `names` being what they mean outside. -/
inductive Lexical (cx : Context) : Resolution → NodeRef → Prop
  | var {names : Resolution} {e : NodeRef} {name : Symbol} {d : DeclRef} :
      cx.node? e = some (.var name d) → names name = some d → Lexical cx names e
  | quantifier {names : Resolution} {e b id body : NodeRef} {q : Quantifier} {ty : Ty}
      {name : Symbol} {d : DeclRef} :
      cx.node? e = some (.quantifier q b body) → cx.node? b = some (.bind id ty) →
      cx.symbol? id = some name → cx.decl? d = some ⟨id, ty, none⟩ →
      Lexical cx (names.bind name d) body → Lexical cx names e
  | other {names : Resolution} {e : NodeRef} {node : Node NodeRef} :
      cx.node? e = some node → (∀ name d, node ≠ .var name d) →
      (∀ q b body, node ≠ .quantifier q b body) →
      (∀ c ∈ node.children, Lexical cx names c) → Lexical cx names e

/-- What names mean in the outermost environment. -/
def top? (cx : Context) : Resolution := fun name =>
  cx.scopes.environments.getLast?.bind fun env => env.find? name

/-- With one environment alone, names mean what they mean in it. -/
theorem top?_eq_find? {cx : Context} (h : cx.depth = 1) : cx.top? = cx.scopes.find? := by
  funext name
  obtain ⟨env, henvs⟩ := List.length_eq_one_iff.1 h
  simp only [top?, ScopeStack.find?, henvs, List.getLast?_singleton, Option.bind_some,
    List.findSome?_cons, List.findSome?_nil]
  cases env.find? name <;> rfl

variable {cx later : Context} {names names' top : Resolution} {e root v q : NodeRef}
  {qs : List NodeRef} {name : Symbol} {d : DeclRef}

/-! ## the two readings of lexical scoping -/

/-- The quantifiers around an occurrence occur themselves. -/
theorem Occurs.exists_of_mem (h : cx.Occurs root qs v) (hq : q ∈ qs) :
    ∃ outer, cx.Occurs root outer q := by
  induction h with
  | root => cases hq
  | child _ _ _ _ ih => exact ih hq
  | body hp _ ih =>
    rcases List.mem_cons.1 hq with rfl | hq
    · exact ⟨_, hp⟩
    · exact ih hq

/-- What occurs in a part of an expression that is no body occurs in the
expression. -/
theorem Occurs.of_child {c : NodeRef} {node : Node NodeRef} (h : cx.Occurs c qs v)
    (hnode : cx.node? root = some node) (hc : c ∈ node.children)
    (hbinding : ∀ q b body, node = .quantifier q b body → c = b) : cx.Occurs root qs v := by
  induction h with
  | root => exact .child .root hnode hc hbinding
  | child _ hnode' hc' hbinding' ih => exact ih.child hnode' hc' hbinding'
  | body _ hnode' ih => exact ih.body hnode'

/-- What occurs in the body of a quantifier stands in it last. -/
theorem Occurs.of_body {op : Quantifier} {b body : NodeRef} (h : cx.Occurs body qs v)
    (hnode : cx.node? root = some (.quantifier op b body)) : cx.Occurs root (qs ++ [root]) v := by
  induction h with
  | root => exact .body .root hnode
  | child _ hnode' hc' hbinding' ih => exact ih.child hnode' hc' hbinding'
  | body _ hnode' ih => exact ih.body hnode'

/-- What occurs in an expression is the whole, or occurs in a part of it. -/
theorem Occurs.cases_root (h : cx.Occurs root qs v) : (qs = [] ∧ v = root) ∨
    (∃ node c, cx.node? root = some node ∧ c ∈ node.children ∧
      (∀ q b body, node = .quantifier q b body → c = b) ∧ cx.Occurs c qs v) ∨
    ∃ op b body outer, cx.node? root = some (.quantifier op b body) ∧ qs = outer ++ [root] ∧
      cx.Occurs body outer v := by
  induction h with
  | root => exact .inl ⟨rfl, rfl⟩
  | child _ hnode hc hbinding ih =>
    rcases ih with ⟨rfl, rfl⟩ | ⟨node', c', hroot, hc', hbinding', ho⟩ |
      ⟨op, b, body, outer, hroot, rfl, ho⟩
    · exact .inr (.inl ⟨_, _, hnode, hc, hbinding, .root⟩)
    · exact .inr (.inl ⟨node', c', hroot, hc', hbinding', ho.child hnode hc hbinding⟩)
    · exact .inr (.inr ⟨op, b, body, outer, hroot, rfl, ho.child hnode hc hbinding⟩)
  | body _ hnode ih =>
    rcases ih with ⟨rfl, rfl⟩ | ⟨node', c', hroot, hc', hbinding', ho⟩ |
      ⟨op, b, body, outer, hroot, rfl, ho⟩
    · exact .inr (.inr ⟨_, _, _, [], hnode, rfl, .root⟩)
    · exact .inr (.inl ⟨node', c', hroot, hc', hbinding', ho.body hnode⟩)
    · exact .inr (.inr ⟨op, b, body, _ :: outer, hroot, rfl, ho.body hnode⟩)

/-- In the body of one more quantifier a name refers to what it binds, or to what
it referred to. -/
theorem Resolves.cons {id : NodeRef} {ty : Ty} {bound : Symbol} {d₀ : DeclRef}
    (hq : cx.Quantifies q bound id ty) (hd₀ : cx.decl? d₀ = some ⟨id, ty, none⟩)
    (hname : Resolution.bind names bound d₀ name = some d)
    (hold : names name = some d → cx.Resolves top qs name d) :
    cx.Resolves top (q :: qs) name d := by
  unfold Resolution.bind at hname
  split at hname
  · next heq =>
    cases hname
    subst heq
    exact .inl ⟨[], q, qs, id, ty, rfl, hq, by simp, hd₀⟩
  · next hne =>
    have hnot : ∀ id' ty', ¬ cx.Quantifies q name id' ty' := by
      rintro id' ty' ⟨_, b', _, hnode', hb', hid'⟩
      obtain ⟨_, b, _, hnode, hb, hid⟩ := hq
      cases hnode.symm.trans hnode'
      cases hb.symm.trans hb'
      exact hne (Option.some.inj (hid'.symm.trans hid))
    rcases hold hname with ⟨inner, q', outer, id', ty', rfl, hq', hinner, hd⟩ | ⟨hnone, htop⟩
    · exact .inl ⟨q :: inner, q', outer, id', ty', rfl, hq',
        List.forall_mem_cons.2 ⟨hnot, hinner⟩, hd⟩
    · exact .inr ⟨List.forall_mem_cons.2 ⟨hnot, hnone⟩, htop⟩

/-- There are no variables in a name. -/
theorem lexical_of_symbol? (h : cx.symbol? e = some name) : cx.Lexical names e :=
  .other (node?_of_symbol? h) (by simp) (by simp) (by simp [Node.children])

theorem lexical_of_literal? {value : Int} (h : cx.literal? e = some value) : cx.Lexical names e :=
  .other (node?_of_literal? h) (by simp) (by simp) (by simp [Node.children])

/-- Nor are there in a binding. -/
theorem lexical_of_bind {id : NodeRef} {ty : Ty} (hb : cx.node? e = some (.bind id ty))
    (hid : cx.symbol? id = some name) : cx.Lexical names e := by
  refine .other hb (by simp) (by simp) ?_
  simpa [Node.children] using lexical_of_symbol? hid

/-- Each part of a lexically scoped expression is so too, and what names mean
there is settled by the quantifiers around it. -/
theorem Lexical.part (h : cx.Lexical top root) (ho : cx.Occurs root qs v) :
    ∃ names, cx.Lexical names v ∧ ∀ name d, names name = some d → cx.Resolves top qs name d := by
  induction ho with
  | root => exact ⟨top, h, fun name d hd => .inr ⟨by simp, hd⟩⟩
  | child _ hnode hc hbinding ih =>
    obtain ⟨names, hlexical, hnames⟩ := ih
    refine ⟨names, ?_, hnames⟩
    cases hlexical with
    | var hvar =>
      cases hnode.symm.trans hvar
      cases hc
    | quantifier hq hb hid =>
      cases hnode.symm.trans hq
      rw [hbinding _ _ _ rfl]
      exact lexical_of_bind hb hid
    | other hother _ _ hchildren =>
      cases hnode.symm.trans hother
      exact hchildren _ hc
  | body _ hnode ih =>
    obtain ⟨names, hlexical, hnames⟩ := ih
    cases hlexical with
    | var hvar => cases hnode.symm.trans hvar
    | quantifier hq hb hid hd hbody =>
      cases hnode.symm.trans hq
      exact ⟨_, hbody, fun name d hname =>
        .cons ⟨_, _, _, hq, hb, hid⟩ hd hname (hnames name d)⟩
    | other hother _ hnot =>
      cases hnode.symm.trans hother
      exact absurd rfl (hnot _ _ _)

/-- Every variable in a lexically scoped expression refers to what lexical
scoping says. -/
theorem Lexical.resolves (h : cx.Lexical top root) (ho : cx.Occurs root qs v)
    (hv : cx.node? v = some (.var name d)) : cx.Resolves top qs name d := by
  obtain ⟨names, hlexical, hnames⟩ := h.part ho
  cases hlexical with
  | var hvar hname =>
    cases hv.symm.trans hvar
    exact hnames _ _ hname
  | quantifier hq => cases hv.symm.trans hq
  | other hother hnot =>
    cases hv.symm.trans hother
    exact absurd rfl (hnot _ _)

/-! ## what keeps expressions lexical -/

/-- An expression stays lexical in later contexts, and where more names have a
meaning. -/
theorem Lexical.mono (h : cx.Lexical names e) (hwithin : cx.Within later)
    (hnames : ∀ name d, names name = some d → names' name = some d) : later.Lexical names' e := by
  induction h generalizing names' with
  | var hnode hname => exact .var (hwithin.node hnode) (hnames _ _ hname)
  | quantifier hnode hb hid hd _ ih =>
    refine .quantifier (hwithin.node hnode) (hwithin.node hb) (hwithin.symbol? hid)
      (hwithin.decl hd) (ih (Resolution.bind_mono hnames _ _))
  | other hnode hvar hq _ ih =>
    exact .other (hwithin.node hnode) hvar hq fun c hc => ih c hc hnames

theorem Lexical.within (h : cx.Lexical names e) (hwithin : cx.Within later) :
    later.Lexical names e :=
  h.mono hwithin fun _ _ => id

theorem Lexical.index_lt (h : cx.Lexical names e) : e.index < cx.size := by
  cases h <;> exact index_lt_of_node? (by assumption)

/-- What is scoped is lexical. -/
theorem Scoped.lexical {ty : Ty} (h : cx.Scoped names e ty) : cx.Lexical names e := by
  induction h with
  | bool hnode | int hnode =>
    exact .other hnode (by simp) (by simp) (by simp [Node.children])
  | var hnode hname => exact .var hnode hname
  | additive hnode _ _ ihl ihr | relation hnode _ _ ihl ihr | connective hnode _ _ ihl ihr =>
    exact .other hnode (by simp) (by simp) (by simpa [Node.children] using ⟨ihl, ihr⟩)
  | scaling hnode hfactor _ _ ih =>
    exact .other hnode (by simp) (by simp)
      (by simpa [Node.children] using ⟨lexical_of_literal? hfactor, ih⟩)
  | sign hnode _ ih | not hnode _ ih =>
    exact .other hnode (by simp) (by simp) (by simpa [Node.children] using ih)
  | quantifier hnode hb hid _ _ hd _ _ ih => exact .quantifier hnode hb hid hd ih

/-- A node over lexical expressions that is neither a variable nor a quantifier
is lexical. -/
theorem Lexical.add {node : Node NodeRef} (hvar : ∀ name d, node ≠ .var name d)
    (hq : ∀ q b body, node ≠ .quantifier q b body)
    (hchildren : ∀ c ∈ node.children, cx.Lexical names c) :
    (cx.add node).2.Lexical names ⟨cx.size⟩ :=
  .other (node?_add_self cx node) hvar hq fun c hc => (hchildren c hc).within (.add cx node)

end Context

/-- The parts of a lexical node that is neither a variable nor a quantifier are
lexical. -/
theorem Context.Lexical.children {cx : Context} {names : Resolution} {e : NodeRef}
    {node : Node NodeRef} (h : cx.Lexical names e) (hnode : cx.node? e = some node)
    (hq : ∀ q b body, node ≠ .quantifier q b body) : ∀ c ∈ node.children, cx.Lexical names c := by
  cases h with
  | var hvar =>
    cases hnode.symm.trans hvar
    simp [Node.children]
  | quantifier hquantifier =>
    cases hnode.symm.trans hquantifier
    exact absurd rfl (hq _ _ _)
  | other hother _ _ hchildren =>
    cases hnode.symm.trans hother
    exact hchildren

theorem Context.Lexical.both {cx : Context} {names : Resolution} {e l r : NodeRef}
    {node : Node NodeRef} (h : cx.Lexical names e) (hnode : cx.node? e = some node)
    (hchildren : node.children = [l, r]) (hq : ∀ q b body, node ≠ .quantifier q b body) :
    cx.Lexical names l ∧ cx.Lexical names r := by
  have hparts := h.children hnode hq
  rw [hchildren] at hparts
  exact ⟨hparts l List.mem_cons_self, hparts r (List.mem_cons_of_mem _ List.mem_cons_self)⟩

/-- Two connectives over lexical expressions and a third one over them are
lexical. -/
theorem Context.Lexical.addConnectives {cx : Context} {names : Resolution} {a b c d : NodeRef}
    (inner outer : Connective) (ha : cx.Lexical names a) (hb : cx.Lexical names b)
    (hc : cx.Lexical names c) (hd : cx.Lexical names d) :
    (((cx.add (.connective inner a b)).2.add (.connective inner c d)).2.add
      (.connective outer ⟨cx.size⟩ ⟨cx.size + 1⟩)).2.Lexical names ⟨cx.size + 2⟩ := by
  have hadd : ∀ {cx : Context} {a b : NodeRef} (op : Connective), cx.Lexical names a →
      cx.Lexical names b → (cx.add (.connective op a b)).2.Lexical names ⟨cx.size⟩ :=
    fun op ha hb => .add (by simp) (by simp) (by simpa [Node.children] using ⟨ha, hb⟩)
  have hleft := hadd inner ha hb
  have hright := hadd inner (hc.within (.add cx (.connective inner a b)))
    (hd.within (.add cx (.connective inner a b)))
  have houter := hadd outer (hleft.within (.add _ (.connective inner c d))) hright
  simpa only [Context.size_add] using houter

/-- Normal form keeps expressions lexical, under either polarity. -/
theorem Normalizes.lexical {cx last : Context} {e e' : NodeRef} {negated : Bool}
    {names : Resolution} (h : Normalizes cx e negated e' last) (hw : cx.WellFormed)
    (hl : cx.Lexical names e) : last.Lexical names e' := by
  induction h generalizing names with
  | kept => exact hl
  | truth => exact .add (by simp) (by simp) (by simp [Node.children])
  | name => exact .add (by simp) (by simp) (by simpa [Node.children] using hl)
  | additive hnode ha hb hsettles iha ihb | relation hnode ha hb hsettles iha ihb
  | junction hnode _ ha hb hsettles iha ihb =>
    have hparts := hl.both hnode rfl (by simp)
    have hga := (ha.grows hw).1
    have hgb := (hb.grows hga.wellFormed).1
    have ha' := ((iha hw hparts.1).within hgb.within).within hsettles.within
    have hb' := (ihb hga.wellFormed (hparts.2.within hga.within)).within hsettles.within
    exact .other hsettles.node? (by simp) (by simp) (by simpa [Node.children] using ⟨ha', hb'⟩)
  | scaling hnode ha hsettles ih =>
    have hparts := hl.both hnode rfl (by simp)
    have hfactor := (hparts.1.within (ha.grows hw).1.within).within hsettles.within
    have ho := (ih hw hparts.2).within hsettles.within
    exact .other hsettles.node? (by simp) (by simp) (by simpa [Node.children] using ⟨hfactor, ho⟩)
  | sign hnode _ hsettles ih =>
    have hpart := hl.children hnode (by simp) _ List.mem_cons_self
    have ho := (ih hw hpart).within hsettles.within
    exact .other hsettles.node? (by simp) (by simp) (by simpa [Node.children] using ho)
  | implication hnode ha hb iha ihb =>
    have hparts := hl.both hnode rfl (by simp)
    have hga := (ha.grows hw).1
    have hgb := (hb.grows hga.wellFormed).1
    have ha' := (iha hw hparts.1).within hgb.within
    have hb' := ihb hga.wellFormed (hparts.2.within hga.within)
    exact .add (by simp) (by simp) (by simpa [Node.children] using ⟨ha', hb'⟩)
  | equivalence hnode hpa hna hpb hnb ihpa ihna ihpb ihnb
  | difference hnode hpa hna hpb hnb ihpa ihna ihpb ihnb =>
    have hparts := hl.both hnode rfl (by simp)
    have hg₁ := (hpa.grows hw).1
    have hg₂ := (hna.grows hg₁.wellFormed).1
    have hg₃ := (hpb.grows hg₂.wellFormed).1
    have hg₄ := (hnb.grows hg₃.wellFormed).1
    have hposA := (ihpa hw hparts.1).within ((hg₂.trans hg₃).trans hg₄).within
    have hnegA := (ihna hg₁.wellFormed (hparts.1.within hg₁.within)).within (hg₃.trans hg₄).within
    have hposB := (ihpb hg₂.wellFormed (hparts.2.within (hg₁.trans hg₂).within)).within hg₄.within
    have hnegB := ihnb hg₃.wellFormed (hparts.2.within ((hg₁.trans hg₂).trans hg₃).within)
    exact .addConnectives _ _ (by assumption) (by assumption) (by assumption) (by assumption)
  | not hnode _ ih => exact ih hw (hl.children hnode (by simp) _ List.mem_cons_self)
  | quantifier hnode hbody hsettles ih =>
    cases hl with
    | var hvar => cases hnode.symm.trans hvar
    | quantifier hq hb hid hd hinner =>
      cases hnode.symm.trans hq
      have hall := (hbody.grows hw).1.within.trans hsettles.within
      exact .quantifier hsettles.node? (hall.node hb) (hall.symbol? hid) (hall.decl hd)
        ((ih hw hinner).within hsettles.within)
    | other hother _ hnot =>
      cases hnode.symm.trans hother
      exact absurd rfl (hnot _ _ _)

end ArithLogic
