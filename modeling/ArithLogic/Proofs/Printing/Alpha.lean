import ArithLogic.Proofs.Context.Scoped
import ArithLogic.Proofs.NormalForm.Semantics
import ArithLogic.Term.Printer

/-!
# ArithLogic.Proofs.Printing.Alpha

Expressions that differ in the declarations of their bound variables alone.
`cx.AlphaEq top [] e e'` relates expressions of the same shape, with the same
literals, names and types, whose variables are bound by corresponding
quantifiers or mean the same outside.  Scoped expressions that are printed
alike are related (`Scoped.alphaEq`): where a name stands decides what it
refers to.  `cx.BoundOccurs [] e` says that there are bound variables in `e`
at all.
-/

namespace ArithLogic

/-! ## terms without declarations -/

namespace Term

/-- The term with every variable referring to the same declaration. -/
def unresolved : Term → Term
  | var name _ => .var name ⟨0⟩
  | additive op left right => .additive op left.unresolved right.unresolved
  | scaling op factor operand => .scaling op factor operand.unresolved
  | sign op operand => .sign op operand.unresolved
  | relation op left right => .relation op left.unresolved right.unresolved
  | connective op left right => .connective op left.unresolved right.unresolved
  | not operand => .not operand.unresolved
  | quantifier op name ty body => .quantifier op name ty body.unresolved
  | id name => .id name
  | bool value => .bool value
  | int value => .int value
  | bind name ty => .bind name ty
  | type ty => .type ty

@[simp] theorem kind_unresolved (t : Term) : t.unresolved.kind = t.kind := by
  cases t <;> rfl

@[simp] theorem level_unresolved (t : Term) : t.unresolved.level = t.level := by
  rw [level, kind_unresolved, level]

/-- A term is printed without its declarations. -/
@[simp] theorem doc_unresolved (t : Term) : t.unresolved.doc = t.doc := by
  induction t with
  | additive _ _ _ ihl ihr | relation _ _ _ ihl ihr | connective _ _ _ ihl ihr =>
    funext depth
    simp only [unresolved, doc, level_unresolved, ihl, ihr]
  | scaling op _ _ ih =>
    funext depth
    cases op <;> simp only [unresolved, doc, level_unresolved, ih]
  | sign _ _ ih | not _ ih | quantifier _ _ _ _ ih =>
    funext depth
    simp only [unresolved, doc, level_unresolved, ih]
  | _ => rfl

/-- Terms that differ in declarations alone have the same text. -/
theorem render_eq_of_unresolved {t t' : Term} (h : t'.unresolved = t.unresolved) (width : Nat) :
    t'.render width = t.render width := by
  rw [render, pieces, ← doc_unresolved, h, doc_unresolved, render, pieces]

end Term

namespace Context

variable {cx : Context} {top names names' : Resolution} {bound : List (NodeRef × NodeRef)}
  {name : Symbol} {id id' : NodeRef} {d d' : DeclRef}

/-! ## alpha equivalence -/

/-- A name refers to two declarations that were made by corresponding
quantifiers, whose name nodes are listed with the innermost first, or to one
declaration outside of all of them. -/
inductive Corresponds (cx : Context) (top : Resolution) (name : Symbol) :
    List (NodeRef × NodeRef) → DeclRef → DeclRef → Prop
  | here {bound : List (NodeRef × NodeRef)} {id id' : NodeRef} {d d' : DeclRef} :
      cx.declares id d = true → cx.declares id' d' = true →
      Corresponds cx top name ((id, id') :: bound) d d'
  | there {bound : List (NodeRef × NodeRef)} {id id' : NodeRef} {d d' : DeclRef} :
      cx.declares id d = false → cx.declares id' d' = false →
      Corresponds cx top name bound d d' → Corresponds cx top name ((id, id') :: bound) d d'
  | outside {d : DeclRef} : top name = some d → Corresponds cx top name [] d d

/-- The expressions are alike, but for the declarations of their bound
variables; those that are bound outside are listed. -/
inductive AlphaEq (cx : Context) (top : Resolution) :
    List (NodeRef × NodeRef) → NodeRef → NodeRef → Prop
  | bool {bound : List (NodeRef × NodeRef)} {e e' : NodeRef} {value : Bool} :
      cx.node? e = some (.bool value) → cx.node? e' = some (.bool value) →
      AlphaEq cx top bound e e'
  | int {bound : List (NodeRef × NodeRef)} {e e' : NodeRef} {value : Int} :
      cx.node? e = some (.int value) → cx.node? e' = some (.int value) →
      AlphaEq cx top bound e e'
  | var {bound : List (NodeRef × NodeRef)} {e e' : NodeRef} {name : Symbol} {d d' : DeclRef} :
      cx.node? e = some (.var name d) → cx.node? e' = some (.var name d') →
      cx.Corresponds top name bound d d' → AlphaEq cx top bound e e'
  | additive {bound : List (NodeRef × NodeRef)} {e e' l l' r r' : NodeRef} {op : Additive} :
      cx.node? e = some (.additive op l r) → cx.node? e' = some (.additive op l' r') →
      AlphaEq cx top bound l l' → AlphaEq cx top bound r r' → AlphaEq cx top bound e e'
  | scaling {bound : List (NodeRef × NodeRef)} {e e' factor factor' operand operand' : NodeRef}
      {op : Scaling} {value : Int} :
      cx.node? e = some (.scaling op factor operand) →
      cx.node? e' = some (.scaling op factor' operand') →
      cx.literal? factor = some value → cx.literal? factor' = some value →
      AlphaEq cx top bound operand operand' → AlphaEq cx top bound e e'
  | sign {bound : List (NodeRef × NodeRef)} {e e' operand operand' : NodeRef} {op : Sign} :
      cx.node? e = some (.sign op operand) → cx.node? e' = some (.sign op operand') →
      AlphaEq cx top bound operand operand' → AlphaEq cx top bound e e'
  | relation {bound : List (NodeRef × NodeRef)} {e e' l l' r r' : NodeRef} {op : Relation} :
      cx.node? e = some (.relation op l r) → cx.node? e' = some (.relation op l' r') →
      AlphaEq cx top bound l l' → AlphaEq cx top bound r r' → AlphaEq cx top bound e e'
  | connective {bound : List (NodeRef × NodeRef)} {e e' l l' r r' : NodeRef} {op : Connective} :
      cx.node? e = some (.connective op l r) → cx.node? e' = some (.connective op l' r') →
      AlphaEq cx top bound l l' → AlphaEq cx top bound r r' → AlphaEq cx top bound e e'
  | not {bound : List (NodeRef × NodeRef)} {e e' operand operand' : NodeRef} :
      cx.node? e = some (.not operand) → cx.node? e' = some (.not operand') →
      AlphaEq cx top bound operand operand' → AlphaEq cx top bound e e'
  | quantifier {bound : List (NodeRef × NodeRef)} {e e' b b' id id' body body' : NodeRef}
      {q : Quantifier} {name : Symbol} {ty : Ty} :
      cx.node? e = some (.quantifier q b body) → cx.node? e' = some (.quantifier q b' body') →
      cx.node? b = some (.bind id ty) → cx.node? b' = some (.bind id' ty) →
      cx.symbol? id = some name → cx.symbol? id' = some name →
      AlphaEq cx top ((id, id') :: bound) body body' → AlphaEq cx top bound e e'

/-! ## declarations and their names -/

/-- The name node of a binding declares what was declared with it. -/
theorem declares_of_decl? {decl : Decl} (hd : cx.decl? d = some decl) :
    cx.declares decl.name d = true := by
  simp [declares, hd]

/-- A name node declares nothing under another name. -/
theorem declares_eq_false {other : Symbol} (hid : cx.symbol? id = some name)
    (hd : cx.declName? d = some other) (hne : other ≠ name) : cx.declares id d = false := by
  obtain ⟨decl, hdecl, hname⟩ := Option.bind_eq_some_iff.1 hd
  have hid' : decl.name ≠ id := by
    rintro rfl
    exact hne (Option.some.inj (hname.symm.trans hid))
  simpa [declares, hdecl] using hid'

/-- Whatever a name means was declared under that name. -/
def Faithful (cx : Context) (names : Resolution) : Prop :=
  ∀ name d, names name = some d → cx.declName? d = some name

/-- A name may be bound to what a quantifier declares under it. -/
theorem Faithful.bind {ty : Ty} (h : cx.Faithful names) (hid : cx.symbol? id = some name)
    (hd : cx.decl? d = some ⟨id, ty, none⟩) : cx.Faithful (Resolution.bind names name d) := by
  intro other c hc
  by_cases heq : other = name
  · rw [Resolution.bind, if_pos heq] at hc
    cases hc
    rw [declName?, hd, heq]
    exact hid
  · rw [Resolution.bind, if_neg heq] at hc
    exact h _ _ hc

/-- What names mean on two sides was declared under these names, and
corresponds. -/
structure Paired (cx : Context) (top : Resolution) (bound : List (NodeRef × NodeRef))
    (names names' : Resolution) : Prop where
  left : cx.Faithful names
  right : cx.Faithful names'
  corresponds : ∀ {name d d'}, names name = some d → names' name = some d' →
    cx.Corresponds top name bound d d'

/-- Outside of all quantifiers names mean the same on both sides. -/
theorem Faithful.paired (h : cx.Faithful top) : cx.Paired top [] top top where
  left := h
  right := h
  corresponds hd hd' := by
    cases hd.symm.trans hd'
    exact .outside hd

/-- In the bodies of two quantifiers that bind one name it means what they
declare. -/
theorem Paired.bind {ty ty' : Ty} (h : cx.Paired top bound names names')
    (hid : cx.symbol? id = some name) (hid' : cx.symbol? id' = some name)
    (hd : cx.decl? d = some ⟨id, ty, none⟩) (hd' : cx.decl? d' = some ⟨id', ty', none⟩) :
    cx.Paired top ((id, id') :: bound) (Resolution.bind names name d)
      (Resolution.bind names' name d') where
  left := h.left.bind hid hd
  right := h.right.bind hid' hd'
  corresponds {other c c'} hc hc' := by
    by_cases heq : other = name
    · rw [Resolution.bind, if_pos heq] at hc hc'
      cases hc
      cases hc'
      exact .here (declares_of_decl? hd) (declares_of_decl? hd')
    · rw [Resolution.bind, if_neg heq] at hc hc'
      exact .there (declares_eq_false hid (h.left _ _ hc) heq)
        (declares_eq_false hid' (h.right _ _ hc') heq)
        (h.corresponds hc hc')

/-- Nodes whose terms differ in declarations alone are of one kind. -/
theorem WellFormed.kind_eq_of_unresolved {e e' : NodeRef} {x y : Node NodeRef} {t t' : Term}
    (hw : cx.WellFormed) (hx : cx.node? e = some x) (hy : cx.node? e' = some y)
    (ht : cx.term? e = some t) (ht' : cx.term? e' = some t')
    (hsame : t'.unresolved = t.unresolved) : x.kind = y.kind := by
  rw [hw.term?_eq hx] at ht
  rw [hw.term?_eq hy] at ht'
  rw [← kind_of_termOf? ht, ← kind_of_termOf? ht', ← t.kind_unresolved, ← hsame, t'.kind_unresolved]

/-- Expressions that are scoped and printed alike are alike, but for the
declarations of their bound variables. -/
theorem Scoped.alphaEq {e e' : NodeRef} {ty ty' : Ty} {t t' : Term} (h : cx.Scoped names e ty)
    (hw : cx.WellFormed) (h' : cx.Scoped names' e' ty') (ht : cx.term? e = some t)
    (ht' : cx.term? e' = some t') (hsame : t'.unresolved = t.unresolved)
    (hp : cx.Paired top bound names names') : cx.AlphaEq top bound e e' := by
  induction h generalizing names' e' ty' t t' bound with
  | bool hnode =>
    cases h' with
    | bool hnode' =>
      rw [hw.term?_eq hnode] at ht
      rw [hw.term?_eq hnode'] at ht'
      cases ht
      cases ht'
      cases hsame
      exact .bool hnode hnode'
    | _ hnode' =>
      exact absurd (hw.kind_eq_of_unresolved hnode hnode' ht ht' hsame) (by simp [Node.kind])
  | int hnode =>
    cases h' with
    | int hnode' =>
      rw [hw.term?_eq hnode] at ht
      rw [hw.term?_eq hnode'] at ht'
      cases ht
      cases ht'
      cases hsame
      exact .int hnode hnode'
    | _ hnode' =>
      exact absurd (hw.kind_eq_of_unresolved hnode hnode' ht ht' hsame) (by simp [Node.kind])
  | var hnode hname =>
    cases h' with
    | var hnode' hname' =>
      rw [hw.term?_eq hnode] at ht
      rw [hw.term?_eq hnode'] at ht'
      cases ht
      cases ht'
      cases hsame
      exact .var hnode hnode' (hp.corresponds hname hname')
    | _ hnode' =>
      exact absurd (hw.kind_eq_of_unresolved hnode hnode' ht ht' hsame) (by simp [Node.kind])
  | additive hnode _ _ ihl ihr =>
    cases h' with
    | additive hnode' hl' hr' =>
      obtain ⟨tl, tr, htl, htr, rfl⟩ := hw.term?_additive hnode ht
      obtain ⟨tl', tr', htl', htr', rfl⟩ := hw.term?_additive hnode' ht'
      obtain ⟨rfl, hsl, hsr⟩ := Term.additive.inj hsame
      exact .additive hnode hnode' (ihl hl' htl htl' hsl hp) (ihr hr' htr htr' hsr hp)
    | _ hnode' =>
      exact absurd (hw.kind_eq_of_unresolved hnode hnode' ht ht' hsame) (by simp [Node.kind])
  | relation hnode _ _ ihl ihr =>
    cases h' with
    | relation hnode' hl' hr' =>
      obtain ⟨tl, tr, htl, htr, rfl⟩ := hw.term?_relation hnode ht
      obtain ⟨tl', tr', htl', htr', rfl⟩ := hw.term?_relation hnode' ht'
      obtain ⟨rfl, hsl, hsr⟩ := Term.relation.inj hsame
      exact .relation hnode hnode' (ihl hl' htl htl' hsl hp) (ihr hr' htr htr' hsr hp)
    | _ hnode' =>
      exact absurd (hw.kind_eq_of_unresolved hnode hnode' ht ht' hsame) (by simp [Node.kind])
  | connective hnode _ _ ihl ihr =>
    cases h' with
    | connective hnode' hl' hr' =>
      obtain ⟨tl, tr, htl, htr, rfl⟩ := hw.term?_connective hnode ht
      obtain ⟨tl', tr', htl', htr', rfl⟩ := hw.term?_connective hnode' ht'
      obtain ⟨rfl, hsl, hsr⟩ := Term.connective.inj hsame
      exact .connective hnode hnode' (ihl hl' htl htl' hsl hp) (ihr hr' htr htr' hsr hp)
    | _ hnode' =>
      exact absurd (hw.kind_eq_of_unresolved hnode hnode' ht ht' hsame) (by simp [Node.kind])
  | scaling hnode hfactor _ _ ih =>
    cases h' with
    | scaling hnode' hfactor' _ ho' =>
      obtain ⟨u, hu, rfl⟩ := hw.term?_scaling hnode hfactor ht
      obtain ⟨u', hu', rfl⟩ := hw.term?_scaling hnode' hfactor' ht'
      obtain ⟨rfl, rfl, hso⟩ := Term.scaling.inj hsame
      exact .scaling hnode hnode' hfactor hfactor' (ih ho' hu hu' hso hp)
    | _ hnode' =>
      exact absurd (hw.kind_eq_of_unresolved hnode hnode' ht ht' hsame) (by simp [Node.kind])
  | sign hnode _ ih =>
    cases h' with
    | sign hnode' ho' =>
      obtain ⟨u, hu, rfl⟩ := hw.term?_sign hnode ht
      obtain ⟨u', hu', rfl⟩ := hw.term?_sign hnode' ht'
      obtain ⟨rfl, hso⟩ := Term.sign.inj hsame
      exact .sign hnode hnode' (ih ho' hu hu' hso hp)
    | _ hnode' =>
      exact absurd (hw.kind_eq_of_unresolved hnode hnode' ht ht' hsame) (by simp [Node.kind])
  | not hnode _ ih =>
    cases h' with
    | not hnode' ho' =>
      obtain ⟨u, hu, rfl⟩ := hw.term?_not hnode ht
      obtain ⟨u', hu', rfl⟩ := hw.term?_not hnode' ht'
      exact .not hnode hnode' (ih ho' hu hu' (Term.not.inj hsame) hp)
    | _ hnode' =>
      exact absurd (hw.kind_eq_of_unresolved hnode hnode' ht ht' hsame) (by simp [Node.kind])
  | quantifier hnode hb hid _ _ hd _ _ ih =>
    cases h' with
    | quantifier hnode' hb' hid' _ _ hd' _ hbody' =>
      obtain ⟨tb, htb, rfl⟩ := hw.term?_quantifier hnode hb hid ht
      obtain ⟨tb', htb', rfl⟩ := hw.term?_quantifier hnode' hb' hid' ht'
      obtain ⟨rfl, rfl, rfl, hsb⟩ := Term.quantifier.inj hsame
      exact .quantifier hnode hnode' hb hb' hid hid'
        (ih hbody' htb htb' hsb (hp.bind hid hid' hd hd'))
    | _ hnode' =>
      exact absurd (hw.kind_eq_of_unresolved hnode hnode' ht ht' hsame) (by simp [Node.kind])

/-! ## bound variables -/

/-- A variable occurs in the expression that is bound by a quantifier in it, or
by one outside of it whose name node is listed. -/
inductive BoundOccurs (cx : Context) : List NodeRef → NodeRef → Prop
  | var {bound : List NodeRef} {e id : NodeRef} {name : Symbol} {d : DeclRef} :
      cx.node? e = some (.var name d) → id ∈ bound → cx.declares id d = true →
      BoundOccurs cx bound e
  | child {bound : List NodeRef} {e child : NodeRef} {node : Node NodeRef} :
      cx.node? e = some node → child ∈ node.children → BoundOccurs cx bound child →
      BoundOccurs cx bound e
  | body {bound : List NodeRef} {e b id body : NodeRef} {q : Quantifier} {ty : Ty} :
      cx.node? e = some (.quantifier q b body) → cx.node? b = some (.bind id ty) →
      BoundOccurs cx (id :: bound) body → BoundOccurs cx bound e

namespace BoundOccurs

variable {outer inner : List NodeRef} {e b body : NodeRef} {node : Node NodeRef}

/-- More quantifiers outside bind no fewer variables. -/
theorem mono (h : cx.BoundOccurs outer e) (hsub : outer ⊆ inner) : cx.BoundOccurs inner e := by
  induction h generalizing inner with
  | var hnode hmem hdeclares => exact .var hnode (hsub hmem) hdeclares
  | child hnode hmem _ ih => exact .child hnode hmem (ih hsub)
  | body hnode hb _ ih => exact .body hnode hb (ih (List.cons_subset_cons _ hsub))

/-- A variable is bound if a quantifier outside declares it. -/
theorem var_iff (hnode : cx.node? e = some (.var name d)) :
    cx.BoundOccurs outer e ↔ ∃ id ∈ outer, cx.declares id d = true := by
  constructor
  · intro h
    cases h with
    | var hfound hmem hdeclares => cases hnode.symm.trans hfound; exact ⟨_, hmem, hdeclares⟩
    | child hfound hmem => cases hnode.symm.trans hfound; cases hmem
    | body hfound => cases hnode.symm.trans hfound
  · rintro ⟨id, hmem, hdeclares⟩
    exact .var hnode hmem hdeclares

/-- What is neither a variable nor a quantifier has the bound variables of its
children. -/
theorem node_iff (hnode : cx.node? e = some node) (hvar : node.kind ≠ .var)
    (hq : node.kind.isQuantifier = false) :
    cx.BoundOccurs outer e ↔ ∃ child ∈ node.children, cx.BoundOccurs outer child := by
  constructor
  · intro h
    cases h with
    | var hfound => cases hnode.symm.trans hfound; exact (hvar rfl).elim
    | child hfound hmem hchild => cases hnode.symm.trans hfound; exact ⟨_, hmem, hchild⟩
    | body hfound => cases hnode.symm.trans hfound; cases hq
  · rintro ⟨child, hmem, hchild⟩
    exact .child hnode hmem hchild

/-- Names have no variables. -/
theorem of_symbol? (hid : cx.symbol? id = some name) : ¬ cx.BoundOccurs outer id := by
  rw [node_iff (node?_of_symbol? hid) (by simp [Node.kind]) rfl]
  simp [Node.children]

/-- Literals have no variables. -/
theorem of_literal? {value : Int} (hvalue : cx.literal? e = some value) :
    ¬ cx.BoundOccurs outer e := by
  rw [node_iff (node?_of_literal? hvalue) (by simp [Node.kind]) rfl]
  simp [Node.children]

/-- A quantifier has the bound variables of its body, in which its own are
bound. -/
theorem quantifier_iff {q : Quantifier} {ty : Ty}
    (hnode : cx.node? e = some (.quantifier q b body)) (hb : cx.node? b = some (.bind id ty))
    (hid : cx.symbol? id = some name) :
    cx.BoundOccurs outer e ↔ cx.BoundOccurs (id :: outer) body := by
  have hbinding : ¬ cx.BoundOccurs outer b := by
    rw [node_iff hb (by simp [Node.kind]) rfl]
    simpa [Node.children] using of_symbol? hid
  constructor
  · intro h
    cases h with
    | var hfound => cases hnode.symm.trans hfound
    | child hfound hmem hchild =>
      cases hnode.symm.trans hfound
      rcases List.mem_cons.1 hmem with rfl | hmem
      · exact (hbinding hchild).elim
      · rw [List.mem_singleton.1 hmem] at hchild
        exact hchild.mono (List.subset_cons_self _ _)
    | body hfound hbfound hbody =>
      cases hnode.symm.trans hfound
      cases hb.symm.trans hbfound
      exact hbody
  · exact .body hnode hb

end BoundOccurs

end Context

end ArithLogic
