import ArithLogic.Proofs.Elaboration.Derivability
import ArithLogic.Proofs.NormalForm.Course
import ArithLogic.Proofs.Reading.Shape

/-!
# ArithLogic.Proofs.Context.Scoped

Expressions that are typed and lexically scoped.  `cx.Scoped names e ty` says
that the expression `e` is of type `ty`, that every variable in it refers to
what its name means where it stands, `names` outside of `e`, and that its
literals and names can be read back.  Expressions that were parsed and
elaborated are scoped (`Elaborates.scoped`), and normal form keeps them so
(`Normalizes.scoped`).
-/

namespace ArithLogic

/-- The declarations that symbols mean at some place. -/
abbrev Resolution := Symbol → Option DeclRef

/-- One symbol means a declaration, and the others what they meant. -/
def Resolution.bind (names : Resolution) (name : Symbol) (d : DeclRef) : Resolution := fun other =>
  if other = name then some d else names other

/-- Where more names have a meaning, they have it in the scope of one more name
as well. -/
theorem Resolution.bind_mono {names names' : Resolution}
    (h : ∀ name d, names name = some d → names' name = some d) (name : Symbol) (d : DeclRef) :
    ∀ other d', names.bind name d other = some d' → names'.bind name d other = some d' := by
  intro other d' hother
  unfold bind at hother ⊢
  split
  · next heq => rwa [if_pos heq] at hother
  · next heq =>
    rw [if_neg heq] at hother
    exact h other d' hother

/-- The expression is of the type, and its variables refer to what their names
mean. -/
inductive Context.Scoped (cx : Context) : Resolution → NodeRef → Ty → Prop
  | bool {names : Resolution} {e : NodeRef} {value : Bool} :
      cx.node? e = some (.bool value) → Scoped cx names e .bool
  | int {names : Resolution} {e : NodeRef} {value : Int} :
      cx.node? e = some (.int value) → 0 ≤ value → Scoped cx names e .int
  | var {names : Resolution} {e : NodeRef} {name : Symbol} {d : DeclRef} {decl : Decl} :
      cx.node? e = some (.var name d) → names name = some d → cx.decl? d = some decl →
      name.origin = cx.interner.origin → Lexer.IsName name.text → Scoped cx names e decl.ty
  | additive {names : Resolution} {e l r : NodeRef} {op : Additive} :
      cx.node? e = some (.additive op l r) → Scoped cx names l .int → Scoped cx names r .int →
      Scoped cx names e .int
  | scaling {names : Resolution} {e factor operand : NodeRef} {op : Scaling} {value : Int} :
      cx.node? e = some (.scaling op factor operand) → cx.literal? factor = some value →
      0 ≤ value → Scoped cx names operand .int → Scoped cx names e .int
  | sign {names : Resolution} {e operand : NodeRef} {op : Sign} :
      cx.node? e = some (.sign op operand) → Scoped cx names operand .int → Scoped cx names e .int
  | relation {names : Resolution} {e l r : NodeRef} {op : Relation} :
      cx.node? e = some (.relation op l r) → Scoped cx names l .int → Scoped cx names r .int →
      Scoped cx names e .bool
  | connective {names : Resolution} {e l r : NodeRef} {op : Connective} :
      cx.node? e = some (.connective op l r) → Scoped cx names l .bool → Scoped cx names r .bool →
      Scoped cx names e .bool
  | not {names : Resolution} {e operand : NodeRef} :
      cx.node? e = some (.not operand) → Scoped cx names operand .bool → Scoped cx names e .bool
  | quantifier {names : Resolution} {e b id body : NodeRef} {q : Quantifier} {ty : Ty}
      {name : Symbol} {d : DeclRef} :
      cx.node? e = some (.quantifier q b body) → cx.node? b = some (.bind id ty) →
      cx.symbol? id = some name → name.origin = cx.interner.origin → Lexer.IsName name.text →
      cx.decl? d = some ⟨id, ty, none⟩ → ty ≠ .kind → Scoped cx (names.bind name d) body .bool →
      Scoped cx names e .bool

namespace Context

variable {cx later : Context} {names names' : Resolution} {e : NodeRef} {ty : Ty}

/-- What is scoped is in range. -/
theorem Scoped.index_lt (h : cx.Scoped names e ty) : e.index < cx.size := by
  cases h <;> exact index_lt_of_node? (by assumption)

/-- An expression stays scoped in later contexts, and where more names have a
meaning. -/
theorem Scoped.mono (h : cx.Scoped names e ty) (hwithin : cx.Within later)
    (hnames : ∀ name d, names name = some d → names' name = some d) :
    later.Scoped names' e ty := by
  induction h generalizing names' with
  | bool hnode => exact .bool (hwithin.node hnode)
  | int hnode hpos => exact .int (hwithin.node hnode) hpos
  | var hnode hname hdecl horigin hword =>
    exact .var (hwithin.node hnode) (hnames _ _ hname) (hwithin.decl hdecl)
      (horigin.trans hwithin.origin.symm) hword
  | additive hnode _ _ ihl ihr => exact .additive (hwithin.node hnode) (ihl hnames) (ihr hnames)
  | scaling hnode hfactor hpos _ ih =>
    exact .scaling (hwithin.node hnode) (hwithin.literal? hfactor) hpos (ih hnames)
  | sign hnode _ ih => exact .sign (hwithin.node hnode) (ih hnames)
  | relation hnode _ _ ihl ihr => exact .relation (hwithin.node hnode) (ihl hnames) (ihr hnames)
  | connective hnode _ _ ihl ihr =>
    exact .connective (hwithin.node hnode) (ihl hnames) (ihr hnames)
  | not hnode _ ih => exact .not (hwithin.node hnode) (ih hnames)
  | quantifier hnode hb hid horigin hword hdecl hty _ ih =>
    exact .quantifier (hwithin.node hnode) (hwithin.node hb) (hwithin.symbol? hid)
      (horigin.trans hwithin.origin.symm) hword (hwithin.decl hdecl) hty
      (ih (Resolution.bind_mono hnames _ _))

theorem Scoped.within (h : cx.Scoped names e ty) (hwithin : cx.Within later) :
    later.Scoped names e ty :=
  h.mono hwithin fun _ _ => id

/-- A literal that is scoped is not negative. -/
theorem Scoped.literal?_nonneg (h : cx.Scoped names e ty) {value : Int}
    (hvalue : cx.literal? e = some value) : 0 ≤ value := by
  have hnode := node?_of_literal? hvalue
  cases h with
  | int hfound hpos =>
    cases hnode.symm.trans hfound
    exact hpos
  | _ hfound => cases hnode.symm.trans hfound

/-- No definition is of the type of types. -/
def NoKind (cx : Context) : Prop :=
  ∀ d decl, cx.decl? d = some decl → decl.init ≠ some Ty.kind.ref

end Context

theorem Kept.noKind {s : Session} {out : Conclusion} (h : Kept s out) (hkind : s.context.NoKind) :
    out.2.context.NoKind := by
  intro d decl hdecl
  rcases h.declares hdecl with hold | hnone
  · exact hkind d decl hold
  · rw [hnone]
    exact Option.some_ne_none _ |>.symm

/-! ## elaboration -/

section Elaboration

variable {s : Session} {e : Elaboration}

/-- Without definitions of the type of types no expression designates it. -/
theorem Context.NoKind.designation_ne {cx : Context} (hkind : cx.NoKind) (hw : cx.WellFormed)
    {span : Span} {ty : Ty} (h : cx.designation e span = .ok ty) : ty ≠ .kind := by
  rintro rfl
  obtain ⟨-, name, d, decl, init, -, hdecl, hinit, hty⟩ := designation_eq_ok h
  exact hkind d decl hdecl (by rw [hinit, (hw.type_iff init _).1 hty])

/-- In the scope of a quantifier the bound symbol means its declaration. -/
theorem Context.find?_inner {cx inner : Context} {id : NodeRef} {ty : Ty} {d : DeclRef}
    {name : Symbol} (hid : cx.symbol? id = some name)
    (hdeclare : cx.enterScope.declareId id ty none = .ok (d, inner)) :
    inner.scopes.find? = Resolution.bind cx.scopes.find? name d := by
  funext other
  rw [find?_declareId hdeclare (show cx.enterScope.symbol? id = _ from hid) other]
  have hpush : cx.enterScope.scopes.find? other = cx.scopes.find? other :=
    ScopeStack.find?_push_empty ..
  rw [hpush]
  rfl

/-- What a verdict builds, in the context in which it was built. -/
theorem Session.node?_conclude {s : Session} (node : Node NodeRef) (ty : Ty) :
    (s.conclude (.build node ty)).2.context.node? ⟨s.context.size⟩ = some node :=
  Context.node?_add_self s.context node

/-- A token that is no name elaborates to something scoped. -/
theorem scoped_of_verdict (names : Resolution) {token : Token} (hspelled : token.WellSpelled)
    (h : (s.conclude token.verdict).1 = .ok e) :
    (s.conclude token.verdict).2.context.Scoped names e.expr e.ty := by
  unfold Token.verdict at h ⊢
  cases hk : token.kind with
  | kwTrue | kwFalse =>
    simp only [hk] at h ⊢
    cases h
    exact .bool (Session.node?_conclude _ _)
  | literal =>
    simp only [hk] at h ⊢
    cases hvalue : Text.integer? token.text.toList with
    | none => simp only [hvalue] at h; cases h
    | some value =>
      simp only [hvalue] at h ⊢
      cases h
      unfold Token.WellSpelled at hspelled
      simp only [hk] at hspelled
      exact .int (Session.node?_conclude _ _) (Text.integer?_nonneg hspelled hvalue)
  | _ => simp only [hk] at h; cases h

/-- What is built over scoped operands is scoped. -/
theorem scoped_of_infixVerdict {names : Resolution} {op : Token} {leftSpan rightSpan : Span}
    {form : InfixForm} {l r : NodeRef} {node : Node NodeRef} {ty : Ty}
    (hl : s.context.Scoped names l form.operandType) (hr : s.context.Scoped names r form.operandType)
    (h : s.context.infixVerdict op ⟨l, form.operandType⟩ ⟨r, form.operandType⟩ leftSpan rightSpan
      form = .build node ty) :
    (s.conclude (.build node ty)).2.context.Scoped names ⟨s.context.size⟩ ty := by
  have hwithin : s.context.Within (s.conclude (.build node ty)).2.context := .add _ _
  have hnode := Session.node?_conclude (s := s) node ty
  -- the literal operand of a product or a quotient
  have hscaling : ∀ {op : Scaling} {factor operand : NodeRef}, s.context.isLiteral factor = true →
      s.context.Scoped names factor .int → s.context.Scoped names operand .int →
      node = .scaling op factor operand → ty = .int →
      (s.conclude (.build node ty)).2.context.Scoped names ⟨s.context.size⟩ ty := by
    rintro op factor operand hfactor hf ho rfl rfl
    rw [Context.isLiteral_eq] at hfactor
    obtain ⟨value, hvalue⟩ := Option.isSome_iff_exists.1 hfactor
    exact .scaling hnode (hwithin.literal? hvalue) (hf.literal?_nonneg hvalue) (ho.within hwithin)
  cases form with
  | additive a =>
    cases h
    exact .additive hnode (hl.within hwithin) (hr.within hwithin)
  | relation a =>
    cases h
    exact .relation hnode (hl.within hwithin) (hr.within hwithin)
  | connective a =>
    cases h
    exact .connective hnode (hl.within hwithin) (hr.within hwithin)
  | product =>
    simp only [Context.infixVerdict] at h
    split at h
    · next hleft => cases h; exact hscaling hleft hl hr rfl rfl
    · split at h
      · next hright => cases h; exact hscaling hright hr hl rfl rfl
      · cases h
  | quotient =>
    simp only [Context.infixVerdict] at h
    split at h
    · next hright => cases h; exact hscaling hright hr hl rfl rfl
    · cases h

end Elaboration

/-- An expression of the shape that is parsed elaborates to one that is
scoped. -/
theorem Elaborates.scoped {tree : Tree} {s : Session} {out : Conclusion}
    (h : Elaborates tree s out) (hshape : tree.IsExpression) (hw : s.context.WellFormed)
    (hkind : s.context.NoKind) {e : Elaboration} (he : out.1 = .ok e) :
    out.2.context.Scoped s.context.scopes.find? e.expr e.ty := by
  induction h generalizing e with
  | enclosed _ ih =>
    cases hshape with
    | enclosed hbody => exact ih hbody hw hkind he
  | @named token s d decl name hname hlookup hdecl hdeclName =>
    cases hshape with
    | atom _ hspelled =>
      cases he
      rw [hw.lookup?_eq] at hlookup
      cases hdeclName.symm.trans (hw.declName?_of_find? hlookup)
      exact .var (Session.node?_conclude _ _) hlookup hdecl rfl (hspelled.isName hname)
  | constant =>
    cases hshape with
    | atom _ hspelled => exact scoped_of_verdict _ hspelled he
  | @prefixed op operand s s' form r hform hcourse ih =>
    cases hshape with
    | unary _ hoperand =>
      have hk := hcourse.kept hw
      have hscoped := ih hoperand hw hkind rfl
      unfold PrefixForm.verdict at he ⊢
      by_cases hty : r.ty = form.type
      · rw [hty] at hscoped
        have hwithin : s'.context.Within (s'.conclude (.build (form.node r.expr) form.type)).2.context :=
          .add _ _
        have hnode := Session.node?_conclude (s := s') (form.node r.expr) form.type
        simp only [Elaboration.faults, if_pos hty, Verdict.unless] at he ⊢
        cases he
        cases form with
        | sign op => exact .sign hnode (hscoped.within hwithin)
        | not => exact .not hnode (hscoped.within hwithin)
      · simp only [Elaboration.faults, if_neg hty, Verdict.unless] at he
        cases he
  | @infixed op left right s s₁ s₂ form l r hform hleft hright ihl ihr =>
    cases hshape with
    | operation _ hleftShape hrightShape =>
      have hkl := hleft.kept hw
      have hkr := hright.kept hkl.wellFormed
      have hl := (ihl hleftShape hw hkind rfl).within hkr.within
      have hr := ihr hrightShape hkl.wellFormed (hkl.noKind hkind) rfl
      rw [hkl.scopes] at hr
      cases hverdict : (s₂.context.infixVerdict op l r left.span right.span form).unless
          (form.faults l r left.span right.span) with
      | refuse first others => rw [hverdict] at he; cases he
      | build node ty =>
        rw [hverdict] at he
        cases he
        obtain ⟨hfaults, hbuild⟩ := Verdict.unless_eq_build hverdict
        obtain ⟨hlfaults, hrfaults⟩ := List.append_eq_nil_iff.1 hfaults
        have hlty := Elaboration.faults_eq_nil.1 hlfaults
        have hrty := Elaboration.faults_eq_nil.1 hrfaults
        obtain ⟨l, lty⟩ := l
        obtain ⟨r, rty⟩ := r
        cases hlty
        cases hrty
        exact scoped_of_infixVerdict hl hr hbuild
    | quantified hop => rcases hop with hop | hop <;> simp [hop, InfixForm.ofToken?] at hform
  | bound hop =>
    cases hshape with
    | operation hinfix => simp [hop, TokenKind.infixLevel?] at hinfix
    | quantified hq => simp [hop] at hq
  | @quantified op left right s s₁ s₂ q b e id d inner outer hq hleft hb hnode hdeclare hbody hleave
      hty ihb ih =>
    cases hshape with
    | operation hinfix =>
      have hop := Quantifier.ofToken?_eq_some_iff.1 hq
      cases q <;> simp [hop, Quantifier.token, TokenKind.infixLevel?] at hinfix
    | @quantified _ colon name type _ _ hcolon hname hspelled _ hbodyShape =>
      cases he
      have hkb := hb.kept hw
      have hinner := hkb.wellFormed.enterScope.declareVar hdeclare
      have hkbody := hbody.kept hinner
      have hleave' := Context.Within.leaveScope hleave
      have hwithin : s₁.context.Within inner :=
        (Context.Within.enterScope _).trans (.declareId hdeclare)
      have hinnerKind : inner.NoKind := by
        intro d' decl hfound
        rcases Context.decl?_of_declareId_cases hdeclare hfound with ⟨-, rfl⟩ | hold
        · exact (Option.some_ne_none _).symm
        · exact hkb.noKind hkind d' decl hold
      -- the binding and its name
      obtain ⟨token, te, s₀, ty, htoken, htype, hdesignation, rfl, rfl⟩ := hb.binding_parts hcolon
      cases (Tree.name?_eq_some_iff.1 htoken).1
      have hk := htype.kept hw
      have hkind' := hk.noKind hkind
      obtain ⟨hb₁, hid⟩ := s₀.node?_addBinding name.text ty
      cases hnode.symm.trans hb₁
      have hnames := Context.find?_inner hid hdeclare
      rw [hkb.scopes] at hnames
      -- the body, in the scope of the bound name
      have hscoped := ih hbodyShape hinner hinnerKind rfl
      simp only [Session.context_moveTo] at hscoped
      rw [hty, hnames] at hscoped
      have hgrown : outer.Within (outer.add (.quantifier q ⟨s₀.context.size + 1⟩ e.expr)).2 :=
        .add _ _
      have hall := ((hwithin.trans hkbody.within).trans hleave').trans hgrown
      refine .quantifier (Context.node?_add_self _ _) (hall.node hnode) (hall.symbol? hid) ?_
        (hspelled.isName hname) ((hkbody.within.trans hleave').decl (Context.decl?_of_declareId hdeclare))
        (hkind'.designation_ne hk.wellFormed hdesignation) (hscoped.within (hleave'.trans hgrown))
      exact ((hkb.within.trans hall).origin.trans hk.within.origin.symm).symm
  | _ => cases he

/-! ## normal form -/

section Connectives

variable {cx : Context} {names : Resolution} {a b c d : NodeRef}

/-- A connective over formulas is a formula. -/
theorem Context.Scoped.addConnective (op : Connective) (ha : cx.Scoped names a .bool)
    (hb : cx.Scoped names b .bool) :
    (cx.add (.connective op a b)).2.Scoped names ⟨cx.size⟩ .bool :=
  .connective (Context.node?_add_self ..) (ha.within (.add ..)) (hb.within (.add ..))

/-- Two connectives over formulas and a third one over them are formulas. -/
theorem Context.Scoped.addConnectives (inner outer : Connective) (ha : cx.Scoped names a .bool)
    (hb : cx.Scoped names b .bool) (hc : cx.Scoped names c .bool) (hd : cx.Scoped names d .bool) :
    (((cx.add (.connective inner a b)).2.add (.connective inner c d)).2.add
      (.connective outer ⟨cx.size⟩ ⟨cx.size + 1⟩)).2.Scoped names ⟨cx.size + 2⟩ .bool := by
  have hleft := ha.addConnective inner hb
  have hright := Context.Scoped.addConnective inner
    (hc.within (.add cx (.connective inner a b))) (hd.within (.add cx (.connective inner a b)))
  have houter := Context.Scoped.addConnective outer
    (hleft.within (.add _ (.connective inner c d))) hright
  simpa only [Context.size_add] using houter

end Connectives

/-- Normal form keeps expressions scoped and of their type.  Only formulas are
negated. -/
theorem Normalizes.scoped {cx last : Context} {e e' : NodeRef} {negated : Bool}
    {names : Resolution} {ty : Ty} (h : Normalizes cx e negated e' last) (hw : cx.WellFormed)
    (hs : cx.Scoped names e ty) (hneg : negated = true → ty = .bool) :
    last.Scoped names e' ty := by
  have hnumber : false = true → Ty.int = Ty.bool := fun h =>
    absurd h Bool.false_ne_true
  have hformula : ∀ flag : Bool, flag = true → Ty.bool = Ty.bool := fun _ _ => rfl
  induction h generalizing names ty with
  | kept => exact hs
  | @truth cx e value hnode =>
    cases hs with
    | bool => exact .bool (Context.node?_add_self ..)
    | _ hfound => cases hnode.symm.trans hfound
  | @name cx e node hnode hname =>
    cases hneg rfl
    exact .not (Context.node?_add_self ..) (hs.within (.add ..))
  | additive hnode ha hb hsettles iha ihb =>
    cases hs with
    | additive hfound hl hr =>
      cases hnode.symm.trans hfound
      have hga := (ha.grows hw).1
      have hgb := (hb.grows hga.wellFormed).1
      have hlast := hsettles.within
      have hl' := ((iha hw hl hnumber).within hgb.within).within hlast
      have hr' := (ihb hga.wellFormed (hr.within hga.within) hnumber).within hlast
      exact .additive hsettles.node? hl' hr'
    | _ hfound => cases hnode.symm.trans hfound
  | relation hnode ha hb hsettles iha ihb =>
    cases hs with
    | relation hfound hl hr =>
      cases hnode.symm.trans hfound
      have hga := (ha.grows hw).1
      have hgb := (hb.grows hga.wellFormed).1
      have hlast := hsettles.within
      have hl' := ((iha hw hl hnumber).within hgb.within).within hlast
      have hr' := (ihb hga.wellFormed (hr.within hga.within) hnumber).within hlast
      exact .relation hsettles.node? hl' hr'
    | _ hfound => cases hnode.symm.trans hfound
  | junction hnode _ ha hb hsettles iha ihb =>
    cases hs with
    | connective hfound hl hr =>
      cases hnode.symm.trans hfound
      have hga := (ha.grows hw).1
      have hgb := (hb.grows hga.wellFormed).1
      have hlast := hsettles.within
      have hl' := ((iha hw hl (hformula _)).within hgb.within).within hlast
      have hr' := (ihb hga.wellFormed (hr.within hga.within) (hformula _)).within hlast
      exact .connective hsettles.node? hl' hr'
    | _ hfound => cases hnode.symm.trans hfound
  | implication hnode ha hb iha ihb =>
    cases hs with
    | connective hfound hl hr =>
      cases hnode.symm.trans hfound
      have hga := (ha.grows hw).1
      have hgb := (hb.grows hga.wellFormed).1
      exact .addConnective _ ((iha hw hl (hformula _)).within hgb.within)
        (ihb hga.wellFormed (hr.within hga.within) (hformula _))
    | _ hfound => cases hnode.symm.trans hfound
  | equivalence hnode hpa hna hpb hnb ihpa ihna ihpb ihnb
  | difference hnode hpa hna hpb hnb ihpa ihna ihpb ihnb =>
    cases hs with
    | connective hfound hl hr =>
      cases hnode.symm.trans hfound
      have hg₁ := (hpa.grows hw).1
      have hg₂ := (hna.grows hg₁.wellFormed).1
      have hg₃ := (hpb.grows hg₂.wellFormed).1
      have hg₄ := (hnb.grows hg₃.wellFormed).1
      have hposA := (ihpa hw hl (hformula _)).within ((hg₂.trans hg₃).trans hg₄).within
      have hnegA := (ihna hg₁.wellFormed (hl.within hg₁.within) (hformula _)).within
        (hg₃.trans hg₄).within
      have hposB := (ihpb hg₂.wellFormed (hr.within (hg₁.trans hg₂).within) (hformula _)).within
        hg₄.within
      have hnegB := ihnb hg₃.wellFormed (hr.within ((hg₁.trans hg₂).trans hg₃).within) (hformula _)
      exact .addConnectives _ _ (by assumption) (by assumption) (by assumption) (by assumption)
    | _ hfound => cases hnode.symm.trans hfound
  | scaling hnode ha hsettles ih =>
    cases hs with
    | scaling hfound hfactor hpos ho =>
      cases hnode.symm.trans hfound
      have hga := (ha.grows hw).1
      have hlast := hsettles.within
      exact .scaling hsettles.node? ((hga.within.trans hlast).literal? hfactor) hpos
        ((ih hw ho hnumber).within hlast)
    | _ hfound => cases hnode.symm.trans hfound
  | sign hnode ha hsettles ih =>
    cases hs with
    | sign hfound ho =>
      cases hnode.symm.trans hfound
      exact .sign hsettles.node? ((ih hw ho hnumber).within hsettles.within)
    | _ hfound => cases hnode.symm.trans hfound
  | not hnode ha ih =>
    cases hs with
    | not hfound ho =>
      cases hnode.symm.trans hfound
      exact ih hw ho (hformula _)
    | _ hfound => cases hnode.symm.trans hfound
  | quantifier hnode hbody hsettles ih =>
    cases hs with
    | quantifier hfound hb hid horigin hword hdecl hty ho =>
      cases hnode.symm.trans hfound
      have hall := (hbody.grows hw).1.within.trans hsettles.within
      exact .quantifier hsettles.node? (hall.node hb) (hall.symbol? hid)
        (horigin.trans hall.origin.symm) hword (hall.decl hdecl) hty
        ((ih hw ho (hformula _)).within hsettles.within)
    | _ hfound => cases hnode.symm.trans hfound

end ArithLogic
