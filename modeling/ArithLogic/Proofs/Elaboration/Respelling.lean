import ArithLogic.Proofs.Context.Respelling
import ArithLogic.Proofs.Elaboration.Faults

/-!
# ArithLogic.Proofs.Elaboration.Respelling

Elaborating a tree, and the same tree with some names spelled in another way.
In the two sessions one variable is spelled differently, and so are the places
of the tree that refer to it; every step of the one elaboration is then a step
of the other, with the same handles, types and diagnostics
(`Elaborates.respelled`).  What a change of spellings does to a tree is settled
by the tree alone: a quantifier keeps the spelling of what it binds, in its body
but not in its type.
-/

namespace ArithLogic

/-! ## trees -/

/-- A name gets its new spelling. -/
def Token.respell (r : String → String) (token : Token) : Token :=
  if token.kind.isName = true ∧ r token.text ≠ token.text then
    ⟨.identifier, r token.text, token.span⟩
  else token

@[simp] theorem Token.span_respell (r : String → String) (token : Token) :
    (token.respell r).span = token.span := by
  unfold respell
  split <;> rfl

theorem Token.respell_of_not_isName (r : String → String) {token : Token}
    (h : token.kind.isName = false) : token.respell r = token := by
  simp [respell, h]

theorem Token.respell_of_eq {r : String → String} {token : Token} (h : r token.text = token.text) :
    token.respell r = token := by
  simp [respell, h]

/-- What was a name is one under its new spelling. -/
theorem Token.respell_of_isName (r : String → String) {token : Token}
    (h : token.kind.isName = true) :
    (token.respell r).kind.isName = true ∧ (token.respell r).text = r token.text := by
  by_cases heq : r token.text = token.text
  · rw [respell_of_eq heq]
    exact ⟨h, heq.symm⟩
  · rw [respell, if_pos ⟨h, heq⟩]
    exact ⟨rfl, rfl⟩

namespace Tree

variable {r : String → String} {z : String}

/-- The name that a binding binds. -/
def boundName? : Tree → Option Token
  | binary colon left _ => if colon.kind = .colon then left.name? else none
  | _ => none

/-- The spellings in the scope of a binding: what it binds keeps its own. -/
def within (r : String → String) (binding : Tree) : String → String :=
  match binding.boundName? with
  | some name => Function.update r name.text name.text
  | none => r

/-- The tree with names spelled in another way, where they refer to something.
Where a name is bound or defined it is left as it is. -/
def respell (r : String → String) : Tree → Tree
  | enclosed opening body closing => enclosed opening (body.respell r) closing
  | terminal token => terminal (token.respell r)
  | unary op operand => unary op (operand.respell r)
  | binary op left right =>
    if op.kind = .colon ∨ op.kind = .assign then binary op left (right.respell r)
    else if Quantifier.ofToken? op.kind = none then binary op (left.respell r) (right.respell r)
    else binary op (left.respell r) (right.respell (left.within r))

/-- The name does not occur in the tree. -/
def Avoids (z : String) : Tree → Prop
  | enclosed _ body _ => body.Avoids z
  | terminal token => token.kind.isName = true → token.text ≠ z
  | unary _ operand => operand.Avoids z
  | binary _ left right => left.Avoids z ∧ right.Avoids z

section Binary

variable {op : Token} {left right : Tree}

theorem respell_binding (h : op.kind = .colon ∨ op.kind = .assign) :
    (binary op left right).respell r = binary op left (right.respell r) := by
  rw [respell, if_pos h]

theorem respell_other (hcolon : op.kind ≠ .colon) (hassign : op.kind ≠ .assign)
    (hq : Quantifier.ofToken? op.kind = none) :
    (binary op left right).respell r = binary op (left.respell r) (right.respell r) := by
  rw [respell, if_neg (by simp [hcolon, hassign]), if_pos hq]

theorem respell_operation {form : InfixForm} (h : InfixForm.ofToken? op.kind = some form) :
    (binary op left right).respell r = binary op (left.respell r) (right.respell r) :=
  have ⟨hcolon, hassign, hq⟩ := InfixForm.kind_of_ofToken? h
  respell_other hcolon hassign hq

theorem respell_quantifier {q : Quantifier} (h : Quantifier.ofToken? op.kind = some q) :
    (binary op left right).respell r =
      binary op (left.respell r) (right.respell (left.within r)) := by
  obtain ⟨hcolon, hassign⟩ := Quantifier.kind_of_ofToken? h
  rw [respell, if_neg (by simp [hcolon, hassign]), if_neg (by simp [h])]

end Binary

@[simp] theorem span_respell (r : String → String) (tree : Tree) :
    (tree.respell r).span = tree.span := by
  induction tree generalizing r with
  | enclosed => rfl
  | terminal token => exact token.span_respell r
  | unary _ _ ih => simp only [respell, span, ih]
  | binary op left right ihl ihr =>
    simp only [respell]
    split
    · simp only [span, ihr]
    · split <;> simp only [span, ihl, ihr]

/-- Nothing is changed if all spellings stay. -/
@[simp] theorem respell_id (tree : Tree) : tree.respell id = tree := by
  have hwithin : ∀ binding, within id binding = id := fun binding => by
    unfold within
    split
    · exact Function.update_eq_self _ id
    · rfl
  induction tree with
  | enclosed _ _ _ ih => rw [respell, ih]
  | terminal token => rw [respell, Token.respell_of_eq rfl]
  | unary _ _ ih => rw [respell, ih]
  | binary op left right ihl ihr =>
    simp only [respell, hwithin, ihl, ihr]
    split
    · rfl
    · split <;> rfl

theorem isBinding_respell (r : String → String) (tree : Tree) :
    (tree.respell r).IsBinding ↔ tree.IsBinding := by
  cases tree with
  | binary op left right =>
    simp only [respell]
    split
    · rfl
    · split <;> rfl
  | _ => rfl

theorem Avoids.boundName {binding : Tree} {name : Token} (h : binding.Avoids z)
    (hname : binding.boundName? = some name) : name.text ≠ z := by
  cases binding with
  | binary colon left right =>
    simp only [boundName?] at hname
    split at hname
    · obtain ⟨rfl, hkind⟩ := name?_eq_some_iff.1 hname
      exact h.1 hkind
    · cases hname
  | _ => cases hname

end Tree

/-! ## verdicts -/

/-- The verdict with the variable `d` spelled in another way. -/
def Verdict.respell (d : DeclRef) (z : String) : Verdict → Verdict
  | build node ty => .build (node.respell d z) ty
  | refuse first others => .refuse first others

section Verdicts

variable {d : DeclRef} {z : String}

theorem Verdict.respell_unless (verdict : Verdict) (faults : List Fault) :
    (verdict.unless faults).respell d z = (verdict.respell d z).unless faults := by
  cases faults <;> rfl

theorem Token.verdict_respell (token : Token) : token.verdict.respell d z = token.verdict := by
  unfold verdict
  split
  · rfl
  · rfl
  · split <;> rfl
  · rfl

theorem PrefixForm.verdict_respell (form : PrefixForm) (e : Elaboration) (span : Span) :
    (form.verdict e span).respell d z = form.verdict e span := by
  rw [verdict, Verdict.respell_unless]
  cases form <;> rfl

end Verdicts

namespace Context.Respells

variable {d : DeclRef} {i : NodeRef} {x z : String} {cx cx' : Context}
  (h : cx.Respells d i x z cx')
include h

theorem infixVerdict_eq (op : Token) (l r : Elaboration) (leftSpan rightSpan : Span)
    (form : InfixForm) : cx'.infixVerdict op l r leftSpan rightSpan form =
      (cx.infixVerdict op l r leftSpan rightSpan form).respell d z := by
  cases form with
  | additive | relation | connective => rfl
  | product =>
    simp only [infixVerdict, h.isLiteral_eq]
    split
    · rfl
    · split <;> rfl
  | quotient =>
    simp only [infixVerdict, h.isLiteral_eq]
    split <;> rfl

/-- An expression designates the same type in both contexts.  The variable is not
of the type of types, so its spelling is never told. -/
theorem designation_eq {e : Elaboration}
    (he : ∀ {name d' decl}, cx.node? e.expr = some (.var name d') → cx.decl? d' = some decl →
      decl.ty = e.ty) (span : Span) : cx'.designation e span = cx.designation e span := by
  unfold designation
  by_cases hty : e.ty = .kind
  · rw [if_pos hty, if_pos hty]
    by_cases hi : e.expr = i
    · rw [hi, h.node?_self, node?_of_symbol? h.named]
    · rw [h.node?_of_ne hi]
      cases hnode : cx.node? e.expr with
      | none => rfl
      | some node =>
        cases node with
        | var name d' =>
          have hd : d' ≠ d := by
            rintro rfl
            obtain ⟨ty, hne, hdecl⟩ := h.declared
            exact hne ((he hnode hdecl).trans hty)
          simp only [Option.map_some, Node.respell, if_neg hd, h.decl?_eq, h.type?_eq]
        | _ => rfl
  · rw [if_neg hty, if_neg hty]

end Context.Respells

/-- A variable is of the type of its declaration. -/
theorem Elaborates.decl_ty {tree : Tree} {s s' : Session} {e : Elaboration}
    (h : Elaborates tree s (.ok e, s')) (hw : s.context.WellFormed) {name : Symbol} {d : DeclRef}
    {decl : Decl} (hnode : s'.context.node? e.expr = some (.var name d))
    (hdecl : s'.context.decl? d = some decl) : decl.ty = e.ty := by
  have hk := h.kept hw
  obtain ⟨t, htypes, ht⟩ := h.types hw e rfl
  cases (hk.wellFormed.term?_eq hnode).symm.trans ht
  obtain ⟨token, meaning, -, -, hmeaning, hty, rfl, -⟩ := htypes.name_of_var
  obtain ⟨d, -, hmeaning⟩ := Option.bind_eq_some_iff.1 hmeaning
  obtain ⟨old, hold, hmeaning⟩ := Option.bind_eq_some_iff.1 hmeaning
  cases hmeaning
  cases (hk.within.decl hold).symm.trans hdecl
  exact hty

/-! ## sessions -/

/-- The contexts are the same but for the spelling of a variable, and the records
are the same. -/
structure Session.Respells (d : DeclRef) (i : NodeRef) (x z : String) (s s' : Session) : Prop where
  context : s.context.Respells d i x z s'.context
  events : s'.events = s.events

namespace Session.Respells

variable {d : DeclRef} {i : NodeRef} {x z : String} {s s' : Session} {r : String → String}

/-- Both record the same event. -/
theorem moveTo (h : s.Respells d i x z s') {cx cx' : Context} (hcx : cx.Respells d i x z cx')
    (event : Event) : (s.moveTo cx event).Respells d i x z (s'.moveTo cx' event) :=
  ⟨hcx, congrArg (Array.push · event) h.events⟩

theorem report (h : s.Respells d i x z s') (fault : Fault) :
    (s.report fault).Respells d i x z (s'.report fault) :=
  h.moveTo h.context _

theorem foldl_report (h : s.Respells d i x z s') (faults : List Fault) :
    (faults.foldl Session.report s).Respells d i x z (faults.foldl Session.report s') := by
  induction faults generalizing s s' with
  | nil => exact h
  | cons fault faults ih => exact ih (h.report fault)

/-- The same verdict, but for the spelling, leads to the same conclusion. -/
theorem conclude (h : s.Respells d i x z s') (verdict : Verdict) :
    (s'.conclude (verdict.respell d z)).1 = (s.conclude verdict).1 ∧
      (s.conclude verdict).2.Respells d i x z (s'.conclude (verdict.respell d z)).2 := by
  cases verdict with
  | build node ty =>
    refine ⟨?_, h.context.add node, h.events⟩
    show Except.ok (⟨⟨s'.context.size⟩, ty⟩ : Elaboration) = .ok ⟨⟨s.context.size⟩, ty⟩
    rw [h.context.size_eq]
  | refuse first others => exact ⟨rfl, h.foldl_report (first :: others)⟩

theorem addBinding (h : s.Respells d i x z s') (text : String) (ty : Ty) :
    (s.addBinding text ty).Respells d i x z (s'.addBinding text ty) := by
  have hadded := (h.context.addId text).add (.bind ⟨s.context.size⟩ ty)
  refine ⟨?_, h.events⟩
  show (s.addBinding text ty).context.Respells d i x z
    ((s'.context.addId text).2.add (.bind ⟨s'.context.size⟩ ty)).2
  rw [h.context.size_eq]
  exact hadded

/-- The scope of a quantifier that binds another name is entered. -/
theorem enter (h : s.Respells d i x z s') {id : NodeRef} {text : String} {ty : Ty} {d' : DeclRef}
    {inner : Context} (hid : id ≠ i)
    (hname : s.context.symbol? id = some ⟨s.context.interner.origin, text⟩) (htext : text ≠ z)
    (hnames : s.context.Renames r d z s'.context)
    (hdeclare : s.context.enterScope.declareId id ty none = .ok (d', inner)) :
    ∃ inner', s'.context.enterScope.declareId id ty none = .ok (d', inner') ∧
      (s.moveTo inner (.scopeEntered (s.context.depth + 1))).Respells d i x z
        (s'.moveTo inner' (.scopeEntered (s'.context.depth + 1))) ∧
      inner.Renames (Function.update r text text) d z inner' := by
  have hname' := (h.context.symbol?_of_ne hid).trans hname
  obtain ⟨inner', hdeclare', -, hinner⟩ := h.context.enterScope.declareId hid hname hdeclare
    (ScopeStack.insert_eq_ok_iff.2 ⟨.empty, s'.context.scopes.environments, rfl, rfl, rfl⟩)
  refine ⟨inner', hdeclare', ?_, ?_⟩
  · rw [h.context.depth]
    exact h.moveTo hinner _
  · rw [Context.Renames, Context.find?_inner hname hdeclare, Context.find?_inner hname' hdeclare',
      (Context.Within.declareId hdeclare).origin]
    exact hnames.bind htext d'

/-- The scope of a quantifier is left. -/
theorem leave (h : s.Respells d i x z s') {outer : Context}
    (hleave : s.context.leaveScope = .ok outer) :
    ∃ outer', s'.context.leaveScope = .ok outer' ∧
      (s.moveTo outer (.scopeLeft outer.depth)).Respells d i x z
        (s'.moveTo outer' (.scopeLeft outer'.depth)) := by
  obtain ⟨outer', hleave', houter⟩ := h.context.leaveScope hleave
  refine ⟨outer', hleave', ?_⟩
  rw [houter.depth]
  exact h.moveTo houter _

end Session.Respells

/-- The conclusion is one of the other session too, in which it has come to
`course`. -/
def Respelled (d : DeclRef) (i : NodeRef) (x z : String) (course : Conclusion → Prop)
    (out : Conclusion) : Prop :=
  ∃ s', course (out.1, s') ∧ out.2.Respells d i x z s'

section Simulation

variable {d : DeclRef} {i : NodeRef} {x z : String} {s s' : Session}

theorem Session.Respells.respelled (h : s.Respells d i x z s') {course : Conclusion → Prop}
    {verdict : Verdict} (hcourse : course (s'.conclude (verdict.respell d z))) :
    Respelled d i x z course (s.conclude verdict) := by
  obtain ⟨houtcome, hs⟩ := h.conclude verdict
  refine ⟨_, ?_, hs⟩
  rw [← houtcome]
  exact hcourse

/-- The name that was bound, and the node that holds it. -/
theorem Elaborates.binding_name {left : Tree} {s s₁ : Session} {b : Elaboration} {id : NodeRef}
    (h : Elaborates left s (.ok b, s₁)) (hleft : left.IsBinding) (hw : s.context.WellFormed)
    (hnode : s₁.context.node? b.expr = some (.bind id b.ty)) :
    ∃ name, left.boundName? = some name ∧ s.context.size ≤ id.index ∧
      s₁.context.symbol? id = some ⟨s₁.context.interner.origin, name.text⟩ := by
  cases left with
  | binary colon left type =>
    obtain ⟨name, e, s₀, ty, hname, htype, -, rfl, rfl⟩ := h.binding_parts hleft
    obtain ⟨hbind, hsymbol⟩ := s₀.node?_addBinding name.text ty
    cases hbind.symm.trans hnode
    refine ⟨name, ?_, (htype.kept hw).within.size_le, ?_⟩
    · have hcolon : colon.kind = .colon := hleft
      rw [Tree.boundName?, if_pos hcolon, hname]
    · rw [hsymbol, (s₀.within_addBinding name.text ty).origin]
  | _ => exact hleft.elim

/-- What names mean is a matter of the scopes, which elaboration keeps. -/
theorem Kept.renames {r : String → String} {s₁ s₁' : Session}
    {outcome outcome' : Except ElabError Elaboration} (h : Kept s (outcome, s₁))
    (h' : Kept s' (outcome', s₁')) (hnames : s.context.Renames r d z s'.context) :
    s₁.context.Renames r d z s₁'.context :=
  hnames.of_scopes h.within.origin h.scopes h'.scopes

/-- The scope of a quantifier is entered after its binding was elaborated. -/
theorem Elaborates.enter {left : Tree} {s s' s₁ s₁' : Session} {b : Elaboration} {id : NodeRef}
    {d' : DeclRef} {inner : Context} {r : String → String} (h : Elaborates left s (.ok b, s₁))
    (h' : Elaborates (left.respell r) s' (.ok b, s₁')) (hleft : left.IsBinding)
    (hi : i.index < s.context.size) (hs : s₁.Respells d i x z s₁')
    (hnames : s.context.Renames r d z s'.context) (hw : s.context.WellFormed)
    (hw' : s'.context.WellFormed) (hz : left.Avoids z)
    (hnode : s₁.context.node? b.expr = some (.bind id b.ty))
    (hdeclare : s₁.context.enterScope.declareId id b.ty none = .ok (d', inner)) :
    s₁'.context.node? b.expr = some (.bind id b.ty) ∧
      ∃ inner', s₁'.context.enterScope.declareId id b.ty none = .ok (d', inner') ∧
        (s₁.moveTo inner (.scopeEntered (s₁.context.depth + 1))).Respells d i x z
          (s₁'.moveTo inner' (.scopeEntered (s₁'.context.depth + 1))) ∧
        inner.Renames (left.within r) d z inner' ∧ inner.WellFormed ∧ inner'.WellFormed := by
  have hk := h.kept hw
  have hk' := h'.kept hw'
  obtain ⟨name, hname, hsize, hsymbol⟩ := h.binding_name hleft hw hnode
  have hid : id ≠ i := by
    rintro rfl
    exact Nat.lt_irrefl _ (Nat.lt_of_lt_of_le hi hsize)
  have hb : b.expr ≠ i := by
    rintro rfl
    exact Nat.lt_irrefl _ (Nat.lt_of_lt_of_le hi (hk.fresh b rfl).1)
  obtain ⟨inner', hdeclare', hinner, hnames'⟩ :=
    hs.enter hid hsymbol (hz.boundName hname) (hk.renames hk' hnames) hdeclare
  refine ⟨?_, inner', hdeclare', hinner, ?_, hk.wellFormed.enterScope.declareVar hdeclare,
    hk'.wellFormed.enterScope.declareVar hdeclare'⟩
  · rw [hs.context.node?_of_ne hb, hnode]
    rfl
  · rw [Tree.within, hname]
    exact hnames'

/-- In the session in which the variable is spelled in the other way, the tree
that is spelled accordingly is elaborated to the same.  The induction is on the
course; the spellings change where the scope of a quantifier is entered. -/
theorem Elaborates.respelled {tree : Tree} {out : Conclusion} (h : Elaborates tree s out)
    {r : String → String} (hs : s.Respells d i x z s')
    (hnames : s.context.Renames r d z s'.context)
    (hw : s.context.WellFormed) (hw' : s'.context.WellFormed) (hz : tree.Avoids z) :
    Respelled d i x z (Elaborates (tree.respell r) s') out := by
  induction h generalizing s' r with
  | enclosed _ ih =>
    obtain ⟨s₁', hcourse, hs₁⟩ := ih hs hnames hw hw' hz
    exact ⟨s₁', .enclosed hcourse, hs₁⟩
  | @named token s d' decl name hkind hlookup hdecl hname =>
    obtain ⟨hkind', htext⟩ := token.respell_of_isName r hkind
    have hlookup' : s'.context.lookup? (token.respell r).text = some d' := by
      rw [htext, hw'.lookup?_eq, hs.context.origin, hnames.means _ (hz hkind), ← hw.lookup?_eq,
        hlookup]
    have hname' := hs.context.declName?_eq d'
    rw [hname, Option.map_some] at hname'
    exact hs.respelled (.named hkind' hlookup' ((hs.context.decl?_eq d').trans hdecl) hname')
  | @unbound token s hkind hlookup =>
    rw [hw.lookup?_eq] at hlookup
    -- an unbound name is not the variable, so it is spelled as it was
    have htext : r token.text = token.text := by
      by_contra hmoved
      cases hlookup.symm.trans (hnames.moved _ hmoved).2
    have hlookup' : s'.context.lookup? token.text = none := by
      have hmeans := hnames.means _ (hz hkind)
      rwa [htext, hlookup, ← hs.context.origin, ← hw'.lookup?_eq] at hmeans
    rw [Tree.respell, Token.respell_of_eq htext]
    exact hs.respelled (.unbound hkind hlookup')
  | constant hkind =>
    rw [Tree.respell, Token.respell_of_not_isName r hkind]
    exact hs.respelled (by rw [Token.verdict_respell]; exact .constant hkind)
  | noPrefix hform =>
    refine hs.respelled ?_
    rw [← Tree.span_respell r]
    exact .noPrefix hform
  | operandFailed hform _ ih =>
    obtain ⟨s₁', hcourse, hs₁⟩ := ih hs hnames hw hw' hz
    exact ⟨s₁', .operandFailed hform hcourse, hs₁⟩
  | prefixed hform _ ih =>
    obtain ⟨s₁', hcourse, hs₁⟩ := ih hs hnames hw hw' hz
    refine hs₁.respelled ?_
    rw [PrefixForm.verdict_respell, ← Tree.span_respell r]
    exact .prefixed hform hcourse
  | @noInfix _ left right _ hform hq hcolon hassign =>
    refine hs.respelled ?_
    rw [Tree.respell_other hcolon hassign hq, ← left.span_respell r, ← right.span_respell r]
    exact .noInfix hform hq hcolon hassign
  | leftFailed hform _ ih =>
    obtain ⟨s₁', hcourse, hs₁⟩ := ih hs hnames hw hw' hz.1
    rw [Tree.respell_operation hform]
    exact ⟨s₁', .leftFailed hform hcourse, hs₁⟩
  | rightFailed hform hl _ ihl ihr =>
    obtain ⟨s₁', hl', hs₁⟩ := ihl hs hnames hw hw' hz.1
    have hk := hl.kept hw
    have hk' := hl'.kept hw'
    obtain ⟨s₂', hr', hs₂⟩ :=
      ihr hs₁ (hk.renames hk' hnames) hk.wellFormed hk'.wellFormed hz.2
    rw [Tree.respell_operation hform]
    exact ⟨s₂', .rightFailed hform hl' hr', hs₂⟩
  | @infixed _ left right _ _ _ _ _ _ hform hl _ ihl ihr =>
    obtain ⟨s₁', hl', hs₁⟩ := ihl hs hnames hw hw' hz.1
    have hk := hl.kept hw
    have hk' := hl'.kept hw'
    obtain ⟨s₂', hr', hs₂⟩ :=
      ihr hs₁ (hk.renames hk' hnames) hk.wellFormed hk'.wellFormed hz.2
    refine hs₂.respelled ?_
    rw [Verdict.respell_unless, ← hs₂.context.infixVerdict_eq, Tree.respell_operation hform,
      ← left.span_respell r, ← right.span_respell r]
    exact .infixed hform hl' hr'
  | @definition op left right _ hop =>
    refine hs.respelled ?_
    rw [← (Tree.binary op left right).span_respell r, Tree.respell_binding (.inr hop)]
    exact .definition hop
  | noName hop hname =>
    rw [Tree.respell_binding (.inl hop)]
    exact hs.respelled (.noName hop hname)
  | typeFailed hop hname _ ih =>
    obtain ⟨s₁', hcourse, hs₁⟩ := ih hs hnames hw hw' hz.2
    rw [Tree.respell_binding (.inl hop)]
    exact ⟨s₁', .typeFailed hop hname hcourse, hs₁⟩
  | @noType _ _ _ right _ _ _ _ hop hname htype hty ih =>
    obtain ⟨s₁', hcourse, hs₁⟩ := ih hs hnames hw hw' hz.2
    rw [Tree.respell_binding (.inl hop)]
    refine hs₁.respelled (.noType hop hname hcourse ?_)
    rw [Tree.span_respell, hs₁.context.designation_eq (htype.decl_ty hw), hty]
  | @bound _ name _ right _ _ _ ty hop hname htype hty ih =>
    obtain ⟨s₁', hcourse, hs₁⟩ := ih hs hnames hw hw' hz.2
    have hty' := (hs₁.context.designation_eq (htype.decl_ty hw) right.span).trans hty
    rw [← right.span_respell r] at hty'
    have hbound := Elaborates.bound hop hname hcourse hty'
    rw [hs₁.context.size_eq] at hbound
    rw [Tree.respell_binding (.inl hop)]
    exact ⟨_, hbound, hs₁.addBinding name.text ty⟩
  | @noBinding _ left _ _ _ hq hleft =>
    refine hs.respelled ?_
    rw [Tree.respell_quantifier hq, ← left.span_respell r]
    exact .noBinding hq (mt (left.isBinding_respell r).1 hleft)
  | @bindingFailed _ left _ _ _ _ _ hq hleft _ ih =>
    obtain ⟨s₁', hcourse, hs₁⟩ := ih hs hnames hw hw' hz.1
    rw [Tree.respell_quantifier hq]
    exact ⟨s₁', .bindingFailed hq ((left.isBinding_respell r).2 hleft) hcourse, hs₁⟩
  | @bodyFailed _ left _ _ _ _ _ _ _ _ _ _ _ hq hleft hb hnode hdeclare _ hleave ihb ih =>
    have hi := hs.context.index_lt
    obtain ⟨s₁', hb', hs₁⟩ := ihb hs hnames hw hw' hz.1
    obtain ⟨hnode', inner', hdeclare', hs₂, hnames', hw₂, hw₂'⟩ :=
      hb.enter hb' hleft hi hs₁ hnames hw hw' hz.1 hnode hdeclare
    obtain ⟨s₃', hbody', hs₃⟩ := ih hs₂ hnames' hw₂ hw₂' hz.2
    obtain ⟨outer', hleave', hs₄⟩ := hs₃.leave hleave
    rw [Tree.respell_quantifier hq]
    exact ⟨_, .bodyFailed hq ((left.isBinding_respell r).2 hleft) hb' hnode' hdeclare' hbody'
      hleave', hs₄⟩
  | @bodyRefused _ left right _ _ _ _ _ _ _ _ _ _ hq hleft hb hnode hdeclare _ hleave hty ihb ih =>
    have hi := hs.context.index_lt
    obtain ⟨s₁', hb', hs₁⟩ := ihb hs hnames hw hw' hz.1
    obtain ⟨hnode', inner', hdeclare', hs₂, hnames', hw₂, hw₂'⟩ :=
      hb.enter hb' hleft hi hs₁ hnames hw hw' hz.1 hnode hdeclare
    obtain ⟨s₃', hbody', hs₃⟩ := ih hs₂ hnames' hw₂ hw₂' hz.2
    obtain ⟨outer', hleave', hs₄⟩ := (hs₃.report ⟨_, _⟩).leave hleave
    have hrefused := Elaborates.bodyRefused hq ((left.isBinding_respell r).2 hleft) hb' hnode'
      hdeclare' hbody' hleave' hty
    rw [right.span_respell] at hrefused
    rw [Tree.respell_quantifier hq]
    exact ⟨_, hrefused, hs₄⟩
  | @quantified _ left _ _ _ _ _ _ _ _ _ _ _ hq hleft hb hnode hdeclare _ hleave hty ihb ih =>
    have hi := hs.context.index_lt
    obtain ⟨s₁', hb', hs₁⟩ := ihb hs hnames hw hw' hz.1
    obtain ⟨hnode', inner', hdeclare', hs₂, hnames', hw₂, hw₂'⟩ :=
      hb.enter hb' hleft hi hs₁ hnames hw hw' hz.1 hnode hdeclare
    obtain ⟨s₃', hbody', hs₃⟩ := ih hs₂ hnames' hw₂ hw₂' hz.2
    obtain ⟨outer', hleave', hs₄⟩ := hs₃.leave hleave
    rw [Tree.respell_quantifier hq]
    exact hs₄.respelled (.quantified hq ((left.isBinding_respell r).2 hleft) hb' hnode' hdeclare'
      hbody' hleave' hty)

end Simulation

end ArithLogic
