import ArithLogic.Proofs.Elaboration.Running

/-!
# ArithLogic.Proofs.Elaboration.Course

The course of an elaboration, as a relation between a tree, the session in
which it is elaborated, and what comes out.  `Elaborates` has one rule for
each way in which a construct can end: a part of it fails, the parts do not
fit, or its node is appended.  `run_elaborate_iff` says that these are the
courses which the program takes in a well formed context; whatever holds of
elaboration is proved by induction on them.
-/

namespace ArithLogic

/-- An error with its place in the text. -/
structure Fault where
  error : ElabError
  span : Span

/-- What is left to do when the parts of a construct are there: append a node
of a type, or report faults, of which the first one counts. -/
inductive Verdict
  | build (node : Node NodeRef) (ty : Ty)
  | refuse (first : Fault) (others : List Fault)

/-- What an elaboration ends with. -/
abbrev Conclusion := Except ElabError Elaboration × Session

namespace Session

/-- The session after a fault was reported. -/
def report (s : Session) (fault : Fault) : Session :=
  ⟨s.context, s.events.push (.reported ⟨.error, fault.error.message, some fault.span⟩)⟩

/-- The session after a node was appended. -/
def add (s : Session) (node : Node NodeRef) : Session := ⟨(s.context.add node).2, s.events⟩

/-- Acts on a verdict. -/
def conclude (s : Session) : Verdict → Conclusion
  | .build node ty => (.ok ⟨⟨s.context.size⟩, ty⟩, s.add node)
  | .refuse first others => (.error first.error, (first :: others).foldl report s)

/-- The session after a binding was appended, with the node of its name. -/
def addBinding (s : Session) (text : String) (ty : Ty) : Session :=
  (⟨(s.context.addId text).2, s.events⟩ : Session).add (.bind ⟨s.context.size⟩ ty)

/-- The same events in another context, and one event more. -/
def moveTo (s : Session) (cx : Context) (event : Event) : Session := ⟨cx, s.events.push event⟩

end Session

/-! ## verdicts -/

/-- The fault of an expression that is not of the type its place demands. -/
def Elaboration.faults (e : Elaboration) (expected : Ty) (span : Span) : List Fault :=
  if e.ty = expected then [] else [⟨.typeMismatch expected e.ty, span⟩]

/-- The verdict if there are no faults. -/
def Verdict.unless (verdict : Verdict) : List Fault → Verdict
  | [] => verdict
  | first :: others => .refuse first others

/-- The fault of a tree of the wrong shape. -/
def Verdict.malformed (reason : String) (span : Span) : Verdict := .refuse ⟨.malformedTree reason, span⟩ []

/-- The verdict on a token that is no name. -/
def Token.verdict (token : Token) : Verdict :=
  match token.kind with
  | .kwTrue => .build (.bool true) .bool
  | .kwFalse => .build (.bool false) .bool
  | .literal =>
    match Text.integer? token.text.toList with
    | some value => .build (.int value) .int
    | none => .refuse ⟨.malformedLiteral token.text, token.span⟩ []
  | _ => .malformed s!"`{token.text}` cannot stand alone" token.span

/-- The verdict on a prefix operator over an operand. -/
def PrefixForm.verdict (form : PrefixForm) (e : Elaboration) (span : Span) : Verdict :=
  (Verdict.build (form.node e.expr) form.type).unless (e.faults form.type span)

/-- The verdict on an infix operator over operands of the right types. -/
def Context.infixVerdict (cx : Context) (op : Token) (l r : Elaboration) (leftSpan rightSpan : Span) :
    InfixForm → Verdict
  | .additive a => .build (.additive a l.expr r.expr) .int
  | .relation a => .build (.relation a l.expr r.expr) .bool
  | .connective a => .build (.connective a l.expr r.expr) .bool
  | .product =>
    if cx.isLiteral l.expr then .build (.scaling .mul l.expr r.expr) .int
    else if cx.isLiteral r.expr then .build (.scaling .mul r.expr l.expr) .int
    else .refuse ⟨.nonLiteralFactor op.text, leftSpan.join rightSpan⟩ []
  | .quotient =>
    if cx.isLiteral r.expr then .build (.scaling .div r.expr l.expr) .int
    else .refuse ⟨.nonLiteralFactor op.text, rightSpan⟩ []

/-- The faults of the operands of an infix operator, each in its place. -/
def InfixForm.faults (form : InfixForm) (l r : Elaboration) (leftSpan rightSpan : Span) :
    List Fault :=
  l.faults form.operandType leftSpan ++ r.faults form.operandType rightSpan

/-- The token of a tree that is a name. -/
def Tree.name? : Tree → Option Token
  | .terminal token => if token.kind.isName then some token else none
  | _ => none

/-- The type that an expression designates, or the fault if it designates
none. -/
def Context.designation (cx : Context) (e : Elaboration) (span : Span) : Except Fault Ty :=
  if e.ty = .kind then
    match cx.node? e.expr with
    | some (.var name d) =>
      match (cx.decl? d).bind Decl.init with
      | none => .error ⟨.incompleteType name.text, span⟩
      | some init =>
        match cx.type? init with
        | some ty => .ok ty
        | none => .error ⟨.notAType name.text, span⟩
    | _ => .error ⟨.notAType "expression", span⟩
  else .error ⟨.typeMismatch .kind e.ty, span⟩

/-- A tree of the shape `name : type`. -/
def Tree.IsBinding : Tree → Prop
  | .binary colon _ _ => colon.kind = .colon
  | _ => False

/-! ## operators -/

/-- An infix operator stands neither for a binding or a definition nor for a
quantifier. -/
theorem InfixForm.kind_of_ofToken? {kind : TokenKind} {form : InfixForm}
    (h : ofToken? kind = some form) :
    kind ≠ .colon ∧ kind ≠ .assign ∧ Quantifier.ofToken? kind = none := by
  cases kind <;> simp_all [ofToken?, Quantifier.ofToken?]

/-- Nor does a quantifier stand for one of the first two. -/
theorem Quantifier.kind_of_ofToken? {kind : TokenKind} {q : Quantifier}
    (h : ofToken? kind = some q) : kind ≠ .colon ∧ kind ≠ .assign := by
  cases kind <;> simp_all [ofToken?]

/-! ## what verdicts can be -/

/-- The verdict on a token builds a truth value or a number, or blames the token. -/
@[elab_as_elim]
theorem Token.verdict_cases {motive : Verdict → Prop} (token : Token)
    (truth : ∀ value, motive (.build (.bool value) .bool))
    (number : ∀ value, motive (.build (.int value) .int))
    (fault : ∀ error, motive (.refuse ⟨error, token.span⟩ [])) : motive token.verdict := by
  unfold verdict
  split
  · exact truth true
  · exact truth false
  · split
    · exact number _
    · exact fault _
  · exact fault _

/-- The verdict on an infix operator builds a node over both operands, of which the
factor of a product or quotient is a literal, or blames the right operand or both
for having none. -/
@[elab_as_elim]
theorem Context.infixVerdict_cases {motive : Verdict → Prop} (cx : Context) (op : Token)
    (l r : Elaboration) (leftSpan rightSpan : Span) (form : InfixForm)
    (additive : ∀ a, motive (.build (.additive a l.expr r.expr) .int))
    (relation : ∀ a, motive (.build (.relation a l.expr r.expr) .bool))
    (connective : ∀ a, motive (.build (.connective a l.expr r.expr) .bool))
    (leftFactor : cx.isLiteral l.expr = true → motive (.build (.scaling .mul l.expr r.expr) .int))
    (rightFactor : ∀ a, cx.isLiteral r.expr = true →
      motive (.build (.scaling a r.expr l.expr) .int))
    (fault : ∀ span, span = leftSpan.join rightSpan ∨ span = rightSpan →
      motive (.refuse ⟨.nonLiteralFactor op.text, span⟩ [])) :
    motive (cx.infixVerdict op l r leftSpan rightSpan form) := by
  cases form with
  | additive a => exact additive a
  | relation a => exact relation a
  | connective a => exact connective a
  | product =>
    simp only [infixVerdict]
    split
    · next hleft => exact leftFactor hleft
    · split
      · next hright => exact rightFactor .mul hright
      · exact fault _ (.inl rfl)
  | quotient =>
    simp only [infixVerdict]
    split
    · next hright => exact rightFactor .div hright
    · exact fault _ (.inr rfl)

/-! ## courses -/

/-- The tree, elaborated in the session, comes to the conclusion. -/
inductive Elaborates : Tree → Session → Conclusion → Prop
  | enclosed {opening closing : Token} {body : Tree} {s : Session} {out : Conclusion} :
      Elaborates body s out → Elaborates (.enclosed opening body closing) s out
  | named {token : Token} {s : Session} {d : DeclRef} {decl : Decl} {name : Symbol} :
      token.kind.isName → s.context.lookup? token.text = some d →
      s.context.decl? d = some decl → s.context.declName? d = some name →
      Elaborates (.terminal token) s (s.conclude (.build (.var name d) decl.ty))
  | unbound {token : Token} {s : Session} :
      token.kind.isName → s.context.lookup? token.text = none →
      Elaborates (.terminal token) s
        (s.conclude (.refuse ⟨.unboundName token.text, token.span⟩ []))
  | constant {token : Token} {s : Session} :
      token.kind.isName = false → Elaborates (.terminal token) s (s.conclude token.verdict)
  | noPrefix {op : Token} {operand : Tree} {s : Session} :
      PrefixForm.ofToken? op.kind = none →
      Elaborates (.unary op operand) s
        (s.conclude (.malformed s!"`{op.text}` is not a prefix operator" (op.span.join operand.span)))
  | operandFailed {op : Token} {operand : Tree} {s s' : Session} {form : PrefixForm}
      {error : ElabError} :
      PrefixForm.ofToken? op.kind = some form → Elaborates operand s (.error error, s') →
      Elaborates (.unary op operand) s (.error error, s')
  | prefixed {op : Token} {operand : Tree} {s s' : Session} {form : PrefixForm}
      {e : Elaboration} :
      PrefixForm.ofToken? op.kind = some form → Elaborates operand s (.ok e, s') →
      Elaborates (.unary op operand) s (s'.conclude (form.verdict e operand.span))
  | noInfix {op : Token} {left right : Tree} {s : Session} :
      InfixForm.ofToken? op.kind = none → Quantifier.ofToken? op.kind = none →
      op.kind ≠ .colon → op.kind ≠ .assign →
      Elaborates (.binary op left right) s
        (s.conclude (.malformed s!"`{op.text}` is not a binary operator"
          ((left.span.join op.span).join right.span)))
  | leftFailed {op : Token} {left right : Tree} {s s' : Session} {form : InfixForm}
      {error : ElabError} :
      InfixForm.ofToken? op.kind = some form → Elaborates left s (.error error, s') →
      Elaborates (.binary op left right) s (.error error, s')
  | rightFailed {op : Token} {left right : Tree} {s s₁ s₂ : Session} {form : InfixForm}
      {l : Elaboration} {error : ElabError} :
      InfixForm.ofToken? op.kind = some form → Elaborates left s (.ok l, s₁) →
      Elaborates right s₁ (.error error, s₂) →
      Elaborates (.binary op left right) s (.error error, s₂)
  | infixed {op : Token} {left right : Tree} {s s₁ s₂ : Session} {form : InfixForm}
      {l r : Elaboration} :
      InfixForm.ofToken? op.kind = some form → Elaborates left s (.ok l, s₁) →
      Elaborates right s₁ (.ok r, s₂) →
      Elaborates (.binary op left right) s
        (s₂.conclude ((s₂.context.infixVerdict op l r left.span right.span form).unless
          (form.faults l r left.span right.span)))
  | definition {op : Token} {left right : Tree} {s : Session} :
      op.kind = .assign →
      Elaborates (.binary op left right) s
        (s.conclude (.malformed "definitions are only allowed as statements"
          (Tree.binary op left right).span))
  | noName {op : Token} {left right : Tree} {s : Session} :
      op.kind = .colon → left.name? = none →
      Elaborates (.binary op left right) s
        (s.conclude (.malformed "expected a name to bind" left.span))
  | typeFailed {op name : Token} {left right : Tree} {s s' : Session} {error : ElabError} :
      op.kind = .colon → left.name? = some name → Elaborates right s (.error error, s') →
      Elaborates (.binary op left right) s (.error error, s')
  | noType {op name : Token} {left right : Tree} {s s' : Session} {e : Elaboration}
      {fault : Fault} :
      op.kind = .colon → left.name? = some name → Elaborates right s (.ok e, s') →
      s'.context.designation e right.span = .error fault →
      Elaborates (.binary op left right) s (s'.conclude (.refuse fault []))
  | bound {op name : Token} {left right : Tree} {s s' : Session} {e : Elaboration} {ty : Ty} :
      op.kind = .colon → left.name? = some name → Elaborates right s (.ok e, s') →
      s'.context.designation e right.span = .ok ty →
      Elaborates (.binary op left right) s
        (.ok ⟨⟨s'.context.size + 1⟩, ty⟩, s'.addBinding name.text ty)
  | noBinding {op : Token} {left right : Tree} {s : Session} {q : Quantifier} :
      Quantifier.ofToken? op.kind = some q → ¬ left.IsBinding →
      Elaborates (.binary op left right) s
        (s.conclude (.malformed s!"`{op.text}` expects a binding `name : type`" left.span))
  | bindingFailed {op : Token} {left right : Tree} {s s' : Session} {q : Quantifier}
      {error : ElabError} :
      Quantifier.ofToken? op.kind = some q → left.IsBinding →
      Elaborates left s (.error error, s') →
      Elaborates (.binary op left right) s (.error error, s')
  | bodyFailed {op : Token} {left right : Tree} {s s₁ s₂ : Session} {q : Quantifier}
      {b : Elaboration} {id : NodeRef} {d : DeclRef} {inner outer : Context} {error : ElabError} :
      Quantifier.ofToken? op.kind = some q → left.IsBinding → Elaborates left s (.ok b, s₁) →
      s₁.context.node? b.expr = some (.bind id b.ty) →
      s₁.context.enterScope.declareId id b.ty none = .ok (d, inner) →
      Elaborates right (s₁.moveTo inner (.scopeEntered (s₁.context.depth + 1)))
        (.error error, s₂) →
      s₂.context.leaveScope = .ok outer →
      Elaborates (.binary op left right) s
        (.error error, s₂.moveTo outer (.scopeLeft outer.depth))
  | bodyRefused {op : Token} {left right : Tree} {s s₁ s₂ : Session} {q : Quantifier}
      {b e : Elaboration} {id : NodeRef} {d : DeclRef} {inner outer : Context} :
      Quantifier.ofToken? op.kind = some q → left.IsBinding → Elaborates left s (.ok b, s₁) →
      s₁.context.node? b.expr = some (.bind id b.ty) →
      s₁.context.enterScope.declareId id b.ty none = .ok (d, inner) →
      Elaborates right (s₁.moveTo inner (.scopeEntered (s₁.context.depth + 1))) (.ok e, s₂) →
      s₂.context.leaveScope = .ok outer → e.ty ≠ .bool →
      Elaborates (.binary op left right) s
        (.error (.typeMismatch .bool e.ty),
          (s₂.report ⟨.typeMismatch .bool e.ty, right.span⟩).moveTo outer (.scopeLeft outer.depth))
  | quantified {op : Token} {left right : Tree} {s s₁ s₂ : Session} {q : Quantifier}
      {b e : Elaboration} {id : NodeRef} {d : DeclRef} {inner outer : Context} :
      Quantifier.ofToken? op.kind = some q → left.IsBinding → Elaborates left s (.ok b, s₁) →
      s₁.context.node? b.expr = some (.bind id b.ty) →
      s₁.context.enterScope.declareId id b.ty none = .ok (d, inner) →
      Elaborates right (s₁.moveTo inner (.scopeEntered (s₁.context.depth + 1))) (.ok e, s₂) →
      s₂.context.leaveScope = .ok outer → e.ty = .bool →
      Elaborates (.binary op left right) s
        ((s₂.moveTo outer (.scopeLeft outer.depth)).conclude
          (.build (.quantifier q b.expr e.expr) .bool))

end ArithLogic
