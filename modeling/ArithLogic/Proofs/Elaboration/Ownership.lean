import ArithLogic.Proofs.Elaboration.Statements

/-!
# ArithLogic.Proofs.Elaboration.Ownership

The nodes that an elaboration appends belong to it alone.  Their children are
appended by it as well, no two of them share a child, and what comes out is a
child of none (`Elaborates.sprouts`): sharing is a matter of normal form.  In
the same way every declaration has a node of its own for its name
(`Elaborates.distinctNames`), so that a variable in one expression cannot be
bound by a quantifier of another one.
-/

namespace ArithLogic

namespace Context

variable {cx later : Context} {lo hi : Nat} {e p c : NodeRef} {node : Node NodeRef}

/-! ## forests -/

/-- The node `p` has the child `c`. -/
def HasChild (cx : Context) (p c : NodeRef) : Prop :=
  ∃ node, cx.node? p = some node ∧ c ∈ node.children

/-- Of the nodes from `lo` to before `hi` none has an older child than these
nodes, and no two have a child in common. -/
structure Forest (cx : Context) (lo hi : Nat) : Prop where
  inner : ∀ p c, lo ≤ p.index → p.index < hi → cx.HasChild p c → lo ≤ c.index
  single : ∀ p p' c, lo ≤ p.index → p.index < hi → lo ≤ p'.index → p'.index < hi →
    cx.HasChild p c → cx.HasChild p' c → p = p'

/-- A node from `lo` on that no node from there on has as a child. -/
structure Root (cx : Context) (lo : Nat) (e : NodeRef) : Prop where
  lower : lo ≤ e.index
  upper : e.index < cx.size
  single : ∀ p, lo ≤ p.index → ¬ cx.HasChild p e

theorem WellFormed.index_lt_of_hasChild (h : cx.WellFormed) (hc : cx.HasChild p c) :
    c.index < p.index := by
  obtain ⟨node, hnode, hmem⟩ := hc
  exact h.children_older hnode c hmem

theorem HasChild.index_lt (h : cx.HasChild p c) : p.index < cx.size := by
  obtain ⟨node, hnode, -⟩ := h
  exact index_lt_of_node? hnode

/-- Children do not change. -/
theorem Within.hasChild_iff (h : cx.Within later) (hp : p.index < cx.size) :
    later.HasChild p c ↔ cx.HasChild p c := by
  unfold HasChild
  rw [h.node?_eq hp]

/-- Of a node that was just appended the children are known. -/
theorem mem_of_hasChild_add (h : (cx.add node).2.HasChild ⟨cx.size⟩ c) : c ∈ node.children := by
  obtain ⟨found, hfound, hc⟩ := h
  rw [node?_add_self] at hfound
  cases hfound
  exact hc

theorem nodes_of_declareId {id : NodeRef} {ty : Ty}
    {init : Option NodeRef} {d : DeclRef} (h : cx.declareId id ty init = .ok (d, later)) :
    later.nodes = cx.nodes := by
  obtain ⟨name, scopes, -, -, -, rfl⟩ := declareId_eq_ok_iff.1 h
  rfl

theorem nodes_of_leaveScope (h : cx.leaveScope = .ok later) :
    later.nodes = cx.nodes := by
  obtain ⟨env, next, outer, -, rfl⟩ := leaveScope_eq_ok_iff.1 h
  rfl

/-- Only the nodes decide who is a child. -/
theorem hasChild_of_nodes (h : later.nodes = cx.nodes) : later.HasChild = cx.HasChild := by
  funext p c
  simp only [HasChild, node?, h]

theorem Forest.of_nodes (h : cx.Forest lo cx.size) (hnodes : later.nodes = cx.nodes) :
    later.Forest lo later.size := by
  have hsize : later.size = cx.size := congrArg Array.size hnodes
  constructor <;> rw [hasChild_of_nodes hnodes, hsize]
  · exact h.inner
  · exact h.single

theorem Root.of_nodes (h : cx.Root lo e) (hnodes : later.nodes = cx.nodes) : later.Root lo e := by
  refine ⟨h.lower, ?_, ?_⟩
  · rw [size, hnodes]
    exact h.upper
  · rw [hasChild_of_nodes hnodes]
    exact h.single

theorem eq_of_hasChild_add (h : (cx.add node).2.HasChild p c) (hp : ¬ p.index < cx.size) :
    p = ⟨cx.size⟩ := by
  have hlt := h.index_lt
  rw [size_add] at hlt
  obtain ⟨index⟩ := p
  exact congrArg NodeRef.mk (Nat.le_antisymm (Nat.le_of_lt_succ hlt) (Nat.le_of_not_lt hp))

theorem forest_empty (cx : Context) : cx.Forest cx.size cx.size where
  inner _ _ hlo hhi := absurd hhi (Nat.not_lt.2 hlo)
  single _ _ _ hlo hhi := absurd hhi (Nat.not_lt.2 hlo)

/-- A forest is one in later contexts, and so is its beginning. -/
theorem Forest.mono (h : cx.Forest lo hi) (hwithin : cx.Within later) {hi' : Nat} (hle : hi' ≤ hi)
    (hsize : hi ≤ cx.size) : later.Forest lo hi' := by
  have hold : ∀ {p c : NodeRef}, p.index < hi' → later.HasChild p c → cx.HasChild p c :=
    fun hp => (hwithin.hasChild_iff (by omega)).1
  refine ⟨fun p c hlo hp hc => h.inner p c hlo (by omega) (hold hp hc), ?_⟩
  intro p p' c hlo hp hlo' hp' hc hc'
  exact h.single p p' c hlo (by omega) hlo' (by omega) (hold hp hc) (hold hp' hc')

/-- Two forests, one appended after the other, are one. -/
theorem Forest.trans (h : cx.Forest lo cx.size) (h' : later.Forest cx.size later.size)
    (hw : cx.WellFormed) (hwithin : cx.Within later) (hle : lo ≤ cx.size) :
    later.Forest lo later.size := by
  have hsplit : ∀ {p c : NodeRef}, later.HasChild p c →
      (p.index < cx.size ∧ cx.HasChild p c ∧ c.index < cx.size) ∨
        (cx.size ≤ p.index ∧ p.index < later.size ∧ cx.size ≤ c.index) := by
    intro p c hc
    by_cases hp : p.index < cx.size
    · have hold := (hwithin.hasChild_iff hp).1 hc
      exact .inl ⟨hp, hold, Nat.lt_trans (hw.index_lt_of_hasChild hold) hp⟩
    · exact .inr ⟨by omega, hc.index_lt, h'.inner p c (by omega) hc.index_lt hc⟩
  constructor
  · intro p c hlo _ hc
    rcases hsplit hc with ⟨hp, hold, -⟩ | ⟨-, -, hnew⟩
    · exact h.inner p c hlo hp hold
    · omega
  · intro p p' c hlo _ hlo' _ hc hc'
    rcases hsplit hc with ⟨hp, hold, hlt⟩ | ⟨hp, hhi, hge⟩ <;>
      rcases hsplit hc' with ⟨hp', hold', hlt'⟩ | ⟨hp', hhi', hge'⟩
    · exact h.single p p' c hlo hp hlo' hp' hold hold'
    · omega
    · omega
    · exact h'.single p p' c hp hhi hp' hhi' hc hc'

/-- What is appended after a root has other children. -/
theorem Root.trans (h : cx.Root lo e) (h' : later.Forest cx.size later.size)
    (hwithin : cx.Within later) : later.Root lo e := by
  refine ⟨h.lower, hwithin.index_lt h.upper, fun p hlo hc => ?_⟩
  by_cases hp : p.index < cx.size
  · exact h.single p hlo ((hwithin.hasChild_iff hp).1 hc)
  · have hge := h'.inner p e (by omega) hc.index_lt hc
    have hlt := h.upper
    omega

/-- What is older than a root has other children. -/
theorem Root.lower_le (h : later.Root cx.size e) (hw : cx.WellFormed) (hwithin : cx.Within later)
    (hle : lo ≤ cx.size) : later.Root lo e := by
  refine ⟨Nat.le_trans hle h.lower, h.upper, fun p _ hc => ?_⟩
  by_cases hp : p.index < cx.size
  · have hlt := hw.index_lt_of_hasChild ((hwithin.hasChild_iff hp).1 hc)
    have hge := h.lower
    omega
  · exact h.single p (by omega) hc

/-- A root is one beside a node that has no children. -/
theorem Root.add_leaf (h : cx.Root lo e) (hleaf : node.children = []) :
    (cx.add node).2.Root lo e := by
  refine ⟨h.lower, (Within.add cx node).index_lt h.upper, fun p hlo hc => ?_⟩
  by_cases hp : p.index < cx.size
  · exact h.single p hlo (((Within.add cx node).hasChild_iff hp).1 hc)
  · obtain rfl := eq_of_hasChild_add hc hp
    simpa [hleaf] using mem_of_hasChild_add hc

/-- A node over roots is the root of a larger forest. -/
theorem Forest.add (h : cx.Forest lo cx.size) (node : Node NodeRef) (hw : cx.WellFormed)
    (hle : lo ≤ cx.size) (hparts : ∀ c ∈ node.children, cx.Root lo c) :
    (cx.add node).2.Forest lo (cx.add node).2.size ∧ (cx.add node).2.Root lo ⟨cx.size⟩ := by
  have hwithin := Within.add cx node
  have hsplit : ∀ {p c : NodeRef}, lo ≤ p.index → (cx.add node).2.HasChild p c →
      (p.index < cx.size ∧ cx.HasChild p c ∧ c.index < p.index) ∨
        (p = ⟨cx.size⟩ ∧ cx.Root lo c) := by
    intro p c _ hc
    by_cases hp : p.index < cx.size
    · have hold := (hwithin.hasChild_iff hp).1 hc
      exact .inl ⟨hp, hold, hw.index_lt_of_hasChild hold⟩
    · obtain rfl := eq_of_hasChild_add hc hp
      exact .inr ⟨rfl, hparts c (mem_of_hasChild_add hc)⟩
  refine ⟨⟨fun p c hlo _ hc => ?_, fun p p' c hlo _ hlo' _ hc hc' => ?_⟩, hle, by simp, ?_⟩
  · rcases hsplit hlo hc with ⟨hp, hold, -⟩ | ⟨-, hroot⟩
    · exact h.inner p c hlo hp hold
    · exact hroot.lower
  · rcases hsplit hlo hc with ⟨hp, hold, -⟩ | ⟨rfl, hroot⟩ <;>
      rcases hsplit hlo' hc' with ⟨hp', hold', -⟩ | ⟨rfl, hroot'⟩
    · exact h.single p p' c hlo hp hlo' hp' hold hold'
    · exact absurd hold (hroot'.single p hlo)
    · exact absurd hold' (hroot.single p' hlo')
    · rfl
  · intro p hlo hc
    rcases hsplit hlo hc with ⟨hp, -, hlt⟩ | ⟨-, hroot⟩
    · exact absurd (Nat.lt_trans hlt hp) (Nat.lt_irrefl _)
    · exact absurd hroot.upper (Nat.lt_irrefl _)

end Context

/-! ## what an elaboration appends -/

/-- What was appended since the session is a forest, and what came out is one of
its roots. -/
structure Sprouts (s : Session) (out : Conclusion) : Prop where
  forest : out.2.context.Forest s.context.size out.2.context.size
  root : ∀ e, out.1 = .ok e → out.2.context.Root s.context.size e.expr

/-- What the verdict builds is built over some of the parts. -/
def Verdict.Over (parts : List NodeRef) : Verdict → Prop
  | build node _ => ∀ c ∈ node.children, c ∈ parts
  | refuse _ _ => True

theorem Verdict.Over.unless {parts : List NodeRef} {verdict : Verdict} (h : verdict.Over parts)
    (faults : List Fault) : (verdict.unless faults).Over parts := by
  cases faults with
  | nil => exact h
  | cons => trivial

theorem Token.verdict_over (token : Token) : token.verdict.Over [] := by
  refine token.verdict_cases (fun _ => ?_) (fun _ => ?_) (fun _ => trivial) <;>
    simp [Verdict.Over, Node.children]

theorem PrefixForm.verdict_over (form : PrefixForm) (e : Elaboration) (span : Span) :
    (form.verdict e span).Over [e.expr] := by
  refine .unless ?_ _
  cases form with
  | sign | not => simp [Verdict.Over, node, Node.children]

theorem Context.infixVerdict_over (cx : Context) (op : Token) (l r : Elaboration)
    (leftSpan rightSpan : Span) (form : InfixForm) :
    (cx.infixVerdict op l r leftSpan rightSpan form).Over [l.expr, r.expr] := by
  refine cx.infixVerdict_cases op l r leftSpan rightSpan form (fun _ => ?_) (fun _ => ?_)
    (fun _ => ?_) (fun _ => ?_) (fun _ _ => ?_) (fun _ _ => trivial) <;>
    simp [Verdict.Over, Node.children]

namespace Sprouts

variable {s s' : Session} {r : Except ElabError Elaboration} {out : Conclusion}

/-- One elaboration after the other. -/
theorem trans (h : Sprouts s (r, s')) (h' : Sprouts s' out) (hkept : Kept s (r, s'))
    (hkept' : Kept s' out) : Sprouts s out where
  forest := h.forest.trans h'.forest hkept.wellFormed hkept'.within hkept.within.size_le
  root e he := (h'.root e he).lower_le hkept.wellFormed hkept'.within hkept.within.size_le

/-- A verdict over roots. -/
theorem conclude {verdict : Verdict} (parts : List NodeRef)
    (hforest : s'.context.Forest s.context.size s'.context.size) (hw : s'.context.WellFormed)
    (hle : s.context.size ≤ s'.context.size) (hover : verdict.Over parts)
    (hparts : ∀ c ∈ parts, s'.context.Root s.context.size c) : Sprouts s (s'.conclude verdict) := by
  cases verdict with
  | build node ty =>
    obtain ⟨hlarger, hroot⟩ := hforest.add node hw hle fun c hc => hparts c (hover c hc)
    refine ⟨hlarger, ?_⟩
    rintro e ⟨⟩
    exact hroot
  | refuse first others =>
    refine ⟨by rw [s'.context_refuse first others]; exact hforest, ?_⟩
    rintro e ⟨⟩

/-- A verdict on nothing that was elaborated before. -/
theorem conclude_nil {verdict : Verdict} (hw : s.context.WellFormed) (hover : verdict.Over []) :
    Sprouts s (s.conclude verdict) :=
  conclude [] s.context.forest_empty hw (Nat.le_refl _) hover (by simp)

/-- A binding, with the node of its name. -/
theorem addBinding (h : s'.context.Forest s.context.size s'.context.size) (hw : s'.context.WellFormed)
    (hle : s.context.size ≤ s'.context.size) (text : String) (ty : Ty) :
    Sprouts s (.ok ⟨⟨s'.context.size + 1⟩, ty⟩, s'.addBinding text ty) := by
  have hinterned : (s'.context.intern text).2.Forest s.context.size
      (s'.context.intern text).2.size := h.of_nodes rfl
  obtain ⟨hid, hroot⟩ := hinterned.add (.id (s'.context.intern text).1) (hw.intern text) hle
    (by simp [Node.children])
  have hnamed : (s'.context.addId text).2.Forest s.context.size (s'.context.addId text).2.size := hid
  obtain ⟨hbind, hroot'⟩ := hnamed.add (.bind ⟨s'.context.size⟩ ty) (hw.addId text)
    (Nat.le_trans hle (by rw [Context.size_addId]; exact Nat.le_succ _))
    (by simp only [Node.children, List.mem_singleton]; rintro _ rfl; exact hroot)
  rw [Context.size_addId] at hroot'
  refine ⟨hbind, ?_⟩
  rintro e ⟨⟩
  exact hroot'

/-- Only the nodes matter, and nothing comes out of a failure. -/
theorem failed (h : Sprouts s (r, s')) (error : ElabError) (fault : Fault) :
    Sprouts s (.error error, s'.report fault) :=
  ⟨h.forest, by simp⟩

/-- To enter a scope, to declare a name in it and to leave it appends no node. -/
theorem inScope {inner outer : Context} {event event' : Event} {id : NodeRef} {ty : Ty}
    {d : DeclRef} (hdeclare : s.context.enterScope.declareId id ty none = .ok (d, inner))
    (h : Sprouts (s.moveTo inner event) (r, s')) (hleave : s'.context.leaveScope = .ok outer) :
    Sprouts s (r, s'.moveTo outer event') := by
  have hinner : inner.nodes = s.context.enterScope.nodes := Context.nodes_of_declareId hdeclare
  have houter : outer.nodes = s'.context.nodes := Context.nodes_of_leaveScope hleave
  have hsize : inner.size = s.context.size := congrArg Array.size hinner
  have hforest := h.forest
  have hroot := h.root
  simp only [Session.context_moveTo, hsize] at hforest hroot
  exact ⟨hforest.of_nodes houter, fun e he => (hroot e he).of_nodes houter⟩

end Sprouts

/-- What an elaboration appends is a forest, and its result is a root. -/
theorem Elaborates.sprouts {tree : Tree} {s : Session} {out : Conclusion}
    (h : Elaborates tree s out) (hw : s.context.WellFormed) : Sprouts s out := by
  induction h with
  | enclosed _ ih | operandFailed _ _ ih | leftFailed _ _ ih | typeFailed _ _ _ ih
  | bindingFailed _ _ _ ih => exact ih hw
  | named | unbound | noPrefix | noInfix | definition | noName | noBinding =>
    exact .conclude_nil hw (by simp [Verdict.Over, Verdict.malformed, Node.children])
  | constant => exact .conclude_nil hw (Token.verdict_over _)
  | prefixed _ hoperand ih =>
    have hk := hoperand.kept hw
    have hs := ih hw
    exact .conclude _ hs.forest hk.wellFormed hk.within.size_le (PrefixForm.verdict_over ..)
      (by simpa using hs.root _ rfl)
  | rightFailed _ hl hr ihl ihr =>
    have hkl := hl.kept hw
    exact (ihl hw).trans (ihr hkl.wellFormed) hkl (hr.kept hkl.wellFormed)
  | infixed _ hl hr ihl ihr =>
    have hkl := hl.kept hw
    have hkr := hr.kept hkl.wellFormed
    have hboth := (ihl hw).trans (ihr hkl.wellFormed) hkl hkr
    have hleft := ((ihl hw).root _ rfl).trans (ihr hkl.wellFormed).forest hkr.within
    refine .conclude _ hboth.forest hkr.wellFormed (hkl.trans hkr).within.size_le
      (.unless (Context.infixVerdict_over ..) _) ?_
    simpa using ⟨hleft, hboth.root _ rfl⟩
  | noType _ _ htype _ ih =>
    have hk := htype.kept hw
    exact .conclude [] (ih hw).forest hk.wellFormed hk.within.size_le trivial (by simp)
  | bound _ _ htype _ ih =>
    have hk := htype.kept hw
    exact .addBinding (ih hw).forest hk.wellFormed hk.within.size_le ..
  | bodyFailed _ _ hb _ hdeclare hbody hleave ihb ih =>
    have hkb := hb.kept hw
    have hinner := hkb.wellFormed.enterScope.declareVar hdeclare
    exact (ihb hw).trans (.inScope hdeclare (ih hinner) hleave) hkb
      (.inScope hdeclare (hbody.kept hinner) hleave)
  | bodyRefused _ _ hb _ hdeclare hbody hleave _ ihb ih =>
    have hkb := hb.kept hw
    have hinner := hkb.wellFormed.enterScope.declareVar hdeclare
    exact (ihb hw).trans (.inScope hdeclare ((ih hinner).failed _ ⟨_, _⟩) hleave) hkb
      (.inScope hdeclare ((hbody.kept hinner).reported ⟨_, _⟩) hleave)
  | @quantified _ _ _ _ _ s₂ _ b e _ _ _ outer _ _ hb _ hdeclare hbody hleave _ ihb ih =>
    have hkb := hb.kept hw
    have hinner := hkb.wellFormed.enterScope.declareVar hdeclare
    have hkbody : Kept _ (_, s₂.moveTo outer (.scopeLeft outer.depth)) :=
      .inScope hdeclare (hbody.kept hinner) hleave
    have hsbody : Sprouts _ (_, s₂.moveTo outer (.scopeLeft outer.depth)) :=
      .inScope hdeclare (ih hinner) hleave
    have hboth := (ihb hw).trans hsbody hkb hkbody
    have hbinding := ((ihb hw).root _ rfl).trans hsbody.forest hkbody.within
    refine .conclude [b.expr, e.expr] hboth.forest hkbody.wellFormed (hkb.trans hkbody).within.size_le
      (by simp [Verdict.Over, Node.children]) ?_
    simpa using ⟨hbinding, hboth.root _ rfl⟩

/-- So it is with statements. -/
theorem ElaboratesForm.sprouts {tree : Tree} {s : Session} {out : Conclusion}
    (h : ElaboratesForm tree s out) (hw : s.context.WellFormed) : Sprouts s out := by
  cases h with
  | expression _ _ hcourse | bindingFailed _ _ _ hcourse | valueFailed _ _ _ hcourse =>
    exact hcourse.sprouts hw
  | noName | redeclared => exact .conclude_nil hw trivial
  | @declared _ _ _ _ _ s₁ b _ _ cx _ _ _ hcourse _ hdeclare =>
    have hs := hcourse.sprouts hw
    have hnodes := Context.nodes_of_declareId hdeclare
    exact ⟨hs.forest.of_nodes hnodes, fun e he => (hs.root e he).of_nodes hnodes⟩
  | noInitial _ _ _ hcourse =>
    have hk := hcourse.kept hw
    exact .conclude [] (hcourse.sprouts hw).forest hk.wellFormed hk.within.size_le trivial (by simp)
  | @defined op name left right _ s₁ e _ _ cx _ _ _ hcourse _ hdeclare =>
    have hk := hcourse.kept hw
    have hs := hcourse.sprouts hw
    have hnodes := Context.nodes_of_declareId hdeclare
    have hinterned : (s₁.context.intern name.text).2.Forest s.context.size
        (s₁.context.intern name.text).2.size := hs.forest.of_nodes rfl
    have hroot : (s₁.context.intern name.text).2.Root s.context.size e.expr :=
      (hs.root e rfl).of_nodes rfl
    obtain ⟨hid, -⟩ := hinterned.add (.id (s₁.context.intern name.text).1)
      (hk.wellFormed.intern _) hk.within.size_le (by simp [Node.children])
    refine ⟨hid.of_nodes hnodes, ?_⟩
    rintro e ⟨⟩
    exact (hroot.add_leaf (by simp [Node.children])).of_nodes hnodes

/-! ## names of declarations -/

namespace Context

variable {cx later : Context} {id : NodeRef} {d : DeclRef} {decl : Decl}

/-- No two declarations have the node of their name in common. -/
def DistinctNames (cx : Context) : Prop :=
  ∀ d d' decl decl', cx.decl? d = some decl → cx.decl? d' = some decl' → decl.name = decl'.name →
    d = d'

/-- The node is the name of nothing that a quantifier binds. -/
def Unquantified (cx : Context) (id : NodeRef) : Prop :=
  ∀ q op b body ty, cx.node? q = some (.quantifier op b body) → cx.node? b ≠ some (.bind id ty)

/-- Whatever a name means here was declared by no quantifier. -/
def FreeNames (cx : Context) : Prop :=
  ∀ name d decl, cx.scopes.find? name = some d → cx.decl? d = some decl → cx.Unquantified decl.name

theorem distinctNames_initial : initial.DistinctNames := by
  intro d d' decl decl' hd hd' hname
  rcases decl?_initial hd with ⟨rfl, rfl⟩ | ⟨rfl, rfl⟩ <;>
    rcases decl?_initial hd' with ⟨rfl, rfl⟩ | ⟨rfl, rfl⟩
  · rfl
  · cases hname
  · cases hname
  · rfl

theorem freeNames_initial : initial.FreeNames := by
  intro name d decl _ _ q op b body ty hq
  rcases node?_initial hq with ⟨-, h⟩ | ⟨-, h⟩ | ⟨-, h⟩ | ⟨-, h⟩ | ⟨-, h⟩ <;> cases h

theorem DistinctNames.of_decls (h : cx.DistinctNames) (hdecls : later.decls = cx.decls) :
    later.DistinctNames := by
  unfold DistinctNames decl?
  rw [hdecls]
  exact h

/-- A name may be declared if its node is not the name of a declaration yet. -/
theorem DistinctNames.declareId {ty : Ty} {init : Option NodeRef}
    (hok : cx.declareId id ty init = .ok (d, later)) (h : cx.DistinctNames)
    (hnew : ∀ d decl, cx.decl? d = some decl → decl.name ≠ id) : later.DistinctNames := by
  intro d₁ d₂ decl₁ decl₂ h₁ h₂ hname
  rcases decl?_of_declareId_cases hok h₁ with ⟨rfl, rfl⟩ | hold₁ <;>
    rcases decl?_of_declareId_cases hok h₂ with ⟨rfl, rfl⟩ | hold₂
  · rfl
  · exact absurd hname.symm (hnew d₂ decl₂ hold₂)
  · exact absurd hname (hnew d₁ decl₁ hold₁)
  · exact h d₁ d₂ decl₁ decl₂ hold₁ hold₂ hname

theorem WellFormed.name_lt (h : cx.WellFormed) (hd : cx.decl? d = some decl) :
    decl.name.index < cx.size := by
  obtain ⟨name, hname⟩ := Option.ne_none_iff_exists'.1 (h.declared d decl hd)
  exact index_lt_of_node? (node?_of_symbol? hname)

/-- Behind a name there would have to be a binding and a quantifier. -/
theorem WellFormed.unquantified_of_le (h : cx.WellFormed) (hle : cx.size ≤ id.index + 2) :
    cx.Unquantified id := by
  intro q op b body ty hq hb
  have hqb := h.children_older hq b List.mem_cons_self
  have hbid := h.children_older hb id List.mem_cons_self
  have hlt := index_lt_of_node? hq
  omega

/-- A quantifier that is new binds a name that is new. -/
theorem Forest.unquantified (h : later.Forest cx.size later.size) (hw : cx.WellFormed)
    (hwithin : cx.Within later) (hid : id.index < cx.size) (hfree : cx.Unquantified id) :
    later.Unquantified id := by
  intro q op b body ty hq hb
  have hqb : later.HasChild q b := ⟨_, hq, List.mem_cons_self⟩
  have hbid : later.HasChild b id := ⟨_, hb, List.mem_cons_self⟩
  by_cases hlt : q.index < cx.size
  · rw [hwithin.node?_eq hlt] at hq
    have hold := hw.children_older hq b List.mem_cons_self
    rw [hwithin.node?_eq (Nat.lt_trans hold hlt)] at hb
    exact hfree q op b body ty hq hb
  · have hge := h.inner q b (by omega) hqb.index_lt hqb
    have hge' := h.inner b id hge hbid.index_lt hbid
    omega

end Context

theorem Session.decls_conclude (s : Session) (verdict : Verdict) :
    (s.conclude verdict).2.context.decls = s.context.decls := by
  cases verdict with
  | build => rfl
  | refuse first others =>
    exact congrArg Context.decls (s.context_refuse first others)

/-- The name of a binding that was just elaborated is not declared yet. -/
theorem Elaborates.name_undeclared {left : Tree} {s s₁ : Session} {b : Elaboration} {id : NodeRef}
    (h : Elaborates left s (.ok b, s₁)) (hleft : left.IsBinding) (hw : s.context.WellFormed)
    (hnode : s₁.context.node? b.expr = some (.bind id b.ty)) :
    s₁.context.size ≤ id.index + 2 ∧ ∀ d decl, s₁.context.decl? d = some decl → decl.name ≠ id := by
  cases left with
  | binary colon left right =>
    obtain ⟨name, e, s₀, ty, -, htype, -, rfl, rfl⟩ := h.binding_parts hleft
    cases hnode.symm.trans (s₀.node?_addBinding name.text ty).1
    refine ⟨by simp [Session.addBinding], fun d decl hd heq => ?_⟩
    -- the declarations are older than the binding
    have hold : s₀.context.decl? d = some decl := hd
    have hlt := (htype.kept hw).wellFormed.name_lt hold
    rw [heq] at hlt
    exact Nat.lt_irrefl _ hlt
  | _ => exact hleft.elim

/-- Elaboration declares every name with a node of its own. -/
theorem Elaborates.distinctNames {tree : Tree} {s : Session} {out : Conclusion}
    (h : Elaborates tree s out) (hw : s.context.WellFormed) (hd : s.context.DistinctNames) :
    out.2.context.DistinctNames := by
  induction h with
  | enclosed _ ih | operandFailed _ _ ih | leftFailed _ _ ih | typeFailed _ _ _ ih
  | bindingFailed _ _ _ ih => exact ih hw hd
  | named | unbound | noPrefix | noInfix | definition | noName | noBinding | constant =>
    exact hd.of_decls (Session.decls_conclude ..)
  | prefixed _ _ ih => exact (ih hw hd).of_decls (Session.decls_conclude ..)
  | rightFailed _ hl _ ihl ihr => exact ihr (hl.kept hw).wellFormed (ihl hw hd)
  | infixed _ hl _ ihl ihr =>
    exact (ihr (hl.kept hw).wellFormed (ihl hw hd)).of_decls (Session.decls_conclude ..)
  | noType _ _ _ _ ih => exact (ih hw hd).of_decls (Session.decls_conclude ..)
  | bound _ _ _ _ ih => exact (ih hw hd).of_decls rfl
  | bodyFailed _ hleft hb hnode hdeclare _ hleave ihb ih
  | bodyRefused _ hleft hb hnode hdeclare _ hleave _ ihb ih =>
    have hinner := (hb.kept hw).wellFormed.enterScope.declareVar hdeclare
    have hdistinct := Context.DistinctNames.declareId hdeclare ((ihb hw hd).of_decls rfl)
      (hb.name_undeclared hleft hw hnode).2
    exact (ih hinner hdistinct).of_decls (Context.decls_of_leaveScope hleave)
  | quantified _ hleft hb hnode hdeclare _ hleave _ ihb ih =>
    have hinner := (hb.kept hw).wellFormed.enterScope.declareVar hdeclare
    have hdistinct := Context.DistinctNames.declareId hdeclare ((ihb hw hd).of_decls rfl)
      (hb.name_undeclared hleft hw hnode).2
    exact (ih hinner hdistinct).of_decls
      ((Session.decls_conclude ..).trans (Context.decls_of_leaveScope hleave))

section Statements

variable {tree : Tree} {s : Session} {out : Conclusion}

theorem ElaboratesForm.distinctNames (h : ElaboratesForm tree s out) (hw : s.context.WellFormed)
    (hd : s.context.DistinctNames) : out.2.context.DistinctNames := by
  cases h with
  | expression _ _ hcourse | bindingFailed _ _ _ hcourse | valueFailed _ _ _ hcourse =>
    exact hcourse.distinctNames hw hd
  | noName | redeclared => exact hd
  | declared hop _ _ hcourse hnode hdeclare =>
    exact (hcourse.distinctNames hw hd).declareId hdeclare (hcourse.name_undeclared hop hw hnode).2
  | noInitial _ _ _ hcourse => exact hcourse.distinctNames hw hd
  | @defined op name left right _ s₁ _ _ _ _ _ _ _ hcourse _ hdeclare =>
    have hk := hcourse.kept hw
    refine Context.DistinctNames.declareId hdeclare ((hcourse.distinctNames hw hd).of_decls rfl) ?_
    intro d decl hfound heq
    have hold : s₁.context.decl? d = some decl := hfound
    have hlt := hk.wellFormed.name_lt hold
    rw [heq] at hlt
    exact Nat.lt_irrefl _ hlt

/-- What a name means after a statement it meant before, or was just declared. -/
theorem ElaboratesForm.find?_cases (h : ElaboratesForm tree s out) (hw : s.context.WellFormed)
    {name : Symbol} {d : DeclRef} (hd : out.2.context.scopes.find? name = some d) :
    s.context.scopes.find? name = some d ∨
      ∃ decl, out.2.context.decl? d = some decl ∧ out.2.context.size ≤ decl.name.index + 2 := by
  -- a declaration in a context with the scopes of the session
  have hdeclared : ∀ {before later : Context} {id : NodeRef} {ty : Ty} {init : Option NodeRef}
      {d₁ : DeclRef}, before.declareId id ty init = .ok (d₁, later) →
      before.scopes = s.context.scopes → before.size ≤ id.index + 2 → later.scopes.find? name = some d →
      s.context.scopes.find? name = some d ∨
        ∃ decl, later.decl? d = some decl ∧ later.size ≤ decl.name.index + 2 := by
    intro before later id ty init d₁ hdeclare hscopes hsize hfind
    obtain ⟨symbol, -, hsymbol, -, -, -⟩ := Context.declareId_eq_ok_iff.1 hdeclare
    rw [Context.find?_declareId hdeclare hsymbol, hscopes] at hfind
    split at hfind
    · cases hfind
      refine .inr ⟨_, Context.decl?_of_declareId hdeclare, ?_⟩
      rw [Context.size, Context.nodes_of_declareId hdeclare]
      exact hsize
    · exact .inl hfind
  cases h with
  | expression _ _ hcourse | bindingFailed _ _ _ hcourse | valueFailed _ _ _ hcourse =>
    rw [(hcourse.kept hw).scopes] at hd
    exact .inl hd
  | noName | redeclared => exact .inl hd
  | declared hop _ _ hcourse hnode hdeclare =>
    exact hdeclared hdeclare (hcourse.kept hw).scopes (hcourse.name_undeclared hop hw hnode).1 hd
  | @noInitial _ _ _ _ _ s' _ _ _ _ _ hcourse =>
    have hscopes : s'.context.scopes = s.context.scopes := (hcourse.kept hw).scopes
    exact .inl (hscopes ▸ hd)
  | defined _ _ _ hcourse _ hdeclare =>
    refine hdeclared hdeclare (hcourse.kept hw).scopes ?_ hd
    rw [Context.size_addId]
    exact Nat.le_succ _

/-- Statements leave names free of quantifiers. -/
theorem ElaboratesForm.freeNames (h : ElaboratesForm tree s out) (hw : s.context.WellFormed)
    (hfree : s.context.FreeNames) : out.2.context.FreeNames := by
  have hkept := h.kept hw
  intro name d decl hd hdecl
  rcases h.find?_cases hw hd with hold | ⟨found, hfound, hsize⟩
  · obtain ⟨old, hold', -⟩ := Option.bind_eq_some_iff.1 (hw.declName?_of_find? hold)
    cases (hkept.within.decl hold').symm.trans hdecl
    exact (h.sprouts hw).forest.unquantified hw hkept.within (hw.name_lt hold')
      (hfree name d _ hold hold')
  · cases hfound.symm.trans hdecl
    exact hkept.wellFormed.unquantified_of_le hsize

end Statements

end ArithLogic
