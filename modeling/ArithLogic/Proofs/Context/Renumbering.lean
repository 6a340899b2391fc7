import ArithLogic.Analysis
import ArithLogic.Proofs.Printing.Alpha
import Mathlib.Data.List.Forall2
import Mathlib.Order.Hom.Basic

/-!
# ArithLogic.Proofs.Context.Renumbering

Contexts that are the same but for the places of their nodes and declarations.
`cx.Embeds ρ big` says that whatever `cx` holds is held by `big` in the place
that `ρ` gives it, that every name means the same in both, and that `ρ` goes
on from their ends side by side.  By the last the operations keep it, the same
one being done in both (`Embeds.add`, `Embeds.declareId`); when `big` alone
grows under unchanged scopes, there is another renumbering that has the same
places for what `cx` holds (`Embeds.realign`).

What a handle denotes is then the same but for the declarations, and so is
its text (`Embeds.term?_eq`, `Embeds.render_eq`).
-/

namespace ArithLogic

/-! ## renumbering -/

/-- New places for nodes and for declarations, in the order of the old ones. -/
structure Renumbering where
  nodes : Nat ↪o Nat
  decls : Nat ↪o Nat

namespace Renumbering

variable {ρ ρ' ρ'' : Renumbering}

/-- Everything stays in its place. -/
def refl : Renumbering := ⟨RelEmbedding.refl _, RelEmbedding.refl _⟩

/-- The new handle to a node. -/
def node (ρ : Renumbering) (e : NodeRef) : NodeRef := ⟨ρ.nodes e.index⟩

/-- The new handle to a declaration. -/
def decl (ρ : Renumbering) (d : DeclRef) : DeclRef := ⟨ρ.decls d.index⟩

@[simp] theorem node_refl (e : NodeRef) : refl.node e = e := rfl

@[simp] theorem decl_refl (d : DeclRef) : refl.decl d = d := rfl

@[simp] theorem node_inj {e e' : NodeRef} : ρ.node e = ρ.node e' ↔ e = e' := by
  cases e
  cases e'
  simp [node]

@[simp] theorem decl_inj {d d' : DeclRef} : ρ.decl d = ρ.decl d' ↔ d = d' := by
  cases d
  cases d'
  simp [decl]

/-- The places before `n` are as in `f`; from `n` on they are those from `m`
on. -/
def realign (f : Nat ↪o Nat) (n m : Nat) (h : ∀ i < n, f i < m) : Nat ↪o Nat :=
  OrderEmbedding.ofStrictMono (fun i => if i < n then f i else m + (i - n)) <| by
    intro i j hij
    by_cases hj : j < n
    · simpa [hj, Nat.lt_trans hij hj] using hij
    · by_cases hi : i < n
      · have := h i hi
        simp only [hi, hj, if_true, if_false]
        omega
      · simp only [hi, hj, if_false]
        omega

theorem realign_of_lt {f : Nat ↪o Nat} {n m i : Nat} (h : ∀ i < n, f i < m) (hi : i < n) :
    realign f n m h i = f i :=
  if_pos hi

theorem realign_add {f : Nat ↪o Nat} {n m : Nat} (h : ∀ i < n, f i < m) (i : Nat) :
    realign f n m h (n + i) = m + i := by
  have hge : ¬ n + i < n := by omega
  show (if n + i < n then f (n + i) else m + (n + i - n)) = m + i
  rw [if_neg hge, Nat.add_sub_cancel_left]

theorem le_realign {f : Nat ↪o Nat} {n m i : Nat} (h : ∀ i < n, f i < m) (hi : n ≤ i) :
    m ≤ realign f n m h i := by
  rw [← Nat.add_sub_cancel' hi, realign_add]
  exact Nat.le_add_right ..

/-- The renumberings have the same places for what the context holds. -/
structure Agree (cx : Context) (ρ ρ' : Renumbering) : Prop where
  node : ∀ {e : NodeRef}, e.index < cx.size → ρ'.node e = ρ.node e
  decl : ∀ {d : DeclRef}, d.index < cx.decls.size → ρ'.decl d = ρ.decl d

theorem Agree.refl (cx : Context) (ρ : Renumbering) : Agree cx ρ ρ := ⟨fun _ => rfl, fun _ => rfl⟩

/-- What a later context holds includes what an earlier one did. -/
theorem Agree.trans {cx later : Context} (h : Agree cx ρ ρ') (h' : Agree later ρ' ρ'')
    (hwithin : cx.Within later) : Agree cx ρ ρ'' where
  node he := (h'.node (hwithin.index_lt he)).trans (h.node he)
  decl hd := (h'.decl (Nat.lt_of_lt_of_le hd hwithin.decls_size_le)).trans (h.decl hd)

end Renumbering

variable {ρ ρ' : Renumbering}

/-- The node with the handles renumbered that it holds. -/
def Node.renumber (ρ : Renumbering) : Node NodeRef → Node NodeRef
  | .var name d => .var name (ρ.decl d)
  | node => node.map ρ.node

/-- The declaration with its handles renumbered. -/
def Decl.renumber (ρ : Renumbering) (decl : Decl) : Decl :=
  ⟨ρ.node decl.name, decl.ty, decl.init.map ρ.node⟩

/-- The expression under its new handle. -/
def Elaboration.renumber (ρ : Renumbering) (e : Elaboration) : Elaboration := ⟨ρ.node e.expr, e.ty⟩

/-- The term with its declarations renumbered. -/
def Term.renumber (ρ : Renumbering) : Term → Term
  | id name => .id name
  | bool value => .bool value
  | int value => .int value
  | var name d => .var name (ρ.decl d)
  | additive op left right => .additive op (left.renumber ρ) (right.renumber ρ)
  | scaling op factor operand => .scaling op factor (operand.renumber ρ)
  | sign op operand => .sign op (operand.renumber ρ)
  | relation op left right => .relation op (left.renumber ρ) (right.renumber ρ)
  | connective op left right => .connective op (left.renumber ρ) (right.renumber ρ)
  | not operand => .not (operand.renumber ρ)
  | bind name ty => .bind name ty
  | quantifier op name ty body => .quantifier op name ty (body.renumber ρ)
  | type ty => .type ty

@[simp] theorem Node.renumber_refl (node : Node NodeRef) : node.renumber .refl = node := by
  cases node <;> rfl

@[simp] theorem Decl.renumber_refl (decl : Decl) : decl.renumber .refl = decl := by
  obtain ⟨name, ty, init⟩ := decl
  cases init <;> rfl

@[simp] theorem Node.kind_renumber (node : Node NodeRef) :
    (node.renumber ρ).kind = node.kind := by
  cases node <;> rfl

/-- No two nodes become the same. -/
@[simp] theorem Node.renumber_inj {node node' : Node NodeRef} :
    node.renumber ρ = node'.renumber ρ ↔ node = node' := by
  cases node <;> cases node' <;> simp [renumber, map]

/-- Only the handles that a node holds matter. -/
theorem Node.renumber_congr {node : Node NodeRef}
    (hchildren : ∀ child ∈ node.children, ρ'.node child = ρ.node child)
    (hvar : ∀ name d, node = .var name d → ρ'.decl d = ρ.decl d) :
    node.renumber ρ' = node.renumber ρ := by
  cases node <;> simp_all [renumber, map, children]

/-- A renumbered term prints as before. -/
@[simp] theorem Term.doc_renumber (t : Term) : (t.renumber ρ).doc = t.doc := by
  have h : (t.renumber ρ).unresolved = t.unresolved := by
    induction t <;> simp_all [renumber, unresolved]
  rw [← doc_unresolved, h, doc_unresolved]

namespace Renumbering.Agree

variable {cx : Context} (h : Agree cx ρ ρ') (hw : cx.WellFormed)
include h hw

/-- Nodes of the context are renumbered alike. -/
theorem node_renumber {e : NodeRef} {node : Node NodeRef} (hnode : cx.node? e = some node) :
    node.renumber ρ' = node.renumber ρ := by
  refine Node.renumber_congr (fun child hmem => h.node ?_) ?_
  · exact Nat.lt_trans (hw.children_older hnode child hmem) (Context.index_lt_of_node? hnode)
  · rintro name d rfl
    obtain ⟨decl, hdecl, -⟩ := Option.bind_eq_some_iff.1 (hw.admits e _ hnode)
    exact h.decl (Context.index_lt_of_decl? hdecl)

theorem decl_renumber {d : DeclRef} {decl : Decl} (hdecl : cx.decl? d = some decl) :
    decl.renumber ρ' = decl.renumber ρ := by
  obtain ⟨name, hname⟩ := Option.ne_none_iff_exists'.1 (hw.declared d decl hdecl)
  have hnode := h.node (Context.index_lt_of_node? (Context.node?_of_symbol? hname))
  have hinit : decl.init.map ρ'.node = decl.init.map ρ.node :=
    Option.map_congr fun init hmem => h.node (hw.defined d decl init hdecl hmem)
  rw [Decl.renumber, hnode, hinit, Decl.renumber]

end Renumbering.Agree

/-! ## environments -/

/-- Every name that the one environment binds is bound by the other one to the
renumbered declaration, and no others are. -/
def Environment.Matches (ρ : Renumbering) (env big : Environment) : Prop :=
  ∀ name, big.find? name = (env.find? name).map ρ.decl

theorem Environment.Matches.contains {env big : Environment} (h : env.Matches ρ big)
    (name : Symbol) : big.contains name = env.contains name := by
  rw [Environment.contains, h name, Option.isSome_map, Environment.contains]

/-- A new binding is matched by a new binding. -/
theorem Environment.Matches.cons {env big : Environment} (h : env.Matches ρ big) (name : Symbol)
    (d : DeclRef) :
    Matches ρ ⟨(name, d) :: env.bindings⟩ ⟨(name, ρ.decl d) :: big.bindings⟩ := by
  intro other
  rw [find?_cons, find?_cons]
  split
  · rfl
  · exact h other

/-- A name means what it means in environments that match one by one. -/
theorem ScopeStack.find?_of_matches {scopes big : ScopeStack}
    (h : List.Forall₂ (Environment.Matches ρ) scopes.environments big.environments)
    (name : Symbol) : big.find? name = (scopes.find? name).map ρ.decl := by
  obtain ⟨envs⟩ := scopes
  obtain ⟨bigs⟩ := big
  simp only [find?] at h ⊢
  induction h with
  | nil => rfl
  | @cons env bigEnv _ _ hmatches _ ih =>
    rw [List.findSome?_cons, List.findSome?_cons, hmatches name]
    cases env.find? name with
    | some d => rfl
    | none => exact ih

/-! ## contexts -/

namespace Context

/-- The context `big` holds what `cx` holds in the places that the renumbering
gives it, and names mean the same.  Beyond the ends of both the places go on
side by side. -/
structure Embeds (ρ : Renumbering) (cx big : Context) : Prop where
  node : ∀ e, big.node? (ρ.node e) = (cx.node? e).map (Node.renumber ρ)
  decl : ∀ d, big.decl? (ρ.decl d) = (cx.decl? d).map (Decl.renumber ρ)
  scopes : List.Forall₂ (Environment.Matches ρ) cx.scopes.environments big.scopes.environments
  origin : big.interner.origin = cx.interner.origin
  nextNode : ∀ i, ρ.nodes (cx.size + i) = big.size + i
  nextDecl : ∀ i, ρ.decls (cx.decls.size + i) = big.decls.size + i

variable {cx big : Context}

namespace Embeds

theorem refl (cx : Context) : cx.Embeds .refl cx where
  node e := by cases h : cx.node? e <;> simp [h]
  decl d := by cases h : cx.decl? d <;> simp [h]
  scopes := List.forall₂_same.2 fun env _ name => by cases env.find? name <;> simp
  origin := rfl
  nextNode _ := rfl
  nextDecl _ := rfl

section Reading

variable (h : cx.Embeds ρ big)
include h

theorem node_some {e : NodeRef} {node : Node NodeRef} (hnode : cx.node? e = some node) :
    big.node? (ρ.node e) = some (node.renumber ρ) := by
  rw [h.node, hnode, Option.map_some]

theorem decl_some {d : DeclRef} {decl : Decl} (hdecl : cx.decl? d = some decl) :
    big.decl? (ρ.decl d) = some (decl.renumber ρ) := by
  rw [h.decl, hdecl, Option.map_some]

/-- A renumbered node is there only if the node is. -/
theorem node_eq_some_iff {e : NodeRef} {node : Node NodeRef} :
    big.node? (ρ.node e) = some (node.renumber ρ) ↔ cx.node? e = some node := by
  rw [h.node]
  cases cx.node? e <;> simp

theorem index_lt {e : NodeRef} (he : e.index < cx.size) : (ρ.node e).index < big.size := by
  obtain ⟨node, hnode⟩ := node?_of_index_lt he
  exact index_lt_of_node? (h.node_some hnode)

/-- The nodes to come get corresponding places. -/
theorem node_size_add (i : Nat) : ρ.node ⟨cx.size + i⟩ = ⟨big.size + i⟩ :=
  congrArg NodeRef.mk (h.nextNode i)

theorem node_size : ρ.node ⟨cx.size⟩ = ⟨big.size⟩ := h.node_size_add 0

theorem decl_size : ρ.decl ⟨cx.decls.size⟩ = ⟨big.decls.size⟩ :=
  congrArg DeclRef.mk (h.nextDecl 0)

/-- The end of the one has the end of the other for its place. -/
theorem index_eq_size_iff (e : NodeRef) : (ρ.node e).index = big.size ↔ e.index = cx.size := by
  rw [← Nat.add_zero big.size, ← h.nextNode 0, Nat.add_zero]
  exact ρ.nodes.injective.eq_iff

theorem index_eq_decls_size_iff (d : DeclRef) :
    (ρ.decl d).index = big.decls.size ↔ d.index = cx.decls.size := by
  rw [← Nat.add_zero big.decls.size, ← h.nextDecl 0, Nat.add_zero]
  exact ρ.decls.injective.eq_iff

theorem depth_eq : big.depth = cx.depth := h.scopes.length_eq.symm

theorem symbol?_eq (e : NodeRef) : big.symbol? (ρ.node e) = cx.symbol? e := by
  rw [symbol?, h.node, symbol?]
  cases cx.node? e with
  | none => rfl
  | some node => cases node <;> rfl

theorem literal?_eq (e : NodeRef) : big.literal? (ρ.node e) = cx.literal? e := by
  rw [literal?, h.node, literal?]
  cases cx.node? e with
  | none => rfl
  | some node => cases node <;> rfl

theorem isLiteral_eq (e : NodeRef) : big.isLiteral (ρ.node e) = cx.isLiteral e := by
  rw [isLiteral, h.node, isLiteral]
  cases cx.node? e with
  | none => rfl
  | some node => cases node <;> rfl

theorem isBinding_eq (e : NodeRef) : big.isBinding (ρ.node e) = cx.isBinding e := by
  rw [isBinding, h.node, isBinding]
  cases cx.node? e with
  | none => rfl
  | some node => cases node <;> rfl

theorem type?_eq (e : NodeRef) : big.type? (ρ.node e) = cx.type? e := by
  rw [type?, h.node, type?]
  cases cx.node? e with
  | none => rfl
  | some node => cases node <;> rfl

theorem binding?_eq (e : NodeRef) : big.binding? (ρ.node e) = cx.binding? e := by
  rw [binding?, h.node, binding?]
  cases cx.node? e with
  | none => rfl
  | some node =>
    cases node with
    | bind name ty => simp only [Option.map_some, Node.renumber, Node.map, h.symbol?_eq name]
    | _ => rfl

theorem declName?_eq (d : DeclRef) : big.declName? (ρ.decl d) = cx.declName? d := by
  rw [declName?, h.decl, declName?]
  cases cx.decl? d with
  | none => rfl
  | some decl => exact h.symbol?_eq decl.name

/-- The nodes of the types have their places in every context. -/
theorem node_ref (hw : cx.WellFormed) (hbig : big.WellFormed) (ty : Ty) :
    ρ.node ty.ref = ty.ref := by
  have htype := h.type?_eq ty.ref
  rw [(hw.type_iff ty.ref ty).2 rfl] at htype
  exact (hbig.type_iff _ ty).1 htype

/-- A name means the same in both. -/
theorem lookup?_eq (hw : cx.WellFormed) (hbig : big.WellFormed) (text : String) :
    big.lookup? text = (cx.lookup? text).map ρ.decl := by
  rw [hbig.lookup?_eq, hw.lookup?_eq, h.origin]
  exact ScopeStack.find?_of_matches h.scopes _

theorem isLocal_eq (hw : cx.WellFormed) (hbig : big.WellFormed) (text : String) :
    big.isLocal text = cx.isLocal text := by
  obtain ⟨env, outer, hcons⟩ := List.exists_cons_of_length_pos hw.depth_pos
  have hscopes := h.scopes
  rw [hcons] at hscopes
  obtain ⟨bigEnv, bigOuter, hmatches, -, hbigCons⟩ := List.forall₂_cons_left_iff.1 hscopes
  rw [hbig.isLocal_eq hbigCons, hw.isLocal_eq hcons, h.origin, hmatches.contains]

/-- A handle denotes the same but for the declarations. -/
theorem term?_eq (hw : cx.WellFormed) (hbig : big.WellFormed) (e : NodeRef) :
    big.term? (ρ.node e) = (cx.term? e).map (Term.renumber ρ) := by
  cases hnode : cx.node? e with
  | none =>
    have hnone : big.node? (ρ.node e) = none := by rw [h.node, hnode, Option.map_none]
    rw [term?, view?, hnone, Option.bind_none, term?, view?, hnode, Option.bind_none, Option.map_none]
  | some node =>
    -- the children are older, so they denote the same by the induction
    have holder := hw.children_older hnode
    have hchild : ∀ child ∈ node.children,
        big.term? (ρ.node child) = (cx.term? child).map (Term.renumber ρ) := fun child hmem =>
      have := holder child hmem
      term?_eq hw hbig child
    rw [hbig.term?_eq (h.node_some hnode), hw.term?_eq hnode]
    cases node with
    | id | bool | int | var | type => rfl
    | additive _ l r | relation _ l r | connective _ l r =>
      simp only [Node.renumber, Node.map, termOf?, hchild l (by simp [Node.children]),
        hchild r (by simp [Node.children])]
      cases cx.term? l <;> cases cx.term? r <;> rfl
    | scaling _ factor operand =>
      simp only [Node.renumber, Node.map, termOf?, h.literal?_eq,
        hchild operand (by simp [Node.children])]
      cases cx.literal? factor <;> cases cx.term? operand <;> rfl
    | sign _ operand | not operand =>
      simp only [Node.renumber, Node.map, termOf?, hchild operand (by simp [Node.children])]
      cases cx.term? operand <;> rfl
    | bind name ty =>
      simp only [Node.renumber, Node.map, termOf?, h.symbol?_eq]
      cases cx.symbol? name <;> rfl
    | quantifier _ binding body =>
      simp only [Node.renumber, Node.map, termOf?, h.binding?_eq,
        hchild body (by simp [Node.children])]
      cases cx.binding? binding <;> cases cx.term? body <;> rfl
termination_by e.index

/-- The text of an expression is the same. -/
theorem render_eq (hw : cx.WellFormed) (hbig : big.WellFormed) (e : NodeRef) (width : Nat) :
    big.render (ρ.node e) width = cx.render e width ∧
      big.renderColored (ρ.node e) width = cx.renderColored e width := by
  simp only [render, renderColored, h.term?_eq hw hbig]
  cases cx.term? e with
  | none => exact ⟨rfl, rfl⟩
  | some t =>
    simp only [Option.map_some, Term.render, Term.renderColored, Term.pieces, Term.doc_renumber,
      and_self]

end Reading

/-! ## operations in both -/

section Operations

variable (h : cx.Embeds ρ big)
include h

theorem add (node : Node NodeRef) :
    (cx.add node).2.Embeds ρ (big.add (node.renumber ρ)).2 where
  node e := by
    rw [node?_add, node?_add]
    by_cases he : e.index = cx.size
    · rw [if_pos ((h.index_eq_size_iff e).2 he), if_pos he, Option.map_some]
    · rw [if_neg (mt (h.index_eq_size_iff e).1 he), if_neg he, h.node]
  decl := h.decl
  scopes := h.scopes
  origin := h.origin
  nextNode i := by
    have hnext := h.nextNode (1 + i)
    rw [size_add, size_add]
    simpa only [Nat.add_assoc] using hnext
  nextDecl := h.nextDecl

theorem intern (text : String) : (cx.intern text).2.Embeds ρ (big.intern text).2 where
  node := h.node
  decl := h.decl
  scopes := h.scopes
  origin := by
    show (big.interner.intern text).2.origin = (cx.interner.intern text).2.origin
    rw [Interner.origin_intern, Interner.origin_intern, h.origin]
  nextNode := h.nextNode
  nextDecl := h.nextDecl

theorem addId (text : String) : (cx.addId text).2.Embeds ρ (big.addId text).2 := by
  have hname : (big.intern text).1 = (cx.intern text).1 := congrArg (Symbol.mk · text) h.origin
  have hbig : (big.addId text).2 = ((big.intern text).2.add (.id (cx.intern text).1)).2 := by
    rw [← hname]
    rfl
  rw [hbig]
  exact (h.intern text).add (.id (cx.intern text).1)

theorem enterScope : cx.enterScope.Embeds ρ big.enterScope where
  node := h.node
  decl := h.decl
  scopes := .cons (fun _ => rfl) h.scopes
  origin := h.origin
  nextNode := h.nextNode
  nextDecl := h.nextDecl

/-- What can be declared in the one can be declared in the other. -/
theorem declareId {id : NodeRef} {ty : Ty} {init : Option NodeRef} {d : DeclRef} {next : Context}
    (hok : cx.declareId id ty init = .ok (d, next)) : ∃ bigNext,
      big.declareId (ρ.node id) ty (init.map ρ.node) = .ok (ρ.decl d, bigNext) ∧
        next.Embeds ρ bigNext := by
  obtain ⟨name, scopes, hname, hinsert, rfl, rfl⟩ := declareId_eq_ok_iff.1 hok
  obtain ⟨env, outer, hcons, hfree, rfl⟩ := ScopeStack.insert_eq_ok_iff.1 hinsert
  have hscopes := h.scopes
  rw [hcons] at hscopes
  obtain ⟨bigEnv, bigOuter, hmatches, houter, hbigCons⟩ := List.forall₂_cons_left_iff.1 hscopes
  have hbigFree := (hmatches.contains name).trans hfree
  have hbigName := (h.symbol?_eq id).trans hname
  refine ⟨_, declareId_eq_ok_iff.2 ⟨name, _, hbigName,
    ScopeStack.insert_eq_ok_iff.2 ⟨bigEnv, bigOuter, hbigCons, hbigFree, rfl⟩, h.decl_size, rfl⟩, ?_⟩
  refine ⟨h.node, fun d => ?_, ?_, h.origin, h.nextNode, fun i => ?_⟩
  · show decl? { big with decls := big.decls.push ⟨ρ.node id, ty, init.map ρ.node⟩ } (ρ.decl d) =
      (decl? { cx with decls := cx.decls.push ⟨id, ty, init⟩ } d).map (Decl.renumber ρ)
    rw [decl?_push, decl?_push]
    by_cases hd : d.index = cx.decls.size
    · rw [if_pos ((h.index_eq_decls_size_iff d).2 hd), if_pos hd]
      rfl
    · rw [if_neg (mt (h.index_eq_decls_size_iff d).1 hd), if_neg hd, h.decl]
  · rw [← h.decl_size]
    exact .cons (hmatches.cons name _) houter
  · have hnext := h.nextDecl (1 + i)
    simp only [Array.size_push]
    simpa only [Nat.add_assoc] using hnext

theorem leaveScope {next : Context} (hok : cx.leaveScope = .ok next) : ∃ bigNext,
    big.leaveScope = .ok bigNext ∧ next.Embeds ρ bigNext := by
  obtain ⟨env, second, outer, hcons, rfl⟩ := leaveScope_eq_ok_iff.1 hok
  have hscopes := h.scopes
  rw [hcons] at hscopes
  obtain ⟨bigEnv, bigRest, -, hrest, hbigCons⟩ := List.forall₂_cons_left_iff.1 hscopes
  obtain ⟨bigSecond, bigOuter, -, -, rfl⟩ := List.forall₂_cons_left_iff.1 hrest
  exact ⟨_, leaveScope_eq_ok_iff.2 ⟨bigEnv, bigSecond, bigOuter, hbigCons, rfl⟩,
    h.node, h.decl, hrest, h.origin, h.nextNode, h.nextDecl⟩

end Operations

/-! ## growth of one -/

/-- When the second context grows and keeps its scopes, the first one is still
embedded, with the same places for what it holds. -/
theorem realign (h : cx.Embeds ρ big) (hw : cx.WellFormed) {next : Context}
    (hwithin : big.Within next) (hscopes : next.scopes = big.scopes) :
    ∃ ρ', cx.Embeds ρ' next ∧ Renumbering.Agree cx ρ ρ' := by
  have hnodes : ∀ i < cx.size, ρ.nodes i < next.size := fun i hi =>
    hwithin.index_lt (h.index_lt (e := ⟨i⟩) hi)
  have hdecls : ∀ i < cx.decls.size, ρ.decls i < next.decls.size := fun i hi => by
    have hdecl : cx.decl? ⟨i⟩ = some cx.decls[i] := Array.getElem?_eq_getElem hi
    exact index_lt_of_decl? (hwithin.decl (h.decl_some hdecl))
  let ρ' : Renumbering := ⟨Renumbering.realign ρ.nodes cx.size next.size hnodes,
    Renumbering.realign ρ.decls cx.decls.size next.decls.size hdecls⟩
  have hagree : Renumbering.Agree cx ρ ρ' :=
    ⟨fun he => congrArg NodeRef.mk (Renumbering.realign_of_lt hnodes he),
      fun hd => congrArg DeclRef.mk (Renumbering.realign_of_lt hdecls hd)⟩
  refine ⟨ρ', ⟨fun e => ?_, fun d => ?_, ?_, hwithin.origin.trans h.origin,
    Renumbering.realign_add hnodes, Renumbering.realign_add hdecls⟩, hagree⟩
  · by_cases he : e.index < cx.size
    · obtain ⟨node, hnode⟩ := node?_of_index_lt he
      rw [hagree.node he, hwithin.node (h.node_some hnode), hnode, Option.map_some,
        hagree.node_renumber hw hnode]
    · have he := Nat.le_of_not_lt he
      have hplace : next.size ≤ (ρ'.node e).index := Renumbering.le_realign hnodes he
      rw [node?, node?, Array.getElem?_eq_none he, Array.getElem?_eq_none hplace, Option.map_none]
  · by_cases hd : d.index < cx.decls.size
    · have hdecl : cx.decl? d = some cx.decls[d.index] := Array.getElem?_eq_getElem hd
      rw [hagree.decl hd, hwithin.decl (h.decl_some hdecl), hdecl, Option.map_some,
        hagree.decl_renumber hw hdecl]
    · have hd := Nat.le_of_not_lt hd
      have hplace : next.decls.size ≤ (ρ'.decl d).index := Renumbering.le_realign hdecls hd
      rw [decl?, decl?, Array.getElem?_eq_none hd, Array.getElem?_eq_none hplace, Option.map_none]
  · rw [hscopes]
    refine List.forall₂_iff_get.2 ⟨h.scopes.length_eq, fun i hi hi' name => ?_⟩
    have hmatches := (List.forall₂_iff_get.1 h.scopes).2 i hi hi' name
    rw [hmatches]
    -- what an environment binds is a declaration of the context
    refine Option.map_congr fun d hd => (hagree.decl ?_).symm
    obtain ⟨decl, hdecl, -⟩ := Option.bind_eq_some_iff.1 (hw.bound _ (List.get_mem ..) name d hd)
    exact index_lt_of_decl? hdecl

end Embeds

end Context

end ArithLogic
