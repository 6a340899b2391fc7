import ArithLogic.Proofs.Context.Scoped
import Mathlib.Logic.Function.Basic

/-!
# ArithLogic.Proofs.Context.Respelling

Contexts that are the same but for the spelling of one bound variable.
`cx.Respells d i x z cx'` says that both hold the same in every place, except
that the node `i`, which names the variable `d`, holds `x` in the one and `z` in
the other, and that references to `d` are spelled accordingly.  The operations
keep it, the same one being done in both.

What names mean in two such contexts is told by a change of spellings:
`names.Respells origin r d z names'` says that every name means under its new
spelling what it meant, and that only names of `d` got a new one, which is `z`.
A name that is bound in both keeps its spelling in its scope
(`Resolution.Respells.bind`), so what it shadows is not changed there.
-/

namespace ArithLogic

/-! ## interned names -/

namespace Interner

variable {x z text : String} {table table' : Interner}

/-- The spellings that were seen, apart from two. -/
def others (x z : String) (table : Interner) : List String :=
  table.texts.filter fun text => text ≠ x ∧ text ≠ z

/-- Neither of the two is among the others. -/
theorem others_intern_of_not (h : ¬ (text ≠ x ∧ text ≠ z)) :
    (table.intern text).2.others x z = table.others x z := by
  simp only [intern]
  split
  · rfl
  · exact List.filter_cons_of_neg (by simpa using h)

/-- Interners that have seen the same others go on so. -/
theorem others_intern (h : table'.others x z = table.others x z) (text : String) :
    (table'.intern text).2.others x z = (table.intern text).2.others x z := by
  by_cases hother : text ≠ x ∧ text ≠ z
  · have hmem : text ∈ table'.others x z ↔ text ∈ table.others x z := by rw [h]
    simp only [others, List.mem_filter, hother, decide_true, and_true, ne_eq, not_false_eq_true,
      and_self] at hmem
    simp only [intern, hmem]
    split
    · exact h
    · simpa [others, hother] using h
  · rw [others_intern_of_not hother, others_intern_of_not hother, h]

end Interner

/-! ## what names mean -/

namespace Resolution

variable {origin : Nat} {r : String → String} {d d' : DeclRef} {x y z : String}
  {names names' : Resolution}

/-- Under its new spelling every name but `z` means what it meant, and only names
of the declaration `d` have got a new spelling, which is `z`. -/
structure Respells (origin : Nat) (r : String → String) (d : DeclRef) (z : String)
    (names names' : Resolution) : Prop where
  means : ∀ text, text ≠ z → names' ⟨origin, r text⟩ = names ⟨origin, text⟩
  moved : ∀ text, r text ≠ text → r text = z ∧ names ⟨origin, text⟩ = some d

namespace Respells

theorem refl (names : Resolution) : names.Respells origin id d z names :=
  ⟨fun _ _ => rfl, fun _ h => absurd rfl h⟩

/-- The new spelling means the declaration in the one place, the old one in the
other. -/
theorem start (names : Resolution) : (names.bind ⟨origin, x⟩ d).Respells origin
    (Function.update id x z) d z (names.bind ⟨origin, z⟩ d) where
  means text htext := by
    by_cases hx : text = x
    · simp [bind, hx]
    · simp [bind, hx, htext]
  moved text htext := by
    by_cases hx : text = x
    · simp [bind, hx]
    · exact absurd (Function.update_of_ne hx ..) htext

/-- A name that is bound in both places has one spelling in its scope, and the
new spellings of other names are not captured by it. -/
theorem bind (h : names.Respells origin r d z names') (hy : y ≠ z) (d' : DeclRef) :
    (names.bind ⟨origin, y⟩ d').Respells origin (Function.update r y y) d z
      (names'.bind ⟨origin, y⟩ d') where
  means text htext := by
    by_cases heq : text = y
    · simp [Resolution.bind, heq]
    · have hr : r text ≠ y := by
        by_cases hr : r text = text
        · rwa [hr]
        · rw [(h.moved text hr).1]
          exact hy.symm
      simpa [Resolution.bind, heq, hr] using h.means text htext
  moved text htext := by
    by_cases heq : text = y
    · exact absurd (by simp [heq]) htext
    · rw [Function.update_of_ne heq] at htext ⊢
      simpa [Resolution.bind, heq] using h.moved text htext

end Respells

end Resolution

/-! ## contexts -/

/-- The node with the variable `d` spelled in another way. -/
def Node.respell (d : DeclRef) (z : String) : Node NodeRef → Node NodeRef
  | .var name d' => .var (if d' = d then ⟨name.origin, z⟩ else name) d'
  | node => node

@[simp] theorem Node.kind_respell (d : DeclRef) (z : String) (node : Node NodeRef) :
    (node.respell d z).kind = node.kind := by
  cases node <;> rfl

/-- Only references to the variable are spelled in another way. -/
theorem Node.respell_of_not_var {d : DeclRef} {z : String} {node : Node NodeRef}
    (h : ∀ name, node ≠ .var name d) : node.respell d z = node := by
  cases node with
  | var name d' =>
    have hd : d' ≠ d := by
      rintro rfl
      exact h name rfl
    rw [respell, if_neg hd]
  | _ => rfl

namespace Context

/-- Under their new spellings names mean in the second context what they mean in
the first one. -/
def Renames (r : String → String) (d : DeclRef) (z : String) (cx cx' : Context) : Prop :=
  Resolution.Respells cx.interner.origin r d z cx.scopes.find? cx'.scopes.find?

/-- This is a matter of the scopes. -/
theorem Renames.of_scopes {r : String → String} {d : DeclRef} {z : String}
    {cx cx' later later' : Context} (h : cx.Renames r d z cx')
    (horigin : later.interner.origin = cx.interner.origin) (hscopes : later.scopes = cx.scopes)
    (hscopes' : later'.scopes = cx'.scopes) : later.Renames r d z later' := by
  rw [Renames, horigin, hscopes, hscopes']
  exact h

/-- The contexts are the same, except that the variable `d`, which is named by
the node `i`, is spelled `x` in the first one and `z` in the second one.  Of their
scopes only the number is compared. -/
structure Respells (d : DeclRef) (i : NodeRef) (x z : String) (cx cx' : Context) : Prop where
  declared : ∃ ty, ty ≠ .kind ∧ cx.decl? d = some ⟨i, ty, none⟩
  named : cx.symbol? i = some ⟨cx.interner.origin, x⟩
  own : ∀ {d' decl}, cx.decl? d' = some decl → decl.name = i → d' = d
  node : ∀ e, cx'.node? e = (cx.node? e).map fun node =>
    if e = i then .id ⟨cx.interner.origin, z⟩ else node.respell d z
  decls : cx'.decls = cx.decls
  depth : cx'.depth = cx.depth
  origin : cx'.interner.origin = cx.interner.origin
  others : cx'.interner.others x z = cx.interner.others x z

namespace Respells

variable {d : DeclRef} {i : NodeRef} {x z : String} {cx cx' : Context}

section Reading

variable (h : cx.Respells d i x z cx')
include h

theorem index_lt : i.index < cx.size := index_lt_of_node? (node?_of_symbol? h.named)

/-- All nodes but the name of the variable are the same up to references to it. -/
theorem node?_of_ne {e : NodeRef} (he : e ≠ i) :
    cx'.node? e = (cx.node? e).map (Node.respell d z) := by
  rw [h.node e]
  simp only [if_neg he]

theorem node?_self : cx'.node? i = some (.id ⟨cx.interner.origin, z⟩) := by
  rw [h.node, node?_of_symbol? h.named, Option.map_some, if_pos rfl]

theorem size_eq : cx'.size = cx.size := by
  have hnone : ∀ n, cx'.node? ⟨n⟩ = none ↔ cx.node? ⟨n⟩ = none := fun n => by
    rw [h.node, Option.map_eq_none_iff]
  have hle : ∀ n, cx'.size ≤ n ↔ cx.size ≤ n := fun n =>
    Array.getElem?_eq_none_iff.symm.trans ((hnone n).trans Array.getElem?_eq_none_iff)
  exact Nat.le_antisymm ((hle _).2 (Nat.le_refl _)) ((hle _).1 (Nat.le_refl _))

theorem decl?_eq (d' : DeclRef) : cx'.decl? d' = cx.decl? d' := by rw [decl?, h.decls, decl?]

theorem symbol?_of_ne {e : NodeRef} (he : e ≠ i) : cx'.symbol? e = cx.symbol? e := by
  rw [symbol?, h.node?_of_ne he, symbol?]
  cases cx.node? e with
  | none => rfl
  | some node => cases node <;> rfl

theorem kind_eq (e : NodeRef) : (cx'.node? e).map Node.kind = (cx.node? e).map Node.kind := by
  by_cases he : e = i
  · subst he
    rw [h.node?_self, node?_of_symbol? h.named]
    rfl
  · rw [h.node?_of_ne he, Option.map_map]
    exact congrArg (Option.map · _) (funext (Node.kind_respell d z))

theorem isLiteral_eq (e : NodeRef) : cx'.isLiteral e = cx.isLiteral e := by
  by_cases he : e = i
  · subst he
    rw [isLiteral, h.node?_self, isLiteral, node?_of_symbol? h.named]
  · rw [isLiteral, h.node?_of_ne he, isLiteral]
    cases cx.node? e with
    | none => rfl
    | some node => cases node <;> rfl

theorem type?_eq (e : NodeRef) : cx'.type? e = cx.type? e := by
  by_cases he : e = i
  · subst he
    rw [type?, h.node?_self, type?, node?_of_symbol? h.named]
  · rw [type?, h.node?_of_ne he, type?]
    cases cx.node? e with
    | none => rfl
    | some node => cases node <;> rfl

theorem declName?_self : cx.declName? d = some ⟨cx.interner.origin, x⟩ := by
  obtain ⟨ty, -, hdecl⟩ := h.declared
  rw [declName?, hdecl]
  exact h.named

/-- Declarations are of the same names, except that of the variable. -/
theorem declName?_eq (d' : DeclRef) : cx'.declName? d' =
    (cx.declName? d').map fun name => if d' = d then ⟨name.origin, z⟩ else name := by
  by_cases hd : d' = d
  · subst hd
    obtain ⟨ty, -, hdecl⟩ := h.declared
    rw [h.declName?_self, declName?, h.decl?_eq, hdecl, Option.map_some, if_pos rfl]
    show cx'.symbol? i = _
    rw [symbol?, h.node?_self]
  · simp only [if_neg hd, Option.map_id']
    rw [declName?, h.decl?_eq, declName?]
    cases hdecl : cx.decl? d' with
    | none => rfl
    | some decl => exact h.symbol?_of_ne fun heq => hd (h.own hdecl heq)

/-- References to the variable are spelled as it was declared. -/
theorem var (hw : cx.WellFormed) {e : NodeRef} {name : Symbol}
    (hnode : cx.node? e = some (.var name d)) :
    name = ⟨cx.interner.origin, x⟩ ∧ cx'.node? e = some (.var ⟨cx.interner.origin, z⟩ d) := by
  have hname : name = ⟨cx.interner.origin, x⟩ :=
    Option.some.inj ((hw.admits e _ hnode).symm.trans h.declName?_self)
  have he : e ≠ i := by
    rintro rfl
    cases hnode.symm.trans (node?_of_symbol? h.named)
  refine ⟨hname, ?_⟩
  rw [h.node?_of_ne he, hnode, hname, Option.map_some, Node.respell, if_pos rfl]

end Reading

section Operations

variable (h : cx.Respells d i x z cx')
include h

theorem add (node : Node NodeRef) :
    (cx.add node).2.Respells d i x z (cx'.add (node.respell d z)).2 where
  declared := h.declared
  named := (Within.add cx node).symbol? h.named
  own := h.own
  node e := by
    rw [node?_add, node?_add, h.size_eq]
    split
    · next heq =>
      have he : e ≠ i := by
        rintro rfl
        exact Nat.ne_of_lt h.index_lt heq
      rw [Option.map_some, interner_add, if_neg he]
    · exact h.node e
  decls := h.decls
  depth := h.depth
  origin := h.origin
  others := h.others

theorem intern (text : String) : (cx.intern text).2.Respells d i x z (cx'.intern text).2 where
  declared := h.declared
  named := by
    rw [(Within.intern cx text).origin]
    exact h.named
  own := h.own
  node e := by
    rw [(Within.intern cx text).origin]
    exact h.node e
  decls := h.decls
  depth := h.depth
  origin := by rw [(Within.intern cx text).origin, (Within.intern cx' text).origin, h.origin]
  others := Interner.others_intern h.others text

theorem addId (text : String) : (cx.addId text).2.Respells d i x z (cx'.addId text).2 := by
  have hname : (cx'.intern text).1 = (cx.intern text).1 := congrArg (Symbol.mk · text) h.origin
  have hcx' : (cx'.addId text).2 = ((cx'.intern text).2.add (.id (cx.intern text).1)).2 := by
    rw [← hname]
    rfl
  rw [hcx']
  exact (h.intern text).add (.id (cx.intern text).1)

theorem enterScope : cx.enterScope.Respells d i x z cx'.enterScope where
  declared := h.declared
  named := h.named
  own := h.own
  node := h.node
  decls := h.decls
  depth := by rw [depth_enterScope, depth_enterScope, h.depth]
  origin := h.origin
  others := h.others

/-- Another name is declared in both, wherever it is free in both. -/
theorem declareId {id : NodeRef} {name : Symbol} {ty : Ty} {init : Option NodeRef} {d' : DeclRef}
    {next : Context} {scopes : ScopeStack} (hid : id ≠ i) (hname : cx.symbol? id = some name)
    (hok : cx.declareId id ty init = .ok (d', next))
    (hinsert : cx'.scopes.insert name ⟨cx.decls.size⟩ = .ok scopes) :
    ∃ next', cx'.declareId id ty init = .ok (d', next') ∧ next'.scopes = scopes ∧
      next.Respells d i x z next' := by
  have hdecls : cx'.decls.size = cx.decls.size := congrArg Array.size h.decls
  have hok' : cx'.declareId id ty init = .ok (d',
      { cx' with decls := cx'.decls.push ⟨id, ty, init⟩, scopes }) := by
    refine declareId_eq_ok_iff.2 ⟨name, scopes, (h.symbol?_of_ne hid).trans hname, ?_, ?_, rfl⟩
    · rw [hdecls, hinsert]
    · rw [hdecls, (decls_of_declareId hok).1]
  have hwithin : cx.Within next := .declareId hok
  obtain ⟨ty', hty', hdecl⟩ := h.declared
  refine ⟨_, hok', rfl, ⟨ty', hty', hwithin.decl hdecl⟩, ?_, ?_, ?_, ?_, ?_, ?_, ?_⟩
  · rw [hwithin.origin]
    exact hwithin.symbol? h.named
  · intro d'' decl hdecl heq
    rcases decl?_of_declareId_cases hok hdecl with ⟨-, rfl⟩ | hold
    · exact absurd heq hid
    · exact h.own hold heq
  · obtain ⟨_, _, -, -, -, rfl⟩ := declareId_eq_ok_iff.1 hok
    exact h.node
  · show cx'.decls.push _ = _
    rw [(decls_of_declareId hok).2, h.decls]
  · rw [depth_of_declareId hok, depth_of_declareId hok', h.depth]
  · exact h.origin.trans hwithin.origin.symm
  · obtain ⟨_, _, -, -, -, rfl⟩ := declareId_eq_ok_iff.1 hok
    exact h.others

theorem leaveScope {next : Context} (hok : cx.leaveScope = .ok next) : ∃ next',
    cx'.leaveScope = .ok next' ∧ next.Respells d i x z next' := by
  obtain ⟨env, second, outer, hcons, rfl⟩ := leaveScope_eq_ok_iff.1 hok
  have hlength : cx'.scopes.environments.length = outer.length + 2 := by
    have hdepth : cx'.scopes.environments.length = cx.scopes.environments.length := h.depth
    rw [hdepth, hcons]
    rfl
  match hcons' : cx'.scopes.environments with
  | [] | [_] => simp [hcons'] at hlength
  | env' :: second' :: outer' =>
    refine ⟨_, leaveScope_eq_ok_iff.2 ⟨env', second', outer', hcons', rfl⟩, h.declared, h.named,
      h.own, h.node, h.decls, ?_, h.origin, h.others⟩
    simpa [Context.depth, ScopeStack.depth, hcons'] using hlength

end Operations

end Respells

/-! ## the variable itself -/

section Start

variable {cx : Context}

/-- What older nodes refer to is an older declaration. -/
theorem WellFormed.respell_eq (hw : cx.WellFormed) {e : NodeRef} {node : Node NodeRef}
    (hnode : cx.node? e = some node) (z : String) : node.respell ⟨cx.decls.size⟩ z = node := by
  refine Node.respell_of_not_var ?_
  rintro name rfl
  obtain ⟨decl, hdecl, -⟩ := Option.bind_eq_some_iff.1 (hw.admits e _ hnode)
  exact Nat.lt_irrefl _ (index_lt_of_decl? hdecl)

theorem node?_addId (cx : Context) (text : String) (e : NodeRef) : (cx.addId text).2.node? e =
    if e.index = cx.size then some (.id ⟨cx.interner.origin, text⟩) else cx.node? e :=
  node?_add (cx.intern text).2 _ e

/-- Two bindings of different names differ in the node of the name. -/
theorem WellFormed.node?_binding (hw : cx.WellFormed) (x z : String) (ty : Ty) (e : NodeRef) :
    ((cx.addId z).2.add (.bind ⟨cx.size⟩ ty)).2.node? e =
      (((cx.addId x).2.add (.bind ⟨cx.size⟩ ty)).2.node? e).map fun node =>
        if e = ⟨cx.size⟩ then .id ⟨cx.interner.origin, z⟩ else node.respell ⟨cx.decls.size⟩ z := by
  have hindex : e = ⟨cx.size⟩ ↔ e.index = cx.size := ⟨congrArg _, fun heq => by rw [← heq]⟩
  simp only [node?_add, node?_addId, size_addId, hindex]
  by_cases hbind : e.index = cx.size + 1
  · have hid : ¬ e.index = cx.size := by omega
    simp only [if_pos hbind, Option.map_some, if_neg hid]
    rfl
  · simp only [if_neg hbind]
    by_cases hid : e.index = cx.size
    · simp only [if_pos hid, Option.map_some]
    · simp only [if_neg hid]
      cases hnode : cx.node? e with
      | none => rfl
      | some node => rw [Option.map_some, hw.respell_eq hnode]

/-- A new variable is declared in the scope of a quantifier, under the one name
and under the other. -/
theorem WellFormed.respells_declareId (hw : cx.WellFormed) {x : String} {ty : Ty} (hty : ty ≠ .kind)
    {d : DeclRef} {inner : Context} (z : String)
    (hok : ((cx.addId x).2.add (.bind ⟨cx.size⟩ ty)).2.enterScope.declareId ⟨cx.size⟩ ty none =
      .ok (d, inner)) :
    ∃ inner', ((cx.addId z).2.add (.bind ⟨cx.size⟩ ty)).2.enterScope.declareId ⟨cx.size⟩ ty none =
      .ok (d, inner') ∧ inner.Respells d ⟨cx.size⟩ x z inner' := by
  have hname : ∀ text, ((cx.addId text).2.add (.bind ⟨cx.size⟩ ty)).2.symbol? ⟨cx.size⟩ =
      some ⟨cx.interner.origin, text⟩ := fun text =>
    (Within.add ..).symbol? (symbol?_addId cx text)
  obtain ⟨hd, hdecls⟩ := decls_of_declareId hok
  obtain ⟨inner', hok', -, hdecls'⟩ := exists_declareId_enterScope (hname z) ty none
  subst hd
  have horigin : inner.interner.origin = cx.interner.origin :=
    (Within.declareId hok).origin.trans (Within.addId cx x).origin
  have horigin' : inner'.interner.origin = cx.interner.origin :=
    (Within.declareId hok').origin.trans (Within.addId cx z).origin
  refine ⟨inner', hok', ⟨ty, hty, decl?_of_declareId hok⟩, ?_, ?_, ?_, hdecls'.trans hdecls.symm,
    ?_, horigin'.trans horigin.symm, ?_⟩
  · rw [horigin]
    exact (Within.declareId hok).symbol? (hname x)
  · intro d' decl hfound heq
    rcases decl?_of_declareId_cases hok hfound with ⟨hself, -⟩ | hold
    · exact hself
    · -- an older declaration is named by an older node
      obtain ⟨name, hold⟩ := Option.ne_none_iff_exists'.1 (hw.declared d' decl hold)
      have hlt := index_lt_of_node? (node?_of_symbol? hold)
      rw [heq] at hlt
      exact absurd hlt (Nat.lt_irrefl _)
  · rw [horigin]
    obtain ⟨_, _, -, -, -, rfl⟩ := declareId_eq_ok_iff.1 hok
    obtain ⟨_, _, -, -, -, rfl⟩ := declareId_eq_ok_iff.1 hok'
    exact hw.node?_binding x z ty
  · rw [depth_of_declareId hok, depth_of_declareId hok']
    rfl
  · obtain ⟨_, _, -, -, -, rfl⟩ := declareId_eq_ok_iff.1 hok
    obtain ⟨_, _, -, -, -, rfl⟩ := declareId_eq_ok_iff.1 hok'
    show (cx.interner.intern z).2.others x z = (cx.interner.intern x).2.others x z
    rw [Interner.others_intern_of_not (by simp), Interner.others_intern_of_not (by simp)]

end Start

end Context

end ArithLogic
