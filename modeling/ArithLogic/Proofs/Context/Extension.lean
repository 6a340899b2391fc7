import ArithLogic.Context.WellFormed

/-!
# ArithLogic.Proofs.Context.Extension

What a context keeps while it grows.  `cx.Within later` says that everything
held by `cx` is still in `later`: nodes, declarations and interned names.
Every operation on a context leads to a later one in this sense, and whatever
is read off a handle, up to the term that it denotes, is read off it in every
later context as well (`Within.term?`).
-/

namespace ArithLogic.Context

/-- Whatever `cx` holds is held by `later` too. -/
structure Within (cx later : Context) : Prop where
  node : ∀ {e node}, cx.node? e = some node → later.node? e = some node
  decl : ∀ {d decl}, cx.decl? d = some decl → later.decl? d = some decl
  text : ∀ {text}, text ∈ cx.interner.texts → text ∈ later.interner.texts
  origin : later.interner.origin = cx.interner.origin

variable {cx later last : Context}

/-! ## handles in range -/

theorem index_lt_of_node? {e : NodeRef} {node : Node NodeRef} (h : cx.node? e = some node) :
    e.index < cx.size :=
  (Array.getElem?_eq_some_iff.1 h).1

theorem node?_of_index_lt {e : NodeRef} (h : e.index < cx.size) :
    ∃ node, cx.node? e = some node :=
  ⟨cx.nodes[e.index], Array.getElem?_eq_getElem h⟩

/-- A handle to a name leads to the node that holds it. -/
theorem node?_of_symbol? {e : NodeRef} {name : Symbol} (h : cx.symbol? e = some name) :
    cx.node? e = some (.id name) := by
  unfold Context.symbol? at h
  split at h
  · next found hnode =>
    cases h
    exact hnode
  · cases h

/-- A handle to a literal leads to the node that holds it. -/
theorem node?_of_literal? {e : NodeRef} {value : Int} (h : cx.literal? e = some value) :
    cx.node? e = some (.int value) := by
  unfold Context.literal? at h
  split at h
  · next found hnode =>
    cases h
    exact hnode
  · cases h

/-- A handle to a binding leads to its node, and from there to the name. -/
theorem node?_of_binding? {e : NodeRef} {binding : Symbol × Ty} (h : cx.binding? e = some binding) :
    ∃ id, cx.node? e = some (.bind id binding.2) ∧ cx.symbol? id = some binding.1 := by
  unfold Context.binding? at h
  split at h
  · next id ty hnode =>
    obtain ⟨name, hname, rfl⟩ := Option.map_eq_some_iff.1 h
    exact ⟨id, hnode, hname⟩
  · cases h

/-- A handle to a type leads to its node. -/
theorem node?_of_type? {e : NodeRef} {ty : Ty} (h : cx.type? e = some ty) :
    cx.node? e = some (.type ty) := by
  unfold Context.type? at h
  split at h
  · next found hnode =>
    cases h
    exact hnode
  · cases h

/-- The node of a type is there. -/
theorem WellFormed.node?_ref (h : cx.WellFormed) (ty : Ty) : cx.node? ty.ref = some (.type ty) :=
  node?_of_type? ((h.type_iff ty.ref ty).2 rfl)

theorem WellFormed.ref_lt (h : cx.WellFormed) (ty : Ty) : ty.ref.index < cx.size :=
  index_lt_of_node? (h.node?_ref ty)

/-- What a binding binds is a name. -/
theorem WellFormed.exists_name (h : cx.WellFormed) {e id : NodeRef} {ty : Ty}
    (hnode : cx.node? e = some (.bind id ty)) : ∃ name, cx.node? id = some (.id name) := by
  have hadmits : cx.symbol? id ≠ none := h.admits e _ hnode
  obtain ⟨name, hname⟩ := Option.ne_none_iff_exists'.1 hadmits
  exact ⟨name, node?_of_symbol? hname⟩

/-- A quantifier stands in front of a binding. -/
theorem WellFormed.exists_binding (h : cx.WellFormed) {e b body : NodeRef} {op : Quantifier}
    (hnode : cx.node? e = some (.quantifier op b body)) :
    ∃ id ty, cx.node? b = some (.bind id ty) := by
  have hadmits : cx.binding? b ≠ none := h.admits e _ hnode
  obtain ⟨binding, hbinding⟩ := Option.ne_none_iff_exists'.1 hadmits
  obtain ⟨id, hid, -⟩ := node?_of_binding? hbinding
  exact ⟨id, binding.2, hid⟩

/-- The first operand of a product or a quotient is a literal. -/
theorem WellFormed.exists_factor (h : cx.WellFormed) {e factor operand : NodeRef} {op : Scaling}
    (hnode : cx.node? e = some (.scaling op factor operand)) :
    ∃ value, cx.node? factor = some (.int value) := by
  have hadmits : cx.literal? factor ≠ none := h.admits e _ hnode
  obtain ⟨value, hvalue⟩ := Option.ne_none_iff_exists'.1 hadmits
  exact ⟨value, node?_of_literal? hvalue⟩

theorem index_lt_of_decl? {d : DeclRef} {decl : Decl} (h : cx.decl? d = some decl) :
    d.index < cx.decls.size :=
  (Array.getElem?_eq_some_iff.1 h).1

/-- An array that holds whatever another one does, in its place, is a longer
one. -/
theorem exists_append_of_getElem? {α : Type} {xs ys : Array α}
    (h : ∀ {i : Nat} {x : α}, xs[i]? = some x → ys[i]? = some x) : ∃ zs, ys = xs ++ zs := by
  have hprefix : xs.toList <+: ys.toList := by
    refine List.prefix_iff_getElem?.2 fun i hi => ?_
    have hkept := h (Array.getElem?_eq_getElem (by simpa using hi))
    simpa using hkept
  obtain ⟨zs, hzs⟩ := hprefix
  refine ⟨zs.toArray, ?_⟩
  rw [← Array.toList_inj, Array.toList_append, hzs]

/-! ## what later contexts keep -/

namespace Within

theorem refl (cx : Context) : cx.Within cx := ⟨id, id, id, rfl⟩

theorem trans (h : cx.Within later) (h' : later.Within last) : cx.Within last where
  node hn := h'.node (h.node hn)
  decl hd := h'.decl (h.decl hd)
  text ht := h'.text (h.text ht)
  origin := h'.origin.trans h.origin

/-- There are no fewer nodes. -/
theorem size_le (h : cx.Within later) : cx.size ≤ later.size := by
  refine Nat.le_of_not_lt fun hlt => ?_
  obtain ⟨node, hnode⟩ := node?_of_index_lt (e := ⟨later.size⟩) hlt
  exact Nat.lt_irrefl _ (index_lt_of_node? (h.node hnode))

variable (h : cx.Within later) {e : NodeRef}
include h

/-- Nodes are appended. -/
theorem exists_nodes : ∃ nodes, later.nodes = cx.nodes ++ nodes :=
  exists_append_of_getElem? fun {i _} hx => h.node (e := ⟨i⟩) hx

/-- Declarations are appended. -/
theorem exists_decls : ∃ decls, later.decls = cx.decls ++ decls :=
  exists_append_of_getElem? fun {i _} hx => h.decl (d := ⟨i⟩) hx

theorem decls_size_le : cx.decls.size ≤ later.decls.size := by
  obtain ⟨decls, hdecls⟩ := h.exists_decls
  rw [hdecls, Array.size_append]
  exact Nat.le_add_right ..

theorem index_lt (he : e.index < cx.size) : e.index < later.size :=
  Nat.lt_of_lt_of_le he h.size_le

theorem node?_eq (he : e.index < cx.size) : later.node? e = cx.node? e := by
  obtain ⟨node, hnode⟩ := node?_of_index_lt he
  rw [hnode, h.node hnode]

theorem find? {text : String} {name : Symbol} (hf : cx.interner.find? text = some name) :
    later.interner.find? text = some name := by
  rw [Interner.find?_eq_some_iff] at hf ⊢
  exact ⟨h.text hf.1, by rw [hf.2, h.origin]⟩

theorem symbol? {name : Symbol} (hs : cx.symbol? e = some name) :
    later.symbol? e = some name := by
  rw [Context.symbol?, h.node (node?_of_symbol? hs)]

theorem literal? {value : Int} (hl : cx.literal? e = some value) :
    later.literal? e = some value := by
  rw [Context.literal?, h.node (node?_of_literal? hl)]

theorem type? {ty : Ty} (ht : cx.type? e = some ty) : later.type? e = some ty := by
  rw [Context.type?, h.node (node?_of_type? ht)]

theorem binding? {binding : Symbol × Ty} (hb : cx.binding? e = some binding) :
    later.binding? e = some binding := by
  obtain ⟨id, hnode, hname⟩ := node?_of_binding? hb
  rw [Context.binding?, h.node hnode]
  simp [h.symbol? hname]

theorem declName? {d : DeclRef} {name : Symbol} (hd : cx.declName? d = some name) :
    later.declName? d = some name := by
  obtain ⟨decl, hdecl, hname⟩ := Option.bind_eq_some_iff.1 hd
  exact Option.bind_eq_some_iff.2 ⟨decl, h.decl hdecl, h.symbol? hname⟩

theorem view? {view : Node (Older e)} (hv : cx.view? e = some view) :
    later.view? e = some view := by
  obtain ⟨node, hnode, hview⟩ := Option.bind_eq_some_iff.1 hv
  exact Option.bind_eq_some_iff.2 ⟨node, h.node hnode, hview⟩

/-- A handle denotes what it denoted. -/
theorem term? {t : Term} (ht : cx.term? e = some t) : later.term? e = some t := by
  fun_induction Context.term? cx e generalizing t with
  | case1 => cases ht
  | case2 e _ hview | case3 e _ hview | case4 e _ hview | case5 e _ _ hview
  | case14 e _ hview =>
    rw [Context.term?, h.view? hview]; exact ht
  | case6 e op l r hview ihl ihr | case9 e op l r hview ihl ihr | case10 e op l r hview ihl ihr =>
    obtain ⟨tl, hl, ht⟩ := Option.bind_eq_some_iff.1 ht
    obtain ⟨tr, hr, ht⟩ := Option.bind_eq_some_iff.1 ht
    rw [Context.term?, h.view? hview]
    simp only [ihl hl, ihr hr]
    exact ht
  | case7 e op factor operand hview ih =>
    obtain ⟨value, hvalue, ht⟩ := Option.bind_eq_some_iff.1 ht
    obtain ⟨t', ht', ht⟩ := Option.bind_eq_some_iff.1 ht
    rw [Context.term?, h.view? hview]
    simp only [h.literal? hvalue, ih ht']
    exact ht
  | case8 e op operand hview ih =>
    obtain ⟨t', ht', ht⟩ := Option.bind_eq_some_iff.1 ht
    rw [Context.term?, h.view? hview]
    simp only [ih ht']
    exact ht
  | case11 e operand hview ih =>
    obtain ⟨t', ht', ht⟩ := Option.bind_eq_some_iff.1 ht
    rw [Context.term?, h.view? hview]
    simp only [ih ht']
    exact ht
  | case12 e name ty hview =>
    obtain ⟨symbol, hsymbol, ht⟩ := Option.bind_eq_some_iff.1 ht
    rw [Context.term?, h.view? hview]
    simp only [h.symbol? hsymbol]
    exact ht
  | case13 e op binding body hview ih =>
    obtain ⟨⟨name, ty⟩, hbinding, ht⟩ := Option.bind_eq_some_iff.1 ht
    obtain ⟨t', ht', ht⟩ := Option.bind_eq_some_iff.1 ht
    rw [Context.term?, h.view? hview]
    simp only [h.binding? hbinding, ih ht']
    exact ht

end Within

end ArithLogic.Context
