import ArithLogic.Proofs.Context.Preservation

/-!
# ArithLogic.Proofs.Context.Scopes

Declarations and scopes.  A declaration binds its name in the innermost
environment and leaves every other name as it was (`find?_declareId`); a scope
that is entered and left again leaves all of them as they were.  Both keep a
context well formed.
-/

namespace ArithLogic

/-! ## environments -/

theorem Environment.insert_eq_ok_iff {env next : Environment} {name : Symbol} {d : DeclRef} :
    env.insert name d = .ok next ↔ env.contains name = false ∧ next = ⟨(name, d) :: env.bindings⟩ := by
  unfold insert
  split
  · next hbound => simp [hbound]
  · next hfree => simp [hfree, eq_comm]

/-- What is found in the environment with one binding more. -/
theorem Environment.find?_cons (bindings : List (Symbol × DeclRef)) (name other : Symbol)
    (d : DeclRef) : find? ⟨(name, d) :: bindings⟩ other =
      if other = name then some d else find? ⟨bindings⟩ other := by
  by_cases heq : other = name
  · simp [find?, heq]
  · have hbeq : (other == name) = false := by simpa using heq
    simp [find?, List.lookup_cons, heq, hbeq]

namespace ScopeStack

variable {scopes next : ScopeStack} {name : Symbol} {d : DeclRef}

/-- A name is bound only where there is an environment that does not bind it. -/
theorem insert_eq_ok_iff : scopes.insert name d = .ok next ↔
    ∃ env outer, scopes.environments = env :: outer ∧ env.contains name = false ∧
      next = ⟨⟨(name, d) :: env.bindings⟩ :: outer⟩ := by
  unfold insert
  cases hcons : scopes.environments with
  | nil => simp
  | cons env outer =>
    cases hinsert : env.insert name d with
    | error breach =>
      have hbound : env.contains name = true := (Environment.insert_eq_error_iff.1 hinsert).1
      simp [hinsert, hbound, bind, Except.bind]
    | ok inner =>
      obtain ⟨hfree, rfl⟩ := Environment.insert_eq_ok_iff.1 hinsert
      simp only [hinsert, bind, Except.bind, pure, Except.pure, Except.ok.injEq]
      constructor
      · rintro rfl
        exact ⟨env, outer, rfl, hfree, rfl⟩
      · rintro ⟨_, _, hsame, -, rfl⟩
        cases hsame
        rfl

/-- A new binding is found under its name, and no other name is affected. -/
theorem find?_of_insert (h : scopes.insert name d = .ok next) (other : Symbol) :
    next.find? other = if other = name then some d else scopes.find? other := by
  obtain ⟨env, outer, hcons, -, rfl⟩ := insert_eq_ok_iff.1 h
  simp only [find?, hcons, List.findSome?_cons, Environment.find?_cons]
  by_cases heq : other = name
  · simp [heq]
  · simp [heq]

theorem depth_of_insert (h : scopes.insert name d = .ok next) : next.depth = scopes.depth := by
  obtain ⟨env, outer, hcons, -, rfl⟩ := insert_eq_ok_iff.1 h
  simp [depth, hcons]

end ScopeStack

namespace Context

variable {cx later : Context} {id : NodeRef} {ty : Ty} {init : Option NodeRef} {d : DeclRef}

/-! ## declaring a name -/

/-- What a declaration needs, and what it makes of the context. -/
theorem declareId_eq_ok_iff : cx.declareId id ty init = .ok (d, later) ↔
    ∃ name scopes, cx.symbol? id = some name ∧ cx.scopes.insert name ⟨cx.decls.size⟩ = .ok scopes ∧
      d = ⟨cx.decls.size⟩ ∧ later = { cx with decls := cx.decls.push ⟨id, ty, init⟩, scopes } := by
  unfold declareId
  cases hname : cx.symbol? id with
  | none => simp
  | some name =>
    cases hinsert : cx.scopes.insert name ⟨cx.decls.size⟩ with
    | error breach => simp [hinsert, bind, Except.bind]
    | ok scopes => simp [hinsert, bind, Except.bind, pure, Except.pure, eq_comm]

theorem decl?_push (cx : Context) (decl : Decl) (d : DeclRef) :
    decl? { cx with decls := cx.decls.push decl } d =
      if d.index = cx.decls.size then some decl else cx.decl? d :=
  Array.getElem?_push

theorem decl?_push_self (cx : Context) (decl : Decl) :
    decl? { cx with decls := cx.decls.push decl } ⟨cx.decls.size⟩ = some decl := by
  rw [decl?_push, if_pos rfl]

theorem decl?_push_cases {decl found : Decl}
    (h : decl? { cx with decls := cx.decls.push decl } d = some found) :
    (d = ⟨cx.decls.size⟩ ∧ found = decl) ∨ cx.decl? d = some found := by
  rw [decl?_push] at h
  split at h
  · next heq => exact .inl ⟨by rw [← heq], (Option.some.inj h).symm⟩
  · exact .inr h

theorem Within.pushDecl (cx : Context) (decl : Decl) :
    cx.Within { cx with decls := cx.decls.push decl } where
  node h := h
  decl {d found} h := by rw [decl?_push, if_neg (Nat.ne_of_lt (index_lt_of_decl? h)), h]
  text h := h
  origin := rfl

theorem Within.declareId (h : cx.declareId id ty init = .ok (d, later)) : cx.Within later := by
  obtain ⟨name, scopes, -, -, -, rfl⟩ := declareId_eq_ok_iff.1 h
  have hpush := Within.pushDecl cx ⟨id, ty, init⟩
  exact ⟨hpush.node, hpush.decl, hpush.text, rfl⟩

theorem decls_of_declareId (h : cx.declareId id ty init = .ok (d, later)) :
    d = ⟨cx.decls.size⟩ ∧ later.decls = cx.decls.push ⟨id, ty, init⟩ := by
  obtain ⟨name, scopes, -, -, rfl, rfl⟩ := declareId_eq_ok_iff.1 h
  exact ⟨rfl, rfl⟩

/-- The new declaration is behind its handle. -/
theorem decl?_of_declareId (h : cx.declareId id ty init = .ok (d, later)) :
    later.decl? d = some ⟨id, ty, init⟩ := by
  obtain ⟨name, scopes, -, -, rfl, rfl⟩ := declareId_eq_ok_iff.1 h
  exact decl?_push_self cx _

/-- A declaration is the new one or was there before. -/
theorem decl?_of_declareId_cases (h : cx.declareId id ty init = .ok (d, later)) {d' : DeclRef}
    {found : Decl} (hfound : later.decl? d' = some found) :
    (d' = d ∧ found = ⟨id, ty, init⟩) ∨ cx.decl? d' = some found := by
  obtain ⟨name, scopes, -, -, rfl, rfl⟩ := declareId_eq_ok_iff.1 h
  exact decl?_push_cases hfound

/-- The declared name means the new declaration, and no other name is affected. -/
theorem find?_declareId {name : Symbol} (h : cx.declareId id ty init = .ok (d, later))
    (hname : cx.symbol? id = some name) (other : Symbol) :
    later.scopes.find? other = if other = name then some d else cx.scopes.find? other := by
  obtain ⟨_, scopes, hname', hinsert, rfl, rfl⟩ := declareId_eq_ok_iff.1 h
  cases hname.symm.trans hname'
  exact ScopeStack.find?_of_insert hinsert other

/-- A context stays well formed under other scopes that bind names to their
declarations, with the names of the two types at the top. -/
theorem WellFormed.withScopes (h : cx.WellFormed) {scopes : ScopeStack}
    (bound : ∀ env ∈ scopes.environments, ∀ name d, env.find? name = some d →
      cx.declName? d = some name)
    (top : ∃ env, scopes.environments.getLast? = some env ∧
      env.find? ⟨cx.interner.origin, "bool"⟩ = some ⟨0⟩ ∧
      env.find? ⟨cx.interner.origin, "int"⟩ = some ⟨1⟩) :
    WellFormed { cx with scopes } where
  older := h.older
  admits e node hnode := by
    have hadmits := h.admits e node hnode
    cases node <;> exact hadmits
  type_iff := h.type_iff
  declared := h.declared
  defined := h.defined
  bound := bound
  top := top

/-- A context stays well formed with one more declaration. -/
theorem WellFormed.pushDecl (h : cx.WellFormed) {decl : Decl} (hname : cx.symbol? decl.name ≠ none)
    (hinit : ∀ e, decl.init = some e → e.index < cx.size) :
    WellFormed { cx with decls := cx.decls.push decl } where
  older := h.older
  admits e node hnode := (Within.pushDecl cx decl).admits (h.admits e node hnode)
  type_iff := h.type_iff
  declared d found hfound := by
    rcases decl?_push_cases hfound with ⟨-, rfl⟩ | hold
    · exact hname
    · exact h.declared d found hold
  defined d found e hfound he := by
    rcases decl?_push_cases hfound with ⟨-, rfl⟩ | hold
    · exact hinit e he
    · exact h.defined d found e hold he
  bound env henv name d hd := (Within.pushDecl cx decl).declName? (h.bound env henv name d hd)
  top := h.top

theorem WellFormed.declareId (h : cx.WellFormed) (hok : cx.declareId id ty init = .ok (d, later))
    (hinit : ∀ e, init = some e → e.index < cx.size) : later.WellFormed := by
  obtain ⟨name, scopes, hname, hinsert, rfl, rfl⟩ := declareId_eq_ok_iff.1 hok
  obtain ⟨env, outer, hcons, hfree, rfl⟩ := ScopeStack.insert_eq_ok_iff.1 hinsert
  have hpush : WellFormed { cx with decls := cx.decls.push ⟨id, ty, init⟩ } :=
    h.pushDecl (by simp [hname]) hinit
  refine hpush.withScopes ?_ ?_
  · intro inner hinner other d hd
    rcases List.mem_cons.1 hinner with rfl | houter
    · rw [Environment.find?_cons] at hd
      split at hd
      · next heq =>
        cases hd
        exact Option.bind_eq_some_iff.2 ⟨_, decl?_push_self cx _, heq ▸ hname⟩
      · exact hpush.bound env (by rw [hcons]; exact List.mem_cons_self) other d hd
    · exact hpush.bound inner (by rw [hcons]; exact List.mem_cons_of_mem _ houter) other d hd
  · obtain ⟨last, hlast, hbool, hint⟩ := h.top
    rw [hcons] at hlast
    cases outer with
    | nil =>
      cases hlast
      -- the new name is free in the top environment, which binds `bool` and `int`
      have hother : ∀ {text found}, env.find? ⟨cx.interner.origin, text⟩ = some found →
          Environment.find? ⟨(name, ⟨cx.decls.size⟩) :: env.bindings⟩ ⟨cx.interner.origin, text⟩ =
            some found := by
        intro text found hfound
        rw [Environment.find?_cons, if_neg, hfound]
        rintro rfl
        simp [Environment.contains, hfound] at hfree
      exact ⟨_, rfl, hother hbool, hother hint⟩
    | cons next outer => exact ⟨last, hlast, hbool, hint⟩

/-- So it does with one more variable. -/
theorem WellFormed.declareVar (h : cx.WellFormed)
    (hok : cx.declareId id ty none = .ok (d, later)) : later.WellFormed :=
  h.declareId hok (by simp)

theorem depth_of_declareId (hok : cx.declareId id ty init = .ok (d, later)) :
    later.depth = cx.depth := by
  obtain ⟨name, scopes, -, hinsert, -, rfl⟩ := declareId_eq_ok_iff.1 hok
  exact ScopeStack.depth_of_insert hinsert

/-- In the top environment a declaration takes the meaning of no name away. -/
theorem find?_mono_declareId (hok : cx.declareId id ty init = .ok (d, later)) (hdepth : cx.depth = 1)
    {name : Symbol} {d' : DeclRef} (hname : cx.scopes.find? name = some d') :
    later.scopes.find? name = some d' := by
  obtain ⟨symbol, scopes, hsymbol, hinsert, rfl, rfl⟩ := declareId_eq_ok_iff.1 hok
  rw [find?_declareId hok hsymbol, if_neg]
  · exact hname
  · rintro rfl
    obtain ⟨env, outer, hcons, hfree, -⟩ := ScopeStack.insert_eq_ok_iff.1 hinsert
    have houter : outer = [] := by simpa [depth, ScopeStack.depth, hcons] using hdepth
    subst houter
    rw [ScopeStack.find?, hcons, List.findSome?_cons, List.findSome?_nil] at hname
    cases hfound : env.find? name with
    | none => simp [hfound] at hname
    | some found => simp [Environment.contains, hfound] at hfree

/-! ## entering and leaving -/

theorem Within.enterScope (cx : Context) : cx.Within cx.enterScope := ⟨id, id, id, rfl⟩

theorem WellFormed.enterScope (h : cx.WellFormed) : cx.enterScope.WellFormed := by
  refine h.withScopes ?_ ?_
  · intro env henv name d hd
    rcases List.mem_cons.1 henv with rfl | hmem
    · cases hd
    · exact h.bound env hmem name d hd
  · obtain ⟨last, hlast, hnames⟩ := h.top
    refine ⟨last, ?_, hnames⟩
    cases henvs : cx.scopes.environments with
    | nil => simp [henvs] at hlast
    | cons env outer => simpa [ScopeStack.push, henvs] using hlast

/-- A scope is left only where another one is around it. -/
theorem leaveScope_eq_ok_iff : cx.leaveScope = .ok later ↔
    ∃ env next outer, cx.scopes.environments = env :: next :: outer ∧
      later = { cx with scopes := ⟨next :: outer⟩ } := by
  unfold leaveScope depth ScopeStack.depth ScopeStack.pop?
  match cx.scopes.environments with
  | [] => simp
  | [env] => simp
  | env :: next :: outer =>
    simp only [List.length_cons, show ¬ outer.length + 1 + 1 ≤ 1 by omega, if_false,
      Except.ok.injEq]
    constructor
    · rintro rfl
      exact ⟨env, next, outer, rfl, rfl⟩
    · rintro ⟨_, _, _, hsame, rfl⟩
      cases hsame
      rfl

theorem decls_of_leaveScope (h : cx.leaveScope = .ok later) : later.decls = cx.decls := by
  obtain ⟨env, next, outer, -, rfl⟩ := leaveScope_eq_ok_iff.1 h
  rfl

theorem Within.leaveScope (h : cx.leaveScope = .ok later) : cx.Within later := by
  obtain ⟨env, next, outer, -, rfl⟩ := leaveScope_eq_ok_iff.1 h
  exact ⟨id, id, id, rfl⟩

theorem WellFormed.leaveScope (h : cx.WellFormed) (hok : cx.leaveScope = .ok later) :
    later.WellFormed := by
  obtain ⟨env, next, outer, hcons, rfl⟩ := leaveScope_eq_ok_iff.1 hok
  refine h.withScopes ?_ ?_
  · intro inner hinner
    exact h.bound inner (by rw [hcons]; exact List.mem_cons_of_mem _ hinner)
  · obtain ⟨last, hlast, hnames⟩ := h.top
    exact ⟨last, by simpa [hcons] using hlast, hnames⟩

/-- A name can always be declared in a scope that was just entered, and is the
only one in it. -/
theorem exists_declareId_enterScope {name : Symbol} (hname : cx.symbol? id = some name) (ty : Ty)
    (init : Option NodeRef) :
    ∃ inner, cx.enterScope.declareId id ty init = .ok (⟨cx.decls.size⟩, inner) ∧
      inner.scopes = cx.scopes.push ⟨[(name, ⟨cx.decls.size⟩)]⟩ ∧
      inner.decls = cx.decls.push ⟨id, ty, init⟩ :=
  ⟨_, declareId_eq_ok_iff.2 ⟨name, _, hname, ScopeStack.insert_eq_ok_iff.2
    ⟨.empty, cx.scopes.environments, rfl, rfl, rfl⟩, rfl, rfl⟩, rfl, rfl⟩

/-- Leaving a scope that lies over those of `cx` leads back to those of `cx`. -/
theorem leaveScope_of_push {env : Environment} (hpos : 0 < cx.depth)
    (hscopes : later.scopes = cx.scopes.push env) :
    later.leaveScope = .ok { later with scopes := cx.scopes } := by
  obtain ⟨next, outer, hcons⟩ : ∃ next outer, cx.scopes.environments = next :: outer :=
    List.exists_cons_of_length_pos hpos
  refine leaveScope_eq_ok_iff.2 ⟨env, next, outer, ?_, ?_⟩
  · rw [hscopes, ScopeStack.push, hcons]
  · rw [← hcons]

/-- A well formed context has a top environment. -/
theorem WellFormed.depth_pos (h : cx.WellFormed) : 0 < cx.depth := by
  obtain ⟨last, hlast, -⟩ := h.top
  exact List.length_pos_iff.2 fun hnil => by simp [hnil] at hlast

/-- What a name means in a well formed context is a declaration of that name. -/
theorem WellFormed.declName?_of_find? (h : cx.WellFormed) {name : Symbol}
    (hd : cx.scopes.find? name = some d) : cx.declName? d = some name := by
  obtain ⟨env, henv, hfound⟩ := List.exists_of_findSome?_eq_some hd
  exact h.bound env henv name d hfound

/-- A name of this context that an environment binds was interned. -/
theorem WellFormed.find?_of_bound (h : cx.WellFormed) {env : Environment} {text : String}
    (henv : env ∈ cx.scopes.environments)
    (hbound : env.contains ⟨cx.interner.origin, text⟩ = true) :
    cx.interner.find? text = some ⟨cx.interner.origin, text⟩ := by
  obtain ⟨d, hd⟩ := Option.isSome_iff_exists.1 hbound
  obtain ⟨decl, -, hsymbol⟩ := Option.bind_eq_some_iff.1 (h.bound env henv _ d hd)
  exact h.admits _ _ (node?_of_symbol? hsymbol) rfl

/-- A name of this context that means something was interned. -/
theorem WellFormed.find?_of_lookup (h : cx.WellFormed) {text : String}
    (hd : cx.scopes.find? ⟨cx.interner.origin, text⟩ = some d) :
    cx.interner.find? text = some ⟨cx.interner.origin, text⟩ := by
  obtain ⟨env, henv, hfound⟩ := List.exists_of_findSome?_eq_some hd
  exact h.find?_of_bound henv (by rw [Environment.contains, hfound]; rfl)

/-- A name means what its symbol means, whether it was interned or not. -/
theorem WellFormed.lookup?_eq (h : cx.WellFormed) (text : String) :
    cx.lookup? text = cx.scopes.find? ⟨cx.interner.origin, text⟩ := by
  unfold lookup?
  cases hname : cx.interner.find? text with
  | some name =>
    obtain ⟨-, rfl⟩ := Interner.find?_eq_some_iff.1 hname
    rfl
  | none =>
    cases hfind : cx.scopes.find? ⟨cx.interner.origin, text⟩ with
    | none => rfl
    | some d => simp [h.find?_of_lookup hfind] at hname

/-- Whether the innermost environment binds a name is a matter of its symbol,
interned or not. -/
theorem WellFormed.isLocal_eq (h : cx.WellFormed) {env : Environment} {outer : List Environment}
    (hcons : cx.scopes.environments = env :: outer) (text : String) :
    cx.isLocal text = env.contains ⟨cx.interner.origin, text⟩ := by
  have hcurrent : cx.scopes.current? = some env := by rw [ScopeStack.current?, hcons]; rfl
  unfold isLocal
  rw [hcurrent]
  cases hname : cx.interner.find? text with
  | some name =>
    obtain ⟨-, rfl⟩ := Interner.find?_eq_some_iff.1 hname
    rfl
  | none =>
    cases hbound : env.contains ⟨cx.interner.origin, text⟩ with
    | false => rfl
    | true => simp [h.find?_of_bound (by rw [hcons]; exact List.mem_cons_self) hbound] at hname

end Context

end ArithLogic
