import ArithLogic.Proofs.Reading.Exactness
import ArithLogic.Proofs.Reading.Tiling

/-!
# ArithLogic.Proofs.Reading.Spans

The places of trees.  Spans are not stored but joined from those of tokens,
some of which a tree has given up.  Still the span of every part of a tree that
was read goes from the start of the first of its tokens to the end of the last
(`Tree.LiesAt`), for each part is derived from a stretch of the tokens
(`DerivesStatement.exists_segment`) and the tokens of a text lie one behind the
other.  So the spans of a node's token and children do not overlap, and lie in
that of the node (`Tree.Nested`).
-/

namespace ArithLogic

/-! ## parts of trees -/

namespace Tree

/-- The tree and all its parts. -/
def subtrees : Tree → List Tree
  | tree@(enclosed _ body _) => tree :: body.subtrees
  | tree@(terminal _) => [tree]
  | tree@(unary _ operand) => tree :: operand.subtrees
  | tree@(binary _ left right) => tree :: (left.subtrees ++ right.subtrees)

/-- The spans of a node's tokens and children, as they are read from left to
right. -/
def partSpans : Tree → List Span
  | enclosed opening body closing => [opening.span, body.span, closing.span]
  | terminal token => [token.span]
  | unary op operand => [op.span, operand.span]
  | binary op left right =>
    match op.kind with
    | .kwForall | .kwExists => [op.span, left.span, right.span]
    | _ => [left.span, op.span, right.span]

theorem self_mem_subtrees (tree : Tree) : tree ∈ tree.subtrees := by
  cases tree <;> exact List.mem_cons_self

variable {op : Token} {left right : Tree}

theorem partSpans_quantified (h : op.kind = .kwForall ∨ op.kind = .kwExists) :
    (binary op left right).partSpans = [op.span, left.span, right.span] := by
  rcases h with h | h <;> simp only [partSpans, h]

theorem partSpans_operation (h : ¬ (op.kind = .kwForall ∨ op.kind = .kwExists)) :
    (binary op left right).partSpans = [left.span, op.span, right.span] := by
  rw [partSpans]
  split
  · next hkind => exact absurd (.inl hkind) h
  · next hkind => exact absurd (.inr hkind) h
  · rfl

/-- The tokens are those of the tree, in a text that has further tokens only
between them: the span of the tree goes from the start of the first to the end
of the last. -/
structure LiesAt (tree : Tree) (ts : List Token) : Prop where
  tokens : keptTokens ts = tree.tokens
  first : ts.head? = tree.tokens.head?
  last : ts.getLast? = tree.tokens.getLast?
  span : ∃ first last, ts.head? = some first ∧ ts.getLast? = some last ∧
    tree.span = ⟨first.span.start, last.span.stop⟩

/-- The parts of a node lie within it, one behind the other. -/
structure WellPlaced (tree : Tree) : Prop where
  within : ∀ span ∈ tree.partSpans, span.Within tree.span
  pairwise : tree.partSpans.Pairwise fun a b => a.stop ≤ b.start

/-- All nodes of the tree are well placed. -/
def Nested (tree : Tree) : Prop := ∀ part ∈ tree.subtrees, part.WellPlaced

end Tree

/-! ## stretches of tokens -/

/-- The tokens lie one behind the other. -/
structure InOrder (ts : List Token) : Prop where
  forward : ∀ t ∈ ts, t.span.start ≤ t.span.stop
  pairwise : ts.Pairwise fun a b => a.span.stop ≤ b.span.start

namespace InOrder

variable {ts us : List Token}

theorem sublist (h : InOrder ts) (hus : us.Sublist ts) : InOrder us :=
  ⟨fun t ht => h.forward t (hus.subset ht), h.pairwise.sublist hus⟩

theorem left (h : InOrder (ts ++ us)) : InOrder ts := h.sublist (List.sublist_append_left ..)

theorem right (h : InOrder (ts ++ us)) : InOrder us := h.sublist (List.sublist_append_right ..)

theorem tail {t : Token} (h : InOrder (t :: ts)) : InOrder ts :=
  h.sublist (List.sublist_cons_self ..)

end InOrder

/-- The span goes from the start of the first token to the end of the last, and
trees keep both. -/
def Span.IsHull (span : Span) (ts : List Token) : Prop :=
  ∃ first last, ts.head? = some first ∧ ts.getLast? = some last ∧
    first.kind.isKept = true ∧ last.kind.isKept = true ∧
    span = ⟨first.span.start, last.span.stop⟩

namespace Span.IsHull

variable {span a b : Span} {ts us vs : List Token}

theorem single {t : Token} (h : t.kind.isKept = true) : t.span.IsHull [t] :=
  ⟨t, t, rfl, rfl, h, h, rfl⟩

/-- The join of two stretches covers what is between them. -/
theorem join (ha : a.IsHull us) (mid : List Token) (hb : b.IsHull vs)
    (h : InOrder (us ++ (mid ++ vs))) : (a.join b).IsHull (us ++ (mid ++ vs)) := by
  obtain ⟨first, u, hfirst, hu, hkept, -, rfl⟩ := ha
  obtain ⟨v, last, hv, hlast, -, hkept', rfl⟩ := hb
  have hbetween : ∀ x ∈ us, ∀ y ∈ vs, x.span.stop ≤ y.span.start := fun x hx y hy =>
    (List.pairwise_append.1 h.pairwise).2.2 x hx y (List.mem_append_right _ hy)
  have hfirstMem := List.mem_of_head? hfirst
  have hlastMem := List.mem_of_getLast? hlast
  have hstart := hbetween first hfirstMem v (List.mem_of_head? hv)
  have hstop := hbetween u (List.mem_of_getLast? hu) last hlastMem
  have hforward := h.forward first (List.mem_append_left _ hfirstMem)
  have hforward' := h.forward last (List.mem_append_right _ (List.mem_append_right _ hlastMem))
  refine ⟨first, last, ?_, ?_, hkept, hkept', ?_⟩
  · rw [List.head?_append, hfirst, Option.some_or]
  · rw [← List.append_assoc, List.getLast?_append, hlast, Option.some_or]
  · simp only [Span.join, Span.mk.injEq]
    omega

/-- An operator behind its left operand and in front of its right one. -/
theorem around {op : Token} (ha : a.IsHull us) (hop : op.kind.isKept = true) (hb : b.IsHull vs)
    (h : InOrder (us ++ op :: vs)) : ((op.span.join a).join b).IsHull (us ++ op :: vs) := by
  have hsplit : us ++ op :: vs = us ++ ([] ++ [op]) ++ ([] ++ vs) := by simp
  rw [hsplit] at h ⊢
  rw [Span.join_comm op.span]
  exact (ha.join [] (.single hop) h.left).join [] hb h

/-- A stretch of the tokens is within the whole. -/
theorem within (ha : a.IsHull us) (hspan : span.IsHull ts) (h : InOrder ts)
    (hsub : us.Sublist ts) : a.Within span := by
  obtain ⟨first, last, hfirst, hlast, -, -, rfl⟩ := hspan
  obtain ⟨u, v, hu, hv, -, -, rfl⟩ := ha
  obtain ⟨tail, rfl⟩ := List.head?_eq_some_iff.1 hfirst
  obtain ⟨init, hinit⟩ := List.getLast?_eq_some_iff.1 hlast
  have hforward := h.forward first List.mem_cons_self
  have hforward' := h.forward last (List.mem_of_getLast? hlast)
  constructor
  · rcases List.mem_cons.1 (hsub.subset (List.mem_of_head? hu)) with rfl | hmem
    · exact Nat.le_refl _
    · exact Nat.le_trans hforward (List.rel_of_pairwise_cons h.pairwise hmem)
  · have hpairwise := h.pairwise
    have hmem := hsub.subset (List.mem_of_getLast? hv)
    rw [hinit] at hpairwise hmem
    rcases List.mem_append.1 hmem with hmem | hmem
    · exact Nat.le_trans ((List.pairwise_append.1 hpairwise).2.2 v hmem last (by simp)) hforward'
    · exact Nat.le_of_eq (congrArg (Span.stop ∘ Token.span) (List.mem_singleton.1 hmem))

/-- The tokens that are kept begin and end with the tokens at the ends. -/
theorem ends_keptTokens (h : span.IsHull ts) :
    (keptTokens ts).head? = ts.head? ∧ (keptTokens ts).getLast? = ts.getLast? := by
  obtain ⟨first, last, hfirst, hlast, hkept, hkept', -⟩ := h
  constructor
  · obtain ⟨tail, rfl⟩ := List.head?_eq_some_iff.1 hfirst
    rw [keptTokens_cons hkept]
    rfl
  · obtain ⟨init, rfl⟩ := List.getLast?_eq_some_iff.1 hlast
    rw [keptTokens_append, keptTokens_cons hkept']
    simp

end Span.IsHull

/-- The parts of the tree have stretches of the tokens, one behind the other. -/
structure Tree.Stretched (tree : Tree) (ts : List Token) : Prop where
  span : tree.span.IsHull ts
  parts : ∃ stretches : List (Span × List Token), tree.partSpans = stretches.map Prod.fst ∧
    (stretches.flatMap Prod.snd).Sublist ts ∧ ∀ s ∈ stretches, s.1.IsHull s.2

/-- Stretches one behind the other have spans one behind the other. -/
theorem pairwise_of_isHull {stretches : List (Span × List Token)}
    (hspans : ∀ s ∈ stretches, s.1.IsHull s.2) (h : InOrder (stretches.flatMap Prod.snd)) :
    (stretches.map Prod.fst).Pairwise fun a b => a.stop ≤ b.start := by
  induction stretches with
  | nil => exact .nil
  | cons s stretches ih =>
    rw [List.forall_mem_cons] at hspans
    rw [List.flatMap_cons] at h
    refine .cons (fun b hb => ?_) (ih hspans.2 h.right)
    obtain ⟨s', hs', rfl⟩ := List.mem_map.1 hb
    obtain ⟨_, last, -, hlast, -, -, hspan⟩ := hspans.1
    obtain ⟨first, _, hfirst, -, -, -, hspan'⟩ := hspans.2 s' hs'
    rw [hspan, hspan']
    exact (List.pairwise_append.1 h.pairwise).2.2 last (List.mem_of_getLast? hlast) first
      (List.mem_flatMap.2 ⟨s', hs', List.mem_of_head? hfirst⟩)

/-- What has such stretches is well placed. -/
theorem Tree.Stretched.wellPlaced {tree : Tree} {ts : List Token} (h : tree.Stretched ts)
    (hts : InOrder ts) : tree.WellPlaced := by
  obtain ⟨stretches, hparts, hsub, hspans⟩ := h.parts
  constructor
  · rw [hparts]
    intro span hspan
    obtain ⟨s, hs, rfl⟩ := List.mem_map.1 hspan
    rw [List.flatMap_def] at hsub
    exact (hspans s hs).within h.span hts
      ((List.sublist_flatten_of_mem (List.mem_map_of_mem hs)).trans hsub)
  · rw [hparts]
    exact pairwise_of_isHull hspans (hts.sublist hsub)

/-! ## derived trees -/

section Derived

variable {level : Level} {op name : Token} {ls rs ts : List Token} {left right tree : Tree}

/-- An operator in front of its operand is stretched over both. -/
theorem Tree.Stretched.prefixed (hr : right.span.IsHull rs) (hop : op.kind.isKept = true)
    (h : InOrder (op :: rs)) : (Tree.unary op right).Stretched (op :: rs) where
  span := (Span.IsHull.single hop).join [] hr h
  parts := ⟨[(op.span, [op]), (right.span, rs)], rfl, by simp, by simp [hr, Span.IsHull.single hop]⟩

/-- An operator between its operands is stretched over the tokens of both. -/
theorem Tree.Stretched.infixed (hl : left.span.IsHull ls) (hr : right.span.IsHull rs)
    (hop : op.kind.isKept = true) (hother : ¬ (op.kind = .kwForall ∨ op.kind = .kwExists))
    (h : InOrder (ls ++ op :: rs)) : (Tree.binary op left right).Stretched (ls ++ op :: rs) where
  span := hl.around hop hr h
  parts := by
    refine ⟨[(left.span, ls), (op.span, [op]), (right.span, rs)],
      partSpans_operation hother, ?_, ?_⟩
    · simp
    · simp [hl, hr, Span.IsHull.single hop]

/-- So is a name in front of its type or value. -/
theorem Tree.Stretched.named (hname : name.kind.isName = true)
    (hop : op.kind = .colon ∨ op.kind = .assign) (hr : right.span.IsHull rs)
    (h : InOrder (name :: op :: rs)) :
    (Tree.binary op (.terminal name) right).Stretched (name :: op :: rs) := by
  have hkept := TokenKind.isKept_of_isAtom (TokenKind.isAtom_of_isName hname)
  have hleft : (Tree.terminal name).span.IsHull [name] := .single hkept
  refine .infixed hleft hr ?_ ?_ h <;> rcases hop with hop | hop <;> simp [hop, TokenKind.isKept]

/-- An expression is stretched over the tokens that it is derived from. -/
theorem Derives.stretched (h : Derives level ts tree) (hts : InOrder ts) : tree.Stretched ts := by
  induction h with
  | @atom t hatom =>
    have hkept := TokenKind.isKept_of_isAtom hatom
    exact ⟨.single hkept, [(t.span, [t])], rfl, by simp, by simp [Span.IsHull.single hkept]⟩
  | @enclosed opening closing ts body hopening hclosing _ ih =>
    have hfirst : opening.span.IsHull [opening] := .single (by rw [hopening]; rfl)
    have hlast : closing.span.IsHull [closing] := .single (by rw [hclosing]; rfl)
    have hbody := (ih hts.left.tail).span
    exact ⟨hfirst.join ts hlast hts,
      [(opening.span, [opening]), (body.span, ts), (closing.span, [closing])], rfl, by simp,
      by simp [hfirst, hlast, hbody]⟩
  | sign hop _ ih =>
    exact .prefixed (ih hts.tail).span (by rcases hop with h | h <;> rw [h] <;> rfl) hts
  | negation hop _ ih => exact .prefixed (ih hts.tail).span (by rw [hop]; rfl) hts
  | operation hop _ _ ihl ihr =>
    refine .infixed (ihl hts.left).span (ihr hts.right.tail).span
      (TokenKind.isKept_of_infixLevel? hop) ?_ hts
    rintro (hkind | hkind) <;> rw [hkind] at hop <;> cases hop
  | @quantified op name colon dot ts bs type body hop hname hcolon _ hdot _ iht ihb =>
    have hfirst : op.span.IsHull [op] := .single (by rcases hop with h | h <;> rw [h] <;> rfl)
    have hbinding : InOrder (name :: colon :: ts) := hts.left.tail
    have htype := (iht hbinding.tail.tail).span
    have hleft := (Tree.Stretched.named hname (.inl hcolon) htype hbinding).span
    have hbody := (ihb hts.right.tail).span
    -- the dot is between the binding and the body
    have hfront := hfirst.join [] hleft hts.left
    exact ⟨hfront.join [dot] hbody hts,
      [(op.span, [op]), (_, name :: colon :: ts), (body.span, bs)],
      Tree.partSpans_quantified hop, by simp,
      List.forall_mem_cons.2 ⟨hfirst, List.forall_mem_cons.2 ⟨hleft, by simp [hbody]⟩⟩⟩
  | loosen _ ih => exact ih hts

/-- Tokens over which a tree is stretched, and that are its own, are where it
lies. -/
theorem Tree.Stretched.liesAt (h : tree.Stretched ts) (htokens : keptTokens ts = tree.tokens) :
    tree.LiesAt ts := by
  obtain ⟨hfirst, hlast⟩ := h.span.ends_keptTokens
  obtain ⟨first, last, hhead, hgetLast, -, -, hspan⟩ := h.span
  rw [htokens] at hfirst hlast
  exact ⟨htokens, hfirst.symm, hlast.symm, first, last, hhead, hgetLast, hspan⟩

/-- A statement lies at the tokens that it is derived from, but for `let`. -/
theorem DerivesStatement.exists_liesAt (h : DerivesStatement ts tree) (hts : InOrder ts) :
    ∃ us, us <:+ ts ∧ tree.LiesAt us ∧ tree.Stretched us := by
  have htokens := h.keptTokens
  cases h with
  | expression h =>
    exact ⟨ts, List.suffix_refl _, (h.stretched hts).liesAt htokens, h.stretched hts⟩
  | declaration hname hcolon htype =>
    have hstretched := Tree.Stretched.named hname (.inl hcolon)
      (htype.stretched hts.tail.tail).span hts
    exact ⟨_, List.suffix_refl _, hstretched.liesAt htokens, hstretched⟩
  | definition hkeyword hname hassign hvalue =>
    have hstretched := Tree.Stretched.named hname (.inr hassign)
      (hvalue.stretched hts.tail.tail.tail).span hts.tail
    rw [keptTokens_cons_of_not (by rw [hkeyword]; rfl)] at htokens
    exact ⟨_, List.suffix_cons .., hstretched.liesAt htokens, hstretched⟩

/-- The tree is derived from a stretch of the tokens, as a statement is. -/
def Tree.DerivedIn (tree : Tree) (ts : List Token) : Prop :=
  ∃ us, us <:+: ts ∧ DerivesStatement us tree

theorem Tree.DerivedIn.trans {us : List Token} (h : tree.DerivedIn us) (hus : us <:+: ts) :
    tree.DerivedIn ts := by
  obtain ⟨vs, hvs, hderives⟩ := h
  exact ⟨vs, hvs.trans hus, hderives⟩

theorem DerivesStatement.derivedIn (h : DerivesStatement ts tree) : tree.DerivedIn ts :=
  ⟨ts, List.infix_refl ts, h⟩

theorem Derives.derivedIn (h : Derives level ts tree) : tree.DerivedIn ts :=
  (DerivesStatement.expression (h.mono (Nat.zero_le _))).derivedIn

/-- The parts of what has a name in front are the whole, the name, and the parts
of the rest. -/
theorem Tree.derivedIn_named (hname : name.kind.isName = true)
    (hwhole : DerivesStatement ts (.binary op (.terminal name) right))
    (hsplit : [name] <:+: ts ∧ rs <:+: ts) (hr : ∀ part ∈ right.subtrees, part.DerivedIn rs) :
    ∀ part ∈ (Tree.binary op (.terminal name) right).subtrees, part.DerivedIn ts := by
  have hatom : Derives .primary [name] (.terminal name) := .atom (TokenKind.isAtom_of_isName hname)
  simp only [subtrees, List.singleton_append, List.forall_mem_cons]
  exact ⟨hwhole.derivedIn, hatom.derivedIn.trans hsplit.1,
    fun part hpart => (hr part hpart).trans hsplit.2⟩

/-- Every part of an expression is derived from a stretch of its tokens, as an
expression or, in front of the body of a quantifier, as a declaration is. -/
theorem Derives.exists_segment (h : Derives level ts tree) :
    ∀ part ∈ tree.subtrees, part.DerivedIn ts := by
  induction h with
  | atom hatom =>
    rw [Tree.subtrees, List.forall_mem_singleton]
    exact (Derives.atom hatom).derivedIn
  | enclosed hopening hclosing hbody ih =>
    rw [Tree.subtrees, List.forall_mem_cons]
    exact ⟨(Derives.enclosed hopening hclosing hbody).derivedIn,
      fun part hpart => (ih part hpart).trans ⟨[_], [_], rfl⟩⟩
  | sign hop hoperand ih =>
    rw [Tree.subtrees, List.forall_mem_cons]
    exact ⟨(Derives.sign hop hoperand).derivedIn,
      fun part hpart => (ih part hpart).trans (List.suffix_cons ..).isInfix⟩
  | negation hop hoperand ih =>
    rw [Tree.subtrees, List.forall_mem_cons]
    exact ⟨(Derives.negation hop hoperand).derivedIn,
      fun part hpart => (ih part hpart).trans (List.suffix_cons ..).isInfix⟩
  | @operation op _ ls rs _ _ hop hl hr ihl ihr =>
    rw [Tree.subtrees, List.forall_mem_cons, List.forall_mem_append]
    exact ⟨(Derives.operation hop hl hr).derivedIn,
      fun part hpart => (ihl part hpart).trans (List.prefix_append ..).isInfix,
      fun part hpart => (ihr part hpart).trans ⟨ls ++ [op], [], by simp⟩⟩
  | @quantified op name colon dot ts bs _ _ hop hname hcolon htype hdot hbody iht ihb =>
    rw [Tree.subtrees, List.forall_mem_cons, List.forall_mem_append]
    have hbinding := Tree.derivedIn_named hname (.declaration hname hcolon htype)
      ⟨(List.prefix_append [name] (colon :: ts)).isInfix,
        (List.suffix_append [name, colon] ts).isInfix⟩ iht
    exact ⟨(Derives.quantified hop hname hcolon htype hdot hbody).derivedIn,
      fun part hpart => (hbinding part hpart).trans ⟨[op], dot :: bs, rfl⟩,
      fun part hpart => (ihb part hpart).trans
        ⟨op :: name :: colon :: ts ++ [dot], [], by simp⟩⟩
  | loosen _ ih => exact ih

/-- So is every part of a statement. -/
theorem DerivesStatement.exists_segment (h : DerivesStatement ts tree) :
    ∀ part ∈ tree.subtrees, part.DerivedIn ts := by
  cases h with
  | expression h => exact h.exists_segment
  | @declaration name colon ts _ hname hcolon htype =>
    exact Tree.derivedIn_named hname (.declaration hname hcolon htype)
      ⟨(List.prefix_append [name] (colon :: ts)).isInfix,
        (List.suffix_append [name, colon] ts).isInfix⟩ htype.exists_segment
  | @definition keyword name assign ts _ hkeyword hname hassign hvalue =>
    exact Tree.derivedIn_named hname (.definition hkeyword hname hassign hvalue)
      ⟨⟨[keyword], assign :: ts, rfl⟩, (List.suffix_append [keyword, name, assign] ts).isInfix⟩
      hvalue.exists_segment

/-- And a program holds its statements. -/
theorem DerivesProgram.exists_segment {trees : List Tree} (h : DerivesProgram ts trees) :
    ∀ tree ∈ trees, tree.DerivedIn ts := by
  induction h with
  | empty => exact List.forall_mem_nil _
  | last h => rw [List.forall_mem_singleton]; exact h.derivedIn
  | @cons semicolon ts us _ _ h _ _ ih =>
    rw [List.forall_mem_cons]
    exact ⟨h.derivedIn.trans (List.prefix_append ..).isInfix,
      fun tree htree => (ih tree htree).trans ⟨ts ++ [semicolon], [], by simp⟩⟩

end Derived

/-! ## texts -/

namespace Lexer.Tiles

variable {atEnd : Bool} {start : Nat} {cs : List Char} {ts us : List Token}

theorem inOrder (h : Tiles atEnd start cs ts) : InOrder ts where
  forward t ht := by
    obtain ⟨_, _, -, -, hspan⟩ := h.exists_slice t ht
    rw [hspan]
    exact Nat.le_add_right ..
  pairwise := h.pairwise

/-- From the start of a token to the end of a later one is a part of the text. -/
theorem exists_slice_between (h : Tiles atEnd start cs ts) {first last : Token}
    (hfirst : first ∈ ts) (hlast : last ∈ ts) (hle : first.span.start ≤ last.span.stop) :
    ∃ before text after, cs = before ++ text ++ after ∧
      first.span.start = start + byteLength before ∧
      last.span.stop = start + byteLength (before ++ text) := by
  obtain ⟨before, behind, hcs, -, hspan⟩ := h.exists_slice first hfirst
  obtain ⟨before', after, hcs', -, hspan'⟩ := h.exists_slice last hlast
  rw [← List.append_assoc] at hcs'
  have hlength : byteLength before ≤ byteLength (before' ++ last.text.toList) := by
    rw [hspan, hspan'] at hle
    simp only [Nat.add_assoc, Nat.add_le_add_iff_left] at hle
    rwa [byteLength_append]
  have hprefix : before <+: before' ++ last.text.toList := by
    rcases List.prefix_or_prefix_of_prefix (⟨_, hcs.symm⟩ : before <+: cs) ⟨_, hcs'.symm⟩ with
      hprefix | ⟨rest, hrest⟩
    · exact hprefix
    · cases rest with
      | nil =>
        rw [List.append_nil] at hrest
        exact hrest ▸ List.prefix_refl _
      | cons c rest =>
        have hpos := byteLength_pos (List.cons_ne_nil c rest)
        rw [← hrest, byteLength_append _ (c :: rest)] at hlength
        omega
  obtain ⟨text, htext⟩ := hprefix
  refine ⟨before, text, after, by rw [htext, hcs'], by rw [hspan], ?_⟩
  rw [htext, hspan', byteLength_append, Nat.add_assoc]

end Lexer.Tiles

/-- The tree was read from the source, as an expression or as a statement of a
program. -/
def Tree.ReadFrom (tree : Tree) (source : String) : Prop :=
  parseExpression source = .ok tree ∨ ∃ trees, parseProgram source = .ok trees ∧ tree ∈ trees

/-- The tree has its place in the source, which consists of the tokens. -/
structure Tree.PlacedIn (tree : Tree) (source : String) (ts : List Token) : Prop where
  tokens : ∃ us, us <:+: ts ∧ tree.LiesAt us
  slice : ∃ before text after, source = before ++ text ++ after ∧
    tree.span = ⟨before.utf8ByteSize, (before ++ text).utf8ByteSize⟩
  parts : tree.WellPlaced

variable {tree : Tree} {source : String} {ts : List Token}

/-- What was read is derived from a stretch of the tokens. -/
theorem Tree.ReadFrom.exists_derivedIn (h : tree.ReadFrom source) :
    ∃ ts, tokenize source = .ok ts ∧ ∀ part ∈ tree.subtrees, part.DerivedIn ts := by
  rcases h with h | ⟨trees, h, htree⟩
  · obtain ⟨ts, htokens, hderives⟩ := parseExpression_eq_ok_iff.1 h
    exact ⟨ts, htokens, hderives.exists_segment⟩
  · obtain ⟨ts, htokens, hderives⟩ := parseProgram_eq_ok_iff.1 h
    obtain ⟨us, hus, hstatement⟩ := hderives.exists_segment tree htree
    exact ⟨ts, htokens, fun part hpart => (hstatement.exists_segment part hpart).trans hus⟩

/-- What is derived from a stretch of the tokens has its place. -/
theorem Tree.DerivedIn.placedIn (h : tree.DerivedIn ts) (htokens : tokenize source = .ok ts) :
    tree.PlacedIn source ts := by
  have htiles := Lexer.tokensFrom_eq_ok_iff.1 htokens
  obtain ⟨us, hus, hderives⟩ := h
  obtain ⟨vs, hvs, hlies, hstretched⟩ := hderives.exists_liesAt (htiles.inOrder.sublist hus.sublist)
  have hsub := hvs.isInfix.trans hus
  have horder := htiles.inOrder.sublist hsub.sublist
  refine ⟨⟨vs, hsub, hlies⟩, ?_, hstretched.wellPlaced horder⟩
  obtain ⟨first, last, hfirst, hlast, hkept, -, hspan⟩ := id hstretched.span
  have hfirstMem := List.mem_of_head? hfirst
  have hwithin := (Span.IsHull.single hkept).within hstretched.span horder
    (List.singleton_sublist.2 hfirstMem)
  rw [hspan] at hwithin ⊢
  obtain ⟨before, text, after, hsource, hstart, hstop⟩ :=
    htiles.exists_slice_between (hsub.subset hfirstMem) (hsub.subset (List.mem_of_getLast? hlast))
      (Nat.le_trans (horder.forward first hfirstMem) hwithin.2)
  refine ⟨String.ofList before, String.ofList text, String.ofList after, ?_, ?_⟩
  · rw [← String.toList_inj, hsource]
    simp
  · rw [hstart, hstop, Nat.zero_add, Nat.zero_add, ← String.ofList_append, Lexer.byteLength_eq,
      Lexer.byteLength_eq]

/-- The parts of what was read are nested. -/
theorem Tree.ReadFrom.nested (h : tree.ReadFrom source) : tree.Nested := by
  obtain ⟨ts, htokens, hparts⟩ := h.exists_derivedIn
  exact fun part hpart => ((hparts part hpart).placedIn htokens).parts

end ArithLogic
