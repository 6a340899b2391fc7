import ArithLogic.Proofs.Printing.Alpha
import ArithLogic.Proofs.Printing.Text

/-!
# ArithLogic.Proofs.Printing.Retyping

What the text of a scoped expression is derived as.  Where names stand for
what they mean in the expression, or for new declarations if quantifiers bind
them, a tree that was written for the expression has its type if the names of
types in it are not captured by quantifiers (`Term.Sheltered`), and means its
term but for the declarations of bound variables (`Scoped.retype_of_sheltered`).
-/

namespace ArithLogic

/-! ## what is printed of scoped expressions -/

/-- No quantifier of the term binds the name of a type. -/
def Term.KeepsTypes : Term → Prop
  | quantifier _ name _ body =>
    name.text ≠ Ty.bool.spelling ∧ name.text ≠ Ty.int.spelling ∧ body.KeepsTypes
  | additive _ left right | relation _ left right | connective _ left right =>
    left.KeepsTypes ∧ right.KeepsTypes
  | scaling _ _ operand | sign _ operand | not operand => operand.KeepsTypes
  | id _ | bool _ | int _ | var _ _ | bind _ _ | type _ => True

/-- The name of a type that a quantifier of the term writes is none of the
shadowed names, and none that a quantifier around it binds. -/
def Term.Sheltered : Term → (shadowed : List String) → Prop
  | quantifier _ name ty body, shadowed =>
    ty.spelling ∉ shadowed ∧ body.Sheltered (name.text :: shadowed)
  | additive _ left right, shadowed | relation _ left right, shadowed
  | connective _ left right, shadowed => left.Sheltered shadowed ∧ right.Sheltered shadowed
  | scaling _ _ operand, shadowed | sign _ operand, shadowed | not operand, shadowed =>
    operand.Sheltered shadowed
  | id _, _ | bool _, _ | int _, _ | var _ _, _ | bind _ _, _ | type _, _ => True

/-- Parentheses around a tree are for reading alone. -/
theorem Term.Written.exists_core {t : Term} {tree : Tree} (h : Term.Written t tree) :
    ∃ core, Term.Written t core ∧
      (∀ opening body closing, core ≠ .enclosed opening body closing) ∧
      ∀ {origin n n' : Nat} {ns : Naming} {ty : Ty} {t' : Term},
        Types origin ns n core ty t' n' → Types origin ns n tree ty t' n' := by
  induction tree with
  | enclosed opening body closing ih =>
    cases h with
    | enclosed h =>
      obtain ⟨core, hcore, hne, hlift⟩ := ih h
      exact ⟨core, hcore, hne, fun htypes => .enclosed (hlift htypes)⟩
  | _ => exact ⟨_, h, by simp, fun htypes => htypes⟩

/-- A printed literal is derived as the number. -/
theorem Term.types_literal (origin n : Nat) (ns : Naming) {token : Token} {value : Int}
    (h : token.unplaced = Term.literalToken value) (hpos : 0 ≤ value) :
    Types origin ns n (.terminal token) .int (.int value) n := by
  have htext : token.text = toString value := congrArg Token.text h
  refine .literal (congrArg Token.kind h) ?_
  rw [htext]
  exact integer?_toString hpos

namespace Context

variable {cx : Context} {names : Resolution} {e : NodeRef} {ty : Ty} {t : Term}

/-- The text of a scoped expression can be read. -/
theorem Scoped.printable (h : cx.Scoped names e ty) (hw : cx.WellFormed)
    (ht : cx.term? e = some t) : t.Printable := by
  induction h generalizing t with
  | bool hnode =>
    rw [hw.term?_eq hnode] at ht
    cases ht
    trivial
  | int hnode hpos =>
    rw [hw.term?_eq hnode] at ht
    cases ht
    exact hpos
  | var hnode _ _ _ hword =>
    rw [hw.term?_eq hnode] at ht
    cases ht
    exact hword
  | additive hnode _ _ ihl ihr =>
    obtain ⟨tl, tr, hl, hr, rfl⟩ := hw.term?_additive hnode ht
    exact ⟨ihl hl, ihr hr⟩
  | relation hnode _ _ ihl ihr =>
    obtain ⟨tl, tr, hl, hr, rfl⟩ := hw.term?_relation hnode ht
    exact ⟨ihl hl, ihr hr⟩
  | connective hnode _ _ ihl ihr =>
    obtain ⟨tl, tr, hl, hr, rfl⟩ := hw.term?_connective hnode ht
    exact ⟨ihl hl, ihr hr⟩
  | scaling hnode hfactor hpos _ ih =>
    obtain ⟨u, ho, rfl⟩ := hw.term?_scaling hnode hfactor ht
    exact ⟨hpos, ih ho⟩
  | sign hnode _ ih =>
    obtain ⟨u, ho, rfl⟩ := hw.term?_sign hnode ht
    exact (ih ho :)
  | not hnode _ ih =>
    obtain ⟨u, ho, rfl⟩ := hw.term?_not hnode ht
    exact (ih ho :)
  | quantifier hnode hb hid _ hword _ _ _ ih =>
    obtain ⟨tb, htb, rfl⟩ := hw.term?_quantifier hnode hb hid ht
    exact ⟨hword, ih htb⟩

/-- Where no quantifier binds the name of a type, all such names are sheltered. -/
theorem Scoped.sheltered {shadowed : List String} (h : cx.Scoped names e ty) (hw : cx.WellFormed)
    (ht : cx.term? e = some t) (hkeeps : t.KeepsTypes) (hbool : Ty.bool.spelling ∉ shadowed)
    (hint : Ty.int.spelling ∉ shadowed) : t.Sheltered shadowed := by
  induction h generalizing t shadowed with
  | bool hnode | int hnode | var hnode =>
    rw [hw.term?_eq hnode] at ht
    cases ht
    trivial
  | additive hnode _ _ ihl ihr =>
    obtain ⟨tl, tr, hl, hr, rfl⟩ := hw.term?_additive hnode ht
    exact ⟨ihl hl hkeeps.1 hbool hint, ihr hr hkeeps.2 hbool hint⟩
  | relation hnode _ _ ihl ihr =>
    obtain ⟨tl, tr, hl, hr, rfl⟩ := hw.term?_relation hnode ht
    exact ⟨ihl hl hkeeps.1 hbool hint, ihr hr hkeeps.2 hbool hint⟩
  | connective hnode _ _ ihl ihr =>
    obtain ⟨tl, tr, hl, hr, rfl⟩ := hw.term?_connective hnode ht
    exact ⟨ihl hl hkeeps.1 hbool hint, ihr hr hkeeps.2 hbool hint⟩
  | scaling hnode hfactor _ _ ih =>
    obtain ⟨u, ho, rfl⟩ := hw.term?_scaling hnode hfactor ht
    exact (ih ho hkeeps hbool hint :)
  | sign hnode _ ih =>
    obtain ⟨u, ho, rfl⟩ := hw.term?_sign hnode ht
    exact (ih ho hkeeps hbool hint :)
  | not hnode _ ih =>
    obtain ⟨u, ho, rfl⟩ := hw.term?_not hnode ht
    exact (ih ho hkeeps hbool hint :)
  | @quantifier _ _ _ _ _ _ bound _ _ hnode hb hid _ _ _ hty _ ih =>
    obtain ⟨tb, htb, rfl⟩ := hw.term?_quantifier hnode hb hid ht
    obtain ⟨hnotBool, hnotInt, hkeepsBody⟩ := hkeeps
    refine ⟨?_, ih htb hkeepsBody (by simp [hnotBool.symm, hbool]) (by simp [hnotInt.symm, hint])⟩
    cases bound with
    | bool => exact hbool
    | int => exact hint
    | kind => exact absurd rfl hty

/-! ## what names stand for in the text -/

/-- Names stand for what they mean in the expression, unless the quantifiers
whose name nodes are listed declared it; then they stand for something else of
the same type.  The names of types designate the types, unless one of the
quantifiers binds them. -/
structure Follows (cx : Context) (bound : List NodeRef) (names : Resolution) (ns : Naming) :
    Prop where
  faithful : cx.Faithful names
  stands : ∀ {text d decl}, names ⟨cx.interner.origin, text⟩ = some d → cx.decl? d = some decl →
    ∃ meaning, ns text = some meaning ∧ meaning.ty = decl.ty ∧
      (meaning.decl = d ↔ ¬ ∃ id ∈ bound, cx.declares id d = true)
  types : ∀ ty, ty ≠ .kind →
    (∀ id ∈ bound, cx.symbol? id ≠ some ⟨cx.interner.origin, ty.spelling⟩) →
    ∃ d, ns ty.spelling = some ⟨d, .kind, some ty⟩

/-- The name that a quantifier binds may stand for a new declaration. -/
theorem Follows.bind {bound : List NodeRef} {ns : Naming} {text : String} {id : NodeRef}
    {d : DeclRef} {n : Nat} (h : cx.Follows bound names ns)
    (hid : cx.symbol? id = some ⟨cx.interner.origin, text⟩)
    (hd : cx.decl? d = some ⟨id, ty, none⟩) (hn : cx.decls.size ≤ n) :
    cx.Follows (id :: bound) (Resolution.bind names ⟨cx.interner.origin, text⟩ d)
      (ns.bind text ⟨n⟩ ty) where
  faithful := h.faithful.bind hid hd
  stands {other c decl} hc hdecl := by
    by_cases heq : other = text
    · subst heq
      rw [Resolution.bind, if_pos rfl] at hc
      cases hc
      cases hd.symm.trans hdecl
      refine ⟨⟨⟨n⟩, ty, none⟩, if_pos rfl, rfl, iff_of_false ?_ ?_⟩
      · -- the declaration in the expression is older
        rintro rfl
        exact absurd (index_lt_of_decl? hd) (Nat.not_lt.2 hn)
      · exact not_not_intro ⟨id, List.mem_cons_self, declares_of_decl? hd⟩
    · have hne : (⟨cx.interner.origin, other⟩ : Symbol) ≠ ⟨cx.interner.origin, text⟩ := by
        simpa using heq
      rw [Resolution.bind, if_neg hne] at hc
      obtain ⟨meaning, hmeaning, hty, hsame⟩ := h.stands hc hdecl
      refine ⟨meaning, (if_neg heq).trans hmeaning, hty, ?_⟩
      rw [hsame]
      simp [declares_eq_false hid (h.faithful _ _ hc) hne]
  types ty' hty' hfree := by
    obtain ⟨hself, hothers⟩ := List.forall_mem_cons.1 hfree
    obtain ⟨d', hd'⟩ := h.types ty' hty' hothers
    refine ⟨d', (if_neg ?_).trans hd'⟩
    rintro rfl
    exact hself hid

/-- Outside of all quantifiers names stand for what they mean. -/
theorem WellFormed.follows (h : cx.WellFormed) (hwithin : Within .initial cx)
    (hdepth : cx.depth = 1) : cx.Follows [] cx.scopes.find? cx.meaning where
  faithful _ _ hd := h.declName?_of_find? hd
  stands {text d decl} hd hdecl := by
    refine ⟨⟨d, decl.ty, decl.init.bind cx.type?⟩, ?_, rfl, by simp⟩
    simp only [meaning, h.lookup?_eq, hd, hdecl, Option.bind_eq_bind, Option.bind_some]
    rfl
  types ty hty _ := by
    -- the top environment is the only one
    obtain ⟨_, hlast, hbool, hint⟩ := h.top
    obtain ⟨env, hup⟩ := List.length_eq_one_iff.1 hdepth
    rw [hup] at hlast
    cases hlast
    have hdesignates : ∀ {d : DeclRef} {id : NodeRef}, env.find? ⟨cx.interner.origin, ty.spelling⟩ =
        some d → initial.decl? d = some ⟨id, .kind, some ty.ref⟩ →
        cx.meaning ty.spelling = some ⟨d, .kind, some ty⟩ := by
      intro d id hfind hdecl
      have hfound : cx.scopes.find? ⟨cx.interner.origin, ty.spelling⟩ = some d := by
        rw [ScopeStack.find?, hup, List.findSome?_cons, hfind]
      have htype := (h.type_iff ty.ref ty).2 rfl
      simp only [meaning, h.lookup?_eq, hfound, hwithin.decl hdecl, Option.bind_eq_bind,
        Option.bind_some, htype]
      rfl
    cases ty with
    | bool => exact ⟨⟨0⟩, hdesignates hbool rfl⟩
    | int => exact ⟨⟨1⟩, hdesignates hint rfl⟩
    | kind => exact (hty rfl).elim

/-! ## derivations of the text -/

/-- A tree that was written for a scoped expression has the type of the
expression if the names of types in it are sheltered.  The term that it means is
that of the expression, but for the declarations of bound variables. -/
theorem Scoped.retype_of_sheltered {tree : Tree} {bound : List NodeRef} {shadowed : List String}
    {ns : Naming} {n : Nat} (h : cx.Scoped names e ty) (hw : cx.WellFormed)
    (ht : cx.term? e = some t) (hwritten : Term.Written t tree) (hsheltered : t.Sheltered shadowed)
    (hbound : ∀ id ∈ bound, ∀ name, cx.symbol? id = some name → name.text ∈ shadowed)
    (hf : cx.Follows bound names ns) (hn : cx.decls.size ≤ n) :
    ∃ t' n', n ≤ n' ∧ Types cx.interner.origin ns n tree ty t' n' ∧
      t'.unresolved = t.unresolved ∧ (t' = t ↔ ¬ cx.BoundOccurs bound e) := by
  induction h generalizing t tree bound shadowed ns n with
  | bool hnode =>
    rw [hw.term?_eq hnode] at ht
    cases ht
    obtain ⟨core, hcore, hne, hlift⟩ := hwritten.exists_core
    cases hcore with
    | bool huken =>
      refine ⟨_, n, Nat.le_refl n, hlift (.truth (Term.kind_of_unplaced huken)), rfl, ?_⟩
      rw [BoundOccurs.node_iff hnode (by simp [Node.kind]) rfl]
      simp [Node.children]
    | enclosed => exact (hne _ _ _ rfl).elim
  | int hnode hpos =>
    rw [hw.term?_eq hnode] at ht
    cases ht
    obtain ⟨core, hcore, hne, hlift⟩ := hwritten.exists_core
    cases hcore with
    | int huken =>
      refine ⟨_, n, Nat.le_refl n, hlift (Term.types_literal _ _ _ huken hpos), rfl, ?_⟩
      rw [BoundOccurs.node_iff hnode (by simp [Node.kind]) rfl]
      simp [Node.children]
    | enclosed => exact (hne _ _ _ rfl).elim
  | @var names e name d decl hnode hname hdecl horigin hword =>
    rw [hw.term?_eq hnode] at ht
    cases ht
    obtain ⟨core, hcore, hne, hlift⟩ := hwritten.exists_core
    cases hcore with
    | @var _ _ token huken =>
      obtain ⟨origin, text⟩ := name
      cases horigin
      have htext : token.text = text := congrArg Token.text huken
      obtain ⟨meaning, hmeaning, hty, hsame⟩ := hf.stands hname hdecl
      rw [← htext] at hmeaning
      have htypes : Types cx.interner.origin ns n (.terminal token) meaning.ty
          (.var ⟨cx.interner.origin, token.text⟩ meaning.decl) n :=
        .name (Term.isName_of_unplaced huken hword) hmeaning
      rw [hty, htext] at htypes
      refine ⟨_, n, Nat.le_refl n, hlift htypes, rfl, ?_⟩
      rw [BoundOccurs.var_iff hnode, ← hsame]
      simp
    | enclosed => exact (hne _ _ _ rfl).elim
  | additive hnode _ _ ihl ihr =>
    obtain ⟨tl, tr, htl, htr, rfl⟩ := hw.term?_additive hnode ht
    obtain ⟨core, hcore, hne, hlift⟩ := hwritten.exists_core
    cases hcore with
    | additive huken hl hr =>
      obtain ⟨tl', n₁, hn₁, hltypes, hlsame, hlbound⟩ := ihl htl hl hsheltered.1 hbound hf hn
      obtain ⟨tr', n₂, hn₂, hrtypes, hrsame, hrbound⟩ :=
        ihr htr hr hsheltered.2 hbound hf (Nat.le_trans hn hn₁)
      refine ⟨_, n₂, Nat.le_trans hn₁ hn₂,
        hlift (.additive (Term.kind_of_unplaced huken) hltypes hrtypes), ?_, ?_⟩
      · simp only [Term.unresolved, hlsame, hrsame]
      · rw [BoundOccurs.node_iff hnode (by simp [Node.kind]) rfl]
        simp [Node.children, hlbound, hrbound]
    | enclosed => exact (hne _ _ _ rfl).elim
  | relation hnode _ _ ihl ihr =>
    obtain ⟨tl, tr, htl, htr, rfl⟩ := hw.term?_relation hnode ht
    obtain ⟨core, hcore, hne, hlift⟩ := hwritten.exists_core
    cases hcore with
    | relation huken hl hr =>
      obtain ⟨tl', n₁, hn₁, hltypes, hlsame, hlbound⟩ := ihl htl hl hsheltered.1 hbound hf hn
      obtain ⟨tr', n₂, hn₂, hrtypes, hrsame, hrbound⟩ :=
        ihr htr hr hsheltered.2 hbound hf (Nat.le_trans hn hn₁)
      refine ⟨_, n₂, Nat.le_trans hn₁ hn₂,
        hlift (.relation (Term.kind_of_unplaced huken) hltypes hrtypes), ?_, ?_⟩
      · simp only [Term.unresolved, hlsame, hrsame]
      · rw [BoundOccurs.node_iff hnode (by simp [Node.kind]) rfl]
        simp [Node.children, hlbound, hrbound]
    | enclosed => exact (hne _ _ _ rfl).elim
  | connective hnode _ _ ihl ihr =>
    obtain ⟨tl, tr, htl, htr, rfl⟩ := hw.term?_connective hnode ht
    obtain ⟨core, hcore, hne, hlift⟩ := hwritten.exists_core
    cases hcore with
    | connective huken hl hr =>
      obtain ⟨tl', n₁, hn₁, hltypes, hlsame, hlbound⟩ := ihl htl hl hsheltered.1 hbound hf hn
      obtain ⟨tr', n₂, hn₂, hrtypes, hrsame, hrbound⟩ :=
        ihr htr hr hsheltered.2 hbound hf (Nat.le_trans hn hn₁)
      refine ⟨_, n₂, Nat.le_trans hn₁ hn₂,
        hlift (.connective (Term.kind_of_unplaced huken) hltypes hrtypes), ?_, ?_⟩
      · simp only [Term.unresolved, hlsame, hrsame]
      · rw [BoundOccurs.node_iff hnode (by simp [Node.kind]) rfl]
        simp [Node.children, hlbound, hrbound]
    | enclosed => exact (hne _ _ _ rfl).elim
  | scaling hnode hfactor hpos _ ih =>
    obtain ⟨u, hu, rfl⟩ := hw.term?_scaling hnode hfactor ht
    obtain ⟨core, hcore, hne, hlift⟩ := hwritten.exists_core
    cases hcore with
    | product huken hliteral ho =>
      -- the literal is read where it is printed, on the left
      have hltypes := Term.types_literal cx.interner.origin n ns hliteral hpos
      obtain ⟨u', n', hn', hotypes, hosame, hobound⟩ := ih hu ho hsheltered hbound hf hn
      refine ⟨_, n', hn', hlift (.leftFactor (Term.kind_of_unplaced huken) hltypes hotypes
        (hltypes.literal?_eq_some_iff.2 rfl)), ?_, ?_⟩
      · simp only [Term.unresolved, hosame]
      · rw [BoundOccurs.node_iff hnode (by simp [Node.kind]) rfl]
        simp [Node.children, hobound, BoundOccurs.of_literal? hfactor]
    | quotient huken hliteral ho =>
      obtain ⟨u', n', hn', hotypes, hosame, hobound⟩ := ih hu ho hsheltered hbound hf hn
      have hrtypes := Term.types_literal cx.interner.origin n' ns hliteral hpos
      refine ⟨_, n', hn', hlift (.divisor (Term.kind_of_unplaced huken) hotypes hrtypes
        (hrtypes.literal?_eq_some_iff.2 rfl)), ?_, ?_⟩
      · simp only [Term.unresolved, hosame]
      · rw [BoundOccurs.node_iff hnode (by simp [Node.kind]) rfl]
        simp [Node.children, hobound, BoundOccurs.of_literal? hfactor]
    | enclosed => exact (hne _ _ _ rfl).elim
  | sign hnode _ ih =>
    obtain ⟨u, hu, rfl⟩ := hw.term?_sign hnode ht
    obtain ⟨core, hcore, hne, hlift⟩ := hwritten.exists_core
    cases hcore with
    | sign huken ho =>
      obtain ⟨u', n', hn', hotypes, hosame, hobound⟩ := ih hu ho hsheltered hbound hf hn
      refine ⟨_, n', hn', hlift (.sign (Term.kind_of_unplaced huken) hotypes), ?_, ?_⟩
      · simp only [Term.unresolved, hosame]
      · rw [BoundOccurs.node_iff hnode (by simp [Node.kind]) rfl]
        simp [Node.children, hobound]
    | enclosed => exact (hne _ _ _ rfl).elim
  | not hnode _ ih =>
    obtain ⟨u, hu, rfl⟩ := hw.term?_not hnode ht
    obtain ⟨core, hcore, hne, hlift⟩ := hwritten.exists_core
    cases hcore with
    | not huken ho =>
      obtain ⟨u', n', hn', hotypes, hosame, hobound⟩ := ih hu ho hsheltered hbound hf hn
      refine ⟨_, n', hn', hlift (.not (Term.kind_of_unplaced huken) hotypes), ?_, ?_⟩
      · simp only [Term.unresolved, hosame]
      · rw [BoundOccurs.node_iff hnode (by simp [Node.kind]) rfl]
        simp [Node.children, hobound]
    | enclosed => exact (hne _ _ _ rfl).elim
  | @quantifier names e b id body q ty name d hnode hb hid horigin hword hd hty _ ih =>
    obtain ⟨tb, htb, rfl⟩ := hw.term?_quantifier hnode hb hid ht
    obtain ⟨core, hcore, hne, hlift⟩ := hwritten.exists_core
    cases hcore with
    | @quantifier _ _ _ _ _ _ token type _ huken hcolon hname htype hbody =>
      obtain ⟨origin, text⟩ := name
      cases horigin
      have htext : token.text = text := congrArg Token.text hname
      have htypeText : type.text = ty.spelling := congrArg Token.text htype
      obtain ⟨hfree, hinner⟩ := hsheltered
      have hnotBound : ∀ id ∈ bound, cx.symbol? id ≠ some ⟨cx.interner.origin, ty.spelling⟩ :=
        fun id hmem hsymbol => hfree (hbound id hmem _ hsymbol)
      obtain ⟨dt, hdt⟩ := hf.types ty hty hnotBound
      have hdesignates : ns.Designates (.terminal type) ty :=
        ⟨type, ⟨dt, .kind, some ty⟩, rfl, Term.isName_of_unplaced htype (Ty.isName_spelling hty),
          htypeText ▸ hdt, rfl, rfl⟩
      have hboundInner : ∀ i ∈ id :: bound, ∀ name, cx.symbol? i = some name →
          name.text ∈ text :: shadowed := by
        refine List.forall_mem_cons.2 ⟨fun name hname => ?_, fun i hmem name hname =>
          List.mem_cons_of_mem _ (hbound i hmem name hname)⟩
        cases hid.symm.trans hname
        exact List.mem_cons_self
      obtain ⟨tb', n', hn', hbtypes, hbsame, hbbound⟩ := ih htb hbody hinner hboundInner
        (hf.bind hid hd hn) (Nat.le_succ_of_le hn)
      rw [← htext] at hbtypes
      have htypes := Types.quantifier (Term.kind_of_unplaced huken) (Term.kind_of_unplaced hcolon)
        (Term.isName_of_unplaced hname hword) hdesignates hbtypes
      rw [htext] at htypes
      refine ⟨_, n', Nat.le_of_succ_le hn', hlift htypes, ?_, ?_⟩
      · simp only [Term.unresolved, hbsame]
      · rw [BoundOccurs.quantifier_iff hnode hb hid, ← hbbound]
        simp
    | enclosed => exact (hne _ _ _ rfl).elim

/-- In particular a tree has the type of the expression if no quantifier binds the
name of a type. -/
theorem Scoped.retype {tree : Tree} {ns : Naming} {n : Nat} (h : cx.Scoped names e ty)
    (hw : cx.WellFormed) (ht : cx.term? e = some t) (hwritten : Term.Written t tree)
    (hkeeps : t.KeepsTypes) (hf : cx.Follows [] names ns) (hn : cx.decls.size ≤ n) :
    ∃ t' n', n ≤ n' ∧ Types cx.interner.origin ns n tree ty t' n' ∧
      t'.unresolved = t.unresolved ∧ (t' = t ↔ ¬ cx.BoundOccurs [] e) := by
  have hsheltered : t.Sheltered [] :=
    h.sheltered hw ht hkeeps (List.not_mem_nil) (List.not_mem_nil)
  exact h.retype_of_sheltered hw ht hwritten hsheltered (fun _ hmem => nomatch hmem) hf hn

end Context

end ArithLogic
