import ArithLogic.Proofs.Context.Renumbering
import ArithLogic.Proofs.NormalForm.Agreement

/-!
# ArithLogic.Proofs.NormalForm.Abreast

Normal form in two contexts of which one is embedded in the other.  A node is
used again in the one exactly if it is in the other, so the handles that come
out correspond, and the contexts stay embedded (`Context.Embeds.normalize`).
-/

namespace ArithLogic

variable {ρ : Renumbering} {cx big last : Context} {old e e' : NodeRef} {node : Node NodeRef}
  {negated : Bool}

/-! ## the course in both contexts -/

namespace Context.Embeds

variable (h : cx.Embeds ρ big)
include h

theorem stays (hstays : cx.Stays negated node) : big.Stays negated (node.renumber ρ) := by
  cases node with
  | var name d =>
    intro hnegated decl hdecl
    rw [h.decl] at hdecl
    obtain ⟨found, hfound, rfl⟩ := Option.map_eq_some_iff.1 hdecl
    exact hstays hnegated found hfound
  | _ => exact hstays

theorem namesFormula (hname : cx.NamesFormula node) : big.NamesFormula (node.renumber ρ) := by
  cases node with
  | var name d =>
    obtain ⟨decl, hdecl, hty⟩ := hname
    exact ⟨_, h.decl_some hdecl, hty⟩
  | _ => exact hname

/-- The same two connectives and a third one over them are appended to both. -/
theorem addConnectives (inner outer : Connective) (a b c d : NodeRef) :
    (((cx.add (.connective inner a b)).2.add (.connective inner c d)).2.add
      (.connective outer ⟨cx.size⟩ ⟨cx.size + 1⟩)).2.Embeds ρ
    (((big.add (.connective inner (ρ.node a) (ρ.node b))).2.add
      (.connective inner (ρ.node c) (ρ.node d))).2.add
      (.connective outer ⟨big.size⟩ ⟨big.size + 1⟩)).2 := by
  have hboth := (h.add (.connective inner a b)).add (.connective inner c d)
  rw [← h.node_size, ← h.node_size_add 1]
  exact hboth.add (.connective outer ⟨cx.size⟩ ⟨cx.size + 1⟩)

end Context.Embeds

/-- A node settles in corresponding places. -/
theorem Settles.embeds (h : Settles cx old node e' last) (hcx : cx.Embeds ρ big) :
    ∃ bigLast, Settles big (ρ.node old) (node.renumber ρ) (ρ.node e') bigLast ∧
      last.Embeds ρ bigLast := by
  cases h with
  | reused hnode => exact ⟨big, .reused (hcx.node_some hnode), hcx⟩
  | added hother =>
    rw [hcx.node_size]
    exact ⟨_, .added (mt hcx.node_eq_some_iff.1 hother), hcx.add node⟩

/-- The course of the one context is one of the other as well. -/
theorem Normalizes.embeds (h : Normalizes cx e negated e' last) (hcx : cx.Embeds ρ big) :
    ∃ bigLast, Normalizes big (ρ.node e) negated (ρ.node e') bigLast ∧ last.Embeds ρ bigLast := by
  induction h generalizing big with
  | kept hnode hstays => exact ⟨big, .kept (hcx.node_some hnode) (hcx.stays hstays), hcx⟩
  | truth hnode =>
    rw [hcx.node_size]
    exact ⟨_, .truth (hcx.node_some hnode), hcx.add (.bool _)⟩
  | name hnode hname =>
    rw [hcx.node_size]
    exact ⟨_, .name (hcx.node_some hnode) (hcx.namesFormula hname), hcx.add (.not _)⟩
  | additive hnode _ _ hsettles iha ihb =>
    obtain ⟨big₁, ha, h₁⟩ := iha hcx
    obtain ⟨big₂, hb, h₂⟩ := ihb h₁
    obtain ⟨bigLast, hbigSettles, hlast⟩ := hsettles.embeds h₂
    exact ⟨bigLast, .additive (hcx.node_some hnode) ha hb hbigSettles, hlast⟩
  | scaling hnode _ hsettles iha =>
    obtain ⟨big₁, ha, h₁⟩ := iha hcx
    obtain ⟨bigLast, hbigSettles, hlast⟩ := hsettles.embeds h₁
    exact ⟨bigLast, .scaling (hcx.node_some hnode) ha hbigSettles, hlast⟩
  | sign hnode _ hsettles iha =>
    obtain ⟨big₁, ha, h₁⟩ := iha hcx
    obtain ⟨bigLast, hbigSettles, hlast⟩ := hsettles.embeds h₁
    exact ⟨bigLast, .sign (hcx.node_some hnode) ha hbigSettles, hlast⟩
  | relation hnode _ _ hsettles iha ihb =>
    obtain ⟨big₁, ha, h₁⟩ := iha hcx
    obtain ⟨big₂, hb, h₂⟩ := ihb h₁
    obtain ⟨bigLast, hbigSettles, hlast⟩ := hsettles.embeds h₂
    exact ⟨bigLast, .relation (hcx.node_some hnode) ha hb hbigSettles, hlast⟩
  | junction hnode hop _ _ hsettles iha ihb =>
    obtain ⟨big₁, ha, h₁⟩ := iha hcx
    obtain ⟨big₂, hb, h₂⟩ := ihb h₁
    obtain ⟨bigLast, hbigSettles, hlast⟩ := hsettles.embeds h₂
    exact ⟨bigLast, .junction (hcx.node_some hnode) hop ha hb hbigSettles, hlast⟩
  | implication hnode _ _ iha ihb =>
    obtain ⟨big₁, ha, h₁⟩ := iha hcx
    obtain ⟨big₂, hb, h₂⟩ := ihb h₁
    rw [h₂.node_size]
    exact ⟨_, .implication (hcx.node_some hnode) ha hb, h₂.add (.connective _ _ _)⟩
  | equivalence hnode _ _ _ _ ihpa ihna ihpb ihnb =>
    obtain ⟨big₁, hpa, h₁⟩ := ihpa hcx
    obtain ⟨big₂, hna, h₂⟩ := ihna h₁
    obtain ⟨big₃, hpb, h₃⟩ := ihpb h₂
    obtain ⟨big₄, hnb, h₄⟩ := ihnb h₃
    rw [h₄.node_size_add 2]
    exact ⟨_, .equivalence (hcx.node_some hnode) hpa hna hpb hnb, h₄.addConnectives ..⟩
  | difference hnode _ _ _ _ ihpa ihna ihpb ihnb =>
    obtain ⟨big₁, hpa, h₁⟩ := ihpa hcx
    obtain ⟨big₂, hna, h₂⟩ := ihna h₁
    obtain ⟨big₃, hpb, h₃⟩ := ihpb h₂
    obtain ⟨big₄, hnb, h₄⟩ := ihnb h₃
    rw [h₄.node_size_add 2]
    exact ⟨_, .difference (hcx.node_some hnode) hpa hna hpb hnb, h₄.addConnectives ..⟩
  | not hnode _ ih =>
    obtain ⟨bigLast, ha, hlast⟩ := ih hcx
    exact ⟨bigLast, .not (hcx.node_some hnode) ha, hlast⟩
  | quantifier hnode _ hsettles ih =>
    obtain ⟨big₁, hbody, h₁⟩ := ih hcx
    obtain ⟨bigLast, hbigSettles, hlast⟩ := hsettles.embeds h₁
    exact ⟨bigLast, .quantifier (hcx.node_some hnode) hbody hbigSettles, hlast⟩

/-! ## the program in both contexts -/

/-- Brought into normal form in both contexts, an expression comes out under
corresponding handles, and the one context is still embedded in the other. -/
theorem Context.Embeds.normalize {s bigS : Session} (h : s.context.Embeds ρ bigS.context)
    (hw : s.context.WellFormed) (hbig : bigS.context.WellFormed) (he : e.index < s.context.size)
    (negated : Bool) :
    ∃ e' s' bigS', Action.normalize e negated s = .ok (e', s') ∧
      Action.normalize (ρ.node e) negated bigS = .ok (ρ.node e', bigS') ∧
      s'.context.Embeds ρ bigS'.context := by
  obtain ⟨e', s', hrun, hcourse⟩ := follows_normalize hw he negated
  obtain ⟨found, bigS', hbigRun, hfound⟩ := follows_normalize hbig (h.index_lt he) negated
  obtain ⟨bigLast, hbigCourse, hlast⟩ := hcourse.embeds h
  -- the program takes the one course that there is
  obtain ⟨rfl, hsame⟩ := hfound.unique hbigCourse
  exact ⟨e', s', bigS', hrun, hbigRun, hsame ▸ hlast⟩

end ArithLogic
