/-!
# ArithLogic.Proofs.Bracketing

Lists in which brackets open and close.  Brackets are written with the depth at
which they stand; within a pair it is one more than around it.  In a balanced list
every bracket is one of a pair (`Brackets.Balanced`), so whoever reads along and
counts finds at each place the depth that is written there
(`Brackets.Leads.exists_at`).
-/

namespace ArithLogic

/-- A sort of brackets: how the two of a pair are written at some depth, and what
else there is. -/
structure Brackets (α : Type) where
  opening : (depth : Nat) → α
  closing : (depth : Nat) → α
  Other : α → Prop

namespace Brackets

variable {α β : Type}

/-- From this depth on, every bracket of the list is one of a pair. -/
inductive Balanced (b : Brackets α) : (depth : Nat) → List α → Prop
  | nil {depth : Nat} : Balanced b depth []
  | other {depth : Nat} {a : α} {as : List α} :
      b.Other a → Balanced b depth as → Balanced b depth (a :: as)
  | pair {depth : Nat} {inside behind : List α} :
      Balanced b (depth + 1) inside → Balanced b depth behind →
      Balanced b depth (b.opening depth :: (inside ++ b.closing depth :: behind))

/-- Reading the list, which begins at the one depth, leads to the other. -/
inductive Leads (b : Brackets α) : Nat → List α → Nat → Prop
  | nil {depth : Nat} : Leads b depth [] depth
  | other {depth last : Nat} {a : α} {as : List α} :
      b.Other a → Leads b depth as last → Leads b depth (a :: as) last
  | opening {depth last : Nat} {as : List α} :
      Leads b (depth + 1) as last → Leads b depth (b.opening depth :: as) last
  | closing {depth last : Nat} {as : List α} :
      Leads b depth as last → Leads b (depth + 1) (b.closing depth :: as) last

/-- What can stand in a list where the depth is `depth`. -/
def Fits (b : Brackets α) (depth : Nat) (a : α) : Prop :=
  b.Other a ∨ a = b.opening depth ∨ ∃ outer, depth = outer + 1 ∧ a = b.closing outer

variable {b : Brackets α} {c : Brackets β} {depth mid last : Nat} {as behind : List α} {a : α}

namespace Balanced

theorem one (h : b.Other a) : b.Balanced depth [a] := .other h .nil

/-- One pair around the list. -/
theorem enclosed (h : b.Balanced (depth + 1) as) :
    b.Balanced depth (b.opening depth :: (as ++ [b.closing depth])) :=
  .pair h .nil

theorem append (h : b.Balanced depth as) (h' : b.Balanced depth behind) :
    b.Balanced depth (as ++ behind) := by
  induction h with
  | nil => exact h'
  | other ha _ ih => exact .other ha (ih h')
  | pair hinside _ _ ih =>
    rw [List.cons_append, List.append_assoc, List.cons_append]
    exact .pair hinside (ih h')

end Balanced

theorem Leads.append (h : b.Leads depth as mid) (h' : b.Leads mid behind last) :
    b.Leads depth (as ++ behind) last := by
  induction h with
  | nil => exact h'
  | other ha _ ih => exact .other ha (ih h')
  | opening _ ih => exact .opening (ih h')
  | closing _ ih => exact .closing (ih h')

/-- A balanced list ends at the depth at which it begins. -/
theorem Balanced.leads (h : b.Balanced depth as) : b.Leads depth as depth := by
  induction h with
  | nil => exact .nil
  | other ha _ ih => exact .other ha ih
  | pair _ _ ihinside ihbehind => exact .opening (ihinside.append (.closing ihbehind))

/-- At each place of the list stands what fits the depth that is reached there. -/
theorem Leads.exists_at {before : List α} (h : b.Leads depth (before ++ a :: behind) last) :
    ∃ here, b.Leads depth before here ∧ b.Fits here a := by
  induction before generalizing depth with
  | nil =>
    cases h with
    | other ha => exact ⟨_, .nil, .inl ha⟩
    | opening => exact ⟨_, .nil, .inr (.inl rfl)⟩
    | closing => exact ⟨_, .nil, .inr (.inr ⟨_, rfl, rfl⟩)⟩
  | cons first before ih =>
    cases h with
    | other ha h =>
      obtain ⟨here, hbefore, hfits⟩ := ih h
      exact ⟨here, .other ha hbefore, hfits⟩
    | opening h =>
      obtain ⟨here, hbefore, hfits⟩ := ih h
      exact ⟨here, .opening hbefore, hfits⟩
    | closing h =>
      obtain ⟨here, hbefore, hfits⟩ := ih h
      exact ⟨here, .closing hbefore, hfits⟩

/-- What is in a list that is read fits some depth. -/
theorem Leads.fits_of_mem (h : b.Leads depth as last) (ha : a ∈ as) : ∃ here, b.Fits here a := by
  obtain ⟨before, behind, rfl⟩ := List.append_of_mem ha
  obtain ⟨here, -, hfits⟩ := h.exists_at
  exact ⟨here, hfits⟩

/-! ## one sort written as another -/

/-- Brackets of the one sort are written as those of the other, and everything else
without any. -/
structure Writes (b : Brackets α) (c : Brackets β) (write : α → List β) : Prop where
  opening : ∀ depth, write (b.opening depth) = [c.opening depth]
  closing : ∀ depth, write (b.closing depth) = [c.closing depth]
  other : ∀ a, b.Other a → ∀ x ∈ write a, c.Other x

section Writes

variable {write : α → List β}

/-- A list without brackets is balanced at any depth. -/
theorem balanced_of_forall {xs : List β} (h : ∀ x ∈ xs, c.Other x) : c.Balanced depth xs := by
  induction xs with
  | nil => exact .nil
  | cons x xs ih =>
    rw [List.forall_mem_cons] at h
    exact .other h.1 (ih h.2)

theorem Balanced.flatMap (h : b.Balanced depth as) (hwrites : b.Writes c write) :
    c.Balanced depth (as.flatMap write) := by
  induction h with
  | nil => exact .nil
  | other ha _ ih => exact (balanced_of_forall (hwrites.other _ ha)).append ih
  | pair _ _ ihinside ihbehind =>
    simp only [List.flatMap_cons, List.flatMap_append, hwrites.opening, hwrites.closing,
      List.singleton_append]
    exact .pair ihinside ihbehind

theorem Leads.flatMap (h : b.Leads depth as last) (hwrites : b.Writes c write) :
    c.Leads depth (as.flatMap write) last := by
  induction h with
  | nil => exact .nil
  | @other depth _ a _ ha _ ih =>
    have hother : c.Balanced depth (write a) := balanced_of_forall (hwrites.other a ha)
    exact hother.leads.append ih
  | opening _ ih =>
    rw [List.flatMap_cons, hwrites.opening, List.singleton_append]
    exact .opening ih
  | closing _ ih =>
    rw [List.flatMap_cons, hwrites.closing, List.singleton_append]
    exact .closing ih

end Writes

end Brackets

end ArithLogic
