/-!
# ArithLogic.Symbol

Interned names.  An interner keeps each spelling once and hands out a symbol
for it.  Symbols of one interner are equal exactly when their spellings are
(`intern_eq_iff`), and a symbol of one interner never equals one of another.
-/

namespace ArithLogic

/-- A name as an interner hands it out: the spelling, and which interner it
comes from. -/
structure Symbol where
  origin : Nat
  text : String
  deriving DecidableEq

/-- The distinct spellings seen so far, latest first, under the number that
tells this interner from others. -/
structure Interner where
  origin : Nat
  texts : List String
  deriving DecidableEq

namespace Interner

/-- An interner that has seen nothing. -/
def empty (origin : Nat) : Interner := ⟨origin, []⟩

/-- The number of distinct spellings. -/
def size (table : Interner) : Nat := table.texts.length

/-- The symbol of a spelling, which is remembered from now on. -/
def intern (table : Interner) (text : String) : Symbol × Interner :=
  (⟨table.origin, text⟩,
    if text ∈ table.texts then table else { table with texts := text :: table.texts })

/-- The symbol of a spelling that was interned before. -/
def find? (table : Interner) (text : String) : Option Symbol :=
  if text ∈ table.texts then some ⟨table.origin, text⟩ else none

@[simp] theorem origin_intern (table : Interner) (text : String) :
    (table.intern text).2.origin = table.origin := by
  simp only [intern]; split <;> rfl

@[simp] theorem mem_intern {table : Interner} {text other : String} :
    other ∈ (table.intern text).2.texts ↔ other = text ∨ other ∈ table.texts := by
  simp only [intern]
  split
  · next h => exact ⟨.inr, fun h' => h'.elim (fun heq => heq ▸ h) id⟩
  · simp

theorem find?_eq_some_iff {table : Interner} {text : String} {symbol : Symbol} :
    table.find? text = some symbol ↔ text ∈ table.texts ∧ symbol = ⟨table.origin, text⟩ := by
  simp only [find?]
  split <;> simp_all [eq_comm]

/-- Interning keeps every spelling once. -/
theorem nodup_intern {table : Interner} (h : table.texts.Nodup) (text : String) :
    (table.intern text).2.texts.Nodup := by
  simp only [intern]
  split
  · exact h
  · next hnew => exact List.nodup_cons.2 ⟨hnew, h⟩

/-- Two symbols of one interner are equal exactly when their spellings are. -/
theorem intern_eq_iff (table later : Interner) (a b : String) (h : later.origin = table.origin) :
    (table.intern a).1 = (later.intern b).1 ↔ a = b := by
  simp [intern, h]

end Interner

end ArithLogic
