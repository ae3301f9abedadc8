/-!
# Finite tables

A table holds at most one value per key. Entries are kept newest first, so that reading a table
back in the order of its keys is a separate step, `Table.sorted`.
-/

namespace TraceLogic

/-- A finite map from keys to values. -/
structure Table (κ α : Type) where
  /-- The entries, the newest first. -/
  entries : List (κ × α) := []

namespace Table

variable {κ α : Type} [DecidableEq κ]

/-- The table without entries. -/
def empty : Table κ α := {}

instance : Inhabited (Table κ α) := ⟨empty⟩

/-- The value stored for a key. -/
def get? (t : Table κ α) (k : κ) : Option α :=
  (t.entries.find? (fun e => e.1 = k)).map (·.2)

/-- The table without the key's entry. -/
def erase (t : Table κ α) (k : κ) : Table κ α :=
  ⟨t.entries.filter (fun e => e.1 ≠ k)⟩

/-- Stores a value for a key, in place of the value stored before. -/
def insert (t : Table κ α) (k : κ) (a : α) : Table κ α :=
  ⟨(k, a) :: (t.erase k).entries⟩

/-- The entries in ascending order of their keys. -/
def sorted [LE κ] [DecidableRel (fun a b : κ => a ≤ b)] (t : Table κ α) : List (κ × α) :=
  t.entries.mergeSort (fun a b => decide (a.1 ≤ b.1))

/-- Nothing is stored in the empty table. -/
@[simp]
theorem get?_empty (k : κ) : (empty : Table κ α).get? k = none := rfl

/-- A key that has just been inserted has its new value. -/
@[simp]
theorem get?_insert_self (t : Table κ α) (k : κ) (a : α) : (t.insert k a).get? k = some a := by
  simp [get?, insert]

/-- A key that has been erased has no value any more. -/
@[simp]
theorem get?_erase_self (t : Table κ α) (k : κ) : (t.erase k).get? k = none := by
  simp [get?, erase, List.find?_eq_none]

/-- Erasing a key leaves the values of all other keys. -/
theorem get?_erase_of_ne (t : Table κ α) {k l : κ} (h : l ≠ k) :
    (t.erase k).get? l = t.get? l := by
  obtain ⟨entries⟩ := t
  induction entries with
  | nil => rfl
  | cons e rest ih =>
    simp only [get?, erase] at ih ⊢
    by_cases hk : e.1 = k
    · have hl : e.1 ≠ l := fun hel => h (hel ▸ hk)
      simpa [hk, hl, h.symm] using ih
    · by_cases hl : e.1 = l
      · simp [hl, h]
      · simpa [hk, hl] using ih

/-- Inserting a key leaves the values of all other keys. -/
theorem get?_insert_of_ne (t : Table κ α) {k l : κ} (a : α) (h : l ≠ k) :
    (t.insert k a).get? l = t.get? l := by
  rw [← get?_erase_of_ne t h]
  simp [get?, insert, h.symm]

end Table

end TraceLogic
