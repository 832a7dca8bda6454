/-!
# Tables

A `Table` maps names to values. It is a list of pairs in which the first pair of a name counts;
`insert` and `erase` keep one pair a name. The order of the pairs is not part of the meaning:
`get?` is the view, and each operation has a lemma for it.
-/

namespace DependentCore

variable {α : Type}

/-- A finite map from names to values. -/
abbrev Table (α : Type) := List (String × α)

/-- The value of a name. -/
def Table.get? : Table α → String → Option α
  | [], _ => none
  | (key, a) :: rest, name => if key = name then some a else get? rest name

/-- The table without a name. -/
def Table.erase (t : Table α) (name : String) : Table α :=
  t.filter fun entry => entry.1 ≠ name

/-- The table in which a name has the given value. -/
def Table.insert (t : Table α) (name : String) (a : α) : Table α :=
  (name, a) :: t.erase name

@[simp]
theorem Table.get?_nil (name : String) : Table.get? ([] : Table α) name = none :=
  rfl

/-- Erasing a name removes its value and keeps all others. -/
@[simp]
theorem Table.get?_erase (t : Table α) (name other : String) :
    (t.erase name).get? other = if other = name then none else t.get? other := by
  induction t with
  | nil => simp [Table.erase]
  | cons entry rest ih =>
    obtain ⟨key, a⟩ := entry
    simp only [Table.erase, List.filter_cons] at ih ⊢
    by_cases hkey : key = name
    · subst hkey
      by_cases ho : other = key
      · simpa [ho] using ih
      · simpa [Table.get?, ho, Ne.symm ho] using ih
    · by_cases ho : other = name
      · subst ho
        simpa [Table.get?, hkey] using ih
      · by_cases hk : key = other
        · simp [Table.get?, hk, ho]
        · simpa [Table.get?, hkey, hk, ho] using ih

/-- Inserting a name gives it the value and keeps all others. -/
@[simp]
theorem Table.get?_insert (t : Table α) (name other : String) (a : α) :
    (t.insert name a).get? other = if other = name then some a else t.get? other := by
  by_cases h : other = name
  · simp [Table.insert, Table.get?, h]
  · simp [Table.insert, Table.get?, h, Ne.symm h]

/-- Erasing a name that is not in the table changes nothing. -/
theorem Table.erase_eq_self (t : Table α) (name : String) (h : t.get? name = none) :
    t.erase name = t := by
  induction t with
  | nil => rfl
  | cons entry rest ih =>
    obtain ⟨key, a⟩ := entry
    by_cases hkey : key = name
    · simp [Table.get?, hkey] at h
    · have hrest : Table.get? rest name = none := by simpa [Table.get?, hkey] using h
      have herase := ih hrest
      simp only [Table.erase] at herase ⊢
      rw [List.filter_cons_of_pos (by simpa using hkey), herase]

/-- Erasing a name that was just inserted leaves the table without the name. -/
@[simp]
theorem Table.erase_insert (t : Table α) (name : String) (a : α) :
    (t.insert name a).erase name = t.erase name := by
  simp [Table.insert, Table.erase]

end DependentCore
