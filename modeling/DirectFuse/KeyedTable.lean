import Mathlib.Data.List.AList

/-! Tables with one entry for a key, of which some entries are dropped. -/
namespace KeyedTable

variable {α β : Type} [DecidableEq α]

abbrev Table (α β : Type) := AList fun _ : α => β

/-- The entries that are to stay. -/
def keep (q : α → β → Bool) (t : Table α β) : Table α β :=
  ⟨t.entries.filter fun e => q e.1 e.2, t.nodupKeys.sublist List.filter_sublist⟩

variable {t : Table α β} {k a : α} {v b : β}

theorem lookup_keep {q : α → β → Bool} :
    (keep q t).lookup k = some v ↔ t.lookup k = some v ∧ q k v = true := by
  rw [← Option.mem_def, ← Option.mem_def, AList.mem_lookup_iff, AList.mem_lookup_iff]
  exact List.mem_filter

theorem lookup_erase_some : (t.erase a).lookup k = some v ↔ k ≠ a ∧ t.lookup k = some v := by
  by_cases h : k = a
  · subst h
    simp
  · simp [AList.lookup_erase_ne h, h]

theorem lookup_insert_some :
    (t.insert a b).lookup k = some v ↔ k = a ∧ v = b ∨ k ≠ a ∧ t.lookup k = some v := by
  by_cases h : k = a
  · subst h
    simp [eq_comm]
  · simp [AList.lookup_insert_ne h, h]

/-- All entries are good. -/
def Every (good : α → β → Prop) (t : Table α β) : Prop := ∀ k v, t.lookup k = some v → good k v

variable {good good' : α → β → Prop}

omit [DecidableEq α] in
theorem every_empty [DecidableEq α] : Every good (∅ : Table α β) := by
  intro k v h
  rw [AList.lookup_empty] at h
  cases h

theorem Every.insert (h : Every good t) (new : good a b) : Every good (t.insert a b) := by
  intro k v found
  rcases lookup_insert_some.mp found with ⟨rfl, rfl⟩ | ⟨-, old⟩
  · exact new
  · exact h k v old

theorem Every.keep {q : α → β → Bool} (h : Every good t) : Every good (keep q t) := by
  intro k v found
  exact h k v (lookup_keep.mp found).1

end KeyedTable
