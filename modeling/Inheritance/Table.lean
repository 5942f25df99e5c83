import Inheritance.Fingerprint

/-! Tables hold values by fingerprint, one under each. -/
namespace Inheritance

structure Table (α : Type) where
  entries : List (Fingerprint × α)
  distinct : (entries.map Prod.fst).Nodup
  deriving DecidableEq

namespace Table

variable {α : Type} {t : Table α} {h k : Fingerprint} {a b : α}

instance : EmptyCollection (Table α) := ⟨⟨[], .nil⟩⟩

def find? (t : Table α) (h : Fingerprint) : Option α := (t.entries.find? (·.1 = h)).map Prod.snd

def contains (t : Table α) (h : Fingerprint) : Bool := (t.find? h).isSome

def values (t : Table α) : List α := t.entries.map Prod.snd

/-- Stores a value. What was there under the same fingerprint is replaced. -/
def insert (t : Table α) (h : Fingerprint) (a : α) : Table α where
  entries := t.entries.filter (·.1 ≠ h) ++ [(h, a)]
  distinct := by
    have others : ((t.entries.filter (·.1 ≠ h)).map Prod.fst).Nodup := t.distinct.sublist (List.filter_sublist.map _)
    rw [List.map_append, List.nodup_append]
    refine ⟨others, by simp, ?_⟩
    simp

theorem contains_iff : t.contains h = true ↔ h ∈ t.entries.map Prod.fst := by
  simp [contains, find?]

theorem contains_of_find? (found : t.find? h = some a) : t.contains h = true := Option.isSome_of_eq_some found

theorem find?_insert : (t.insert h a).find? k = if k = h then some a else t.find? k := by
  unfold find? insert
  rw [List.find?_append]
  by_cases same : k = h
  · subst same
    have absent : (t.entries.filter (·.1 ≠ k)).find? (·.1 = k) = none := by
      apply List.find?_eq_none.mpr
      intro entry member
      simpa using (List.mem_filter.mp member).2
    rw [absent]
    simp
  · have others : (t.entries.filter (·.1 ≠ h)).find? (·.1 = k) = t.entries.find? (·.1 = k) := by
      rw [List.find?_filter]
      congr 1
      funext entry
      by_cases here : entry.1 = k <;> simp [here, same]
    rw [others]
    simp [same, Ne.symm same]

theorem find?_insert_eq_some (found : (t.insert h a).find? k = some b) : k = h ∧ b = a ∨ t.find? k = some b := by
  rw [find?_insert] at found
  by_cases same : k = h
  · exact .inl ⟨same, by simpa [same, eq_comm] using found⟩
  · exact .inr (by simpa [same] using found)

theorem find?_insert_of_new (new : t.contains h = false) (found : t.find? k = some b) :
    (t.insert h a).find? k = some b := by
  have apart : k ≠ h := by
    rintro rfl
    simp [contains, found] at new
  rw [find?_insert, if_neg apart, found]

theorem contains_insert : (t.insert h a).contains k = (decide (k = h) || t.contains k) := by
  rw [contains, contains, find?_insert]
  by_cases same : k = h <;> simp [same]

theorem entries_insert_of_new (new : t.contains h = false) : (t.insert h a).entries = t.entries ++ [(h, a)] := by
  have absent : h ∉ t.entries.map Prod.fst := by simp [← contains_iff, new]
  have all : t.entries.filter (·.1 ≠ h) = t.entries := by
    apply List.filter_eq_self.mpr
    intro entry member
    have other : entry.1 ≠ h := fun same => absent (same ▸ List.mem_map_of_mem member)
    simpa using other
  exact congrArg (· ++ [(h, a)]) all

end Table

end Inheritance
