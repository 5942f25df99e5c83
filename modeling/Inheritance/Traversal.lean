/-! Walks over a finite graph. A walk may enter the vertices that are still fresh. `reach` goes outwards
level by level. `finish` goes depth first and lists each vertex behind its neighbours, unless it meets a
cycle or a vertex that it knows nothing of. -/

namespace Inheritance.Traversal

section

variable {α : Type} [DecidableEq α] (next : α → List α)

def without (fresh found : List α) : List α := fresh.filter (· ∉ found)

/-- The fresh neighbours of a vertex, each once. -/
def step (fresh : List α) (u : α) : List α := ((next u).filter (· ∈ fresh)).eraseDups

theorem mem_step {fresh : List α} {u v : α} : v ∈ step next fresh u ↔ v ∈ fresh ∧ v ∈ next u := by
  simp [step, and_comm]

/-- The fresh vertices one step from the frontier, each in the place where it is first met. -/
def level (fresh : List α) : List α → List α
  | [] => []
  | u :: frontier =>
    let near := step next fresh u
    near ++ level (without fresh near) frontier

theorem mem_fresh_of_mem_level {fresh frontier : List α} {v : α} (h : v ∈ level next fresh frontier) :
    v ∈ fresh := by
  induction frontier generalizing fresh with
  | nil => simp [level] at h
  | cons u frontier ih =>
    rcases List.mem_append.mp h with h | h
    · exact ((mem_step next).mp h).1
    · exact (List.mem_filter.mp (ih h)).1

theorem length_without_lt {fresh frontier : List α} (h : level next fresh frontier ≠ []) :
    (without fresh (level next fresh frontier)).length < fresh.length := by
  obtain ⟨v, hv⟩ := List.exists_mem_of_ne_nil _ h
  exact List.length_filter_lt_length_iff_exists.mpr
    ⟨v, mem_fresh_of_mem_level next hv, by simpa using hv⟩

/-- The fresh vertices in reach of a frontier by one step or more, nearest first. -/
def reach (fresh frontier : List α) : List α :=
  let found := level next fresh frontier
  if _ : found = [] then [] else found ++ reach (without fresh found) found
termination_by fresh.length
decreasing_by exact length_without_lt next ‹_›

end

theorem length_erase_lt {α : Type} [DecidableEq α] {fresh : List α} {v : α} (h : v ∈ fresh) :
    (fresh.erase v).length < fresh.length := by
  have := List.length_pos_of_mem h
  rw [List.length_erase_of_mem h]
  omega

section

variable {α ε : Type} [DecidableEq α] (next : α → Except ε (List α)) (cycle : α → ε)

/-- Goes depth first from a vertex and appends to `finished` each vertex that is left for good. The vertices
on the path are those that are no longer fresh. To meet one of them again is an error, and so is a vertex
whose neighbours are not known. -/
def finish (fresh finished : List α) (v : α) : Except ε (List α) :=
  match next v with
  | .error e => .error e
  | .ok near =>
    if v ∈ finished then .ok finished
    else if _ : v ∈ fresh then do
      let finished ← near.foldlM (finish (fresh.erase v)) finished
      return finished ++ [v]
    else .error (cycle v)
termination_by fresh.length
decreasing_by exact length_erase_lt ‹_›

theorem finish_of_known {fresh finished near : List α} {v : α} (known : next v = .ok near) :
    finish next cycle fresh finished v =
      if v ∈ finished then .ok finished
      else if v ∈ fresh then do
        let finished ← near.foldlM (finish next cycle (fresh.erase v)) finished
        return finished ++ [v]
      else .error (cycle v) := by
  rw [finish]
  simp only [known, dite_eq_ite]

/-- An order of all vertices in which each stands behind its neighbours. -/
def order (vertices : List α) : Except ε (List α) :=
  vertices.foldlM (finish next cycle vertices) []

end

end Inheritance.Traversal
