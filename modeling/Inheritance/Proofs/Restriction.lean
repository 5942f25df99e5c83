import Inheritance.Traversal
import Inheritance.Proofs.Sequencing

/-! A depth first walk that leaves vertices out. If no vertex that is left out has a neighbour that is kept,
the walk over the kept vertices lists them in the order in which the whole walk does. -/
namespace Inheritance.Traversal

section

variable {α ε : Type} {keep : α → Bool} {finished vertices l : List α}

theorem filter_of_foldlM {walk : List α → α → Except ε (List α)}
    (skips : ∀ {finished l : List α} (v : α), v ∈ vertices → walk finished v = .ok l →
      l.filter keep = finished.filter keep)
    (ok : vertices.foldlM walk finished = .ok l) : l.filter keep = finished.filter keep := by
  induction vertices generalizing finished with
  | nil =>
    obtain rfl := Except.ok.inj ok
    rfl
  | cons v rest ih =>
    rw [List.foldlM_cons] at ok
    obtain ⟨m, first, ok⟩ := bind_eq_ok_iff.mp ok
    rw [ih (fun u here => skips u (List.mem_cons_of_mem _ here)) ok, skips v List.mem_cons_self first]

theorem foldlM_filter {walk kept : List α → α → Except ε (List α)}
    (goes : ∀ {finished l : List α} (v : α), keep v = true → walk finished v = .ok l →
      kept (finished.filter keep) v = .ok (l.filter keep))
    (skips : ∀ {finished l : List α} (v : α), keep v = false → walk finished v = .ok l →
      l.filter keep = finished.filter keep)
    (ok : vertices.foldlM walk finished = .ok l) :
    (vertices.filter keep).foldlM kept (finished.filter keep) = .ok (l.filter keep) := by
  induction vertices generalizing finished with
  | nil =>
    obtain rfl := Except.ok.inj ok
    rfl
  | cons v rest ih =>
    rw [List.foldlM_cons] at ok
    obtain ⟨m, first, ok⟩ := bind_eq_ok_iff.mp ok
    cases keeps : keep v with
    | true =>
      rw [List.filter_cons_of_pos keeps, List.foldlM_cons, goes v keeps first]
      exact ih ok
    | false =>
      rw [List.filter_cons_of_neg (by simp [keeps]), ← skips v keeps first]
      exact ih ok

end

section

variable {α ε : Type} [DecidableEq α] {next : α → Except ε (List α)} {cycle cycle' : α → ε} {keep : α → Bool}
  {fresh finished vertices l : List α} {v : α}
  (closed : ∀ v near, keep v = false → next v = .ok near → ∀ u ∈ near, keep u = false)

include closed

/-- Nothing that is kept is met from a vertex that is left out. -/
theorem filter_of_finish (left : keep v = false) (ok : finish next cycle fresh finished v = .ok l) :
    l.filter keep = finished.filter keep := by
  fun_induction finish next cycle fresh finished v generalizing l with
  | case1 => simp at ok
  | case2 fresh finished v near known done =>
    obtain rfl := Except.ok.inj ok
    rfl
  | case3 fresh finished v near known new enters ih =>
    obtain ⟨m, below, ok⟩ := bind_eq_ok_iff.mp ok
    obtain rfl := Except.ok.inj ok
    have same : m.filter keep = finished.filter keep :=
      filter_of_foldlM (fun u member => ih _ _ (closed v near left known u member)) below
    rw [List.filter_append, same]
    simp [left]
  | case4 => simp at ok

theorem finish_filter (kept : keep v = true) (ok : finish next cycle fresh finished v = .ok l) :
    finish (fun v => (next v).map (List.filter keep)) cycle' (fresh.filter keep) (finished.filter keep) v =
      .ok (l.filter keep) := by
  fun_induction finish next cycle fresh finished v generalizing l with
  | case1 => simp at ok
  | case2 fresh finished v near known done =>
    obtain rfl := Except.ok.inj ok
    have known : (next v).map (List.filter keep) = .ok (near.filter keep) := by rw [known, Except.map]
    rw [finish_of_known _ _ known, if_pos (List.mem_filter.mpr ⟨done, kept⟩)]
  | case3 fresh finished v near known new enters ih =>
    obtain ⟨m, below, ok⟩ := bind_eq_ok_iff.mp ok
    obtain rfl := Except.ok.inj ok
    have still : v ∉ finished.filter keep := fun done => new (List.mem_filter.mp done).1
    have known : (next v).map (List.filter keep) = .ok (near.filter keep) := by rw [known, Except.map]
    have below : (near.filter keep).foldlM
        (finish (fun v => (next v).map (List.filter keep)) cycle' ((fresh.filter keep).erase v))
          (finished.filter keep) = .ok (m.filter keep) := by
      rw [List.erase_filter]
      exact foldlM_filter (fun _ => ih _ _) (fun _ => filter_of_finish closed) below
    rw [finish_of_known _ _ known, if_neg still, if_pos (List.mem_filter.mpr ⟨enters, kept⟩), below]
    simp [bind, Except.bind, pure, Except.pure, kept]
  | case4 => simp at ok

theorem order_filter (ok : order next cycle vertices = .ok l) :
    order (fun v => (next v).map (List.filter keep)) cycle' (vertices.filter keep) = .ok (l.filter keep) :=
  foldlM_filter (fun _ => finish_filter closed) (fun _ => filter_of_finish closed) ok

end

end Inheritance.Traversal
