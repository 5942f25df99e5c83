import Inheritance.Traversal
import Inheritance.Proofs.Sequencing
import Mathlib.Data.List.Perm.Basic
import Mathlib.Logic.Relation

/-! What a depth first walk lists. Each vertex stands there once and behind its neighbours, and where
that is impossible the walk ends with a vertex on a cycle, or with one whose neighbours are not known. -/
namespace Inheritance.Traversal

open Relation (TransGen ReflTransGen)

section

variable {α ε : Type} {next : α → Except ε (List α)} {fresh finished l m near before after : List α} {u v : α}
  {e : ε}

/-- The neighbours of the first vertex are known, and the second is one of them. -/
def Needs (next : α → Except ε (List α)) (u v : α) : Prop := ∃ near, next u = .ok near ∧ v ∈ near

theorem needs_iff (known : next u = .ok near) : Needs next u v ↔ v ∈ near := by
  simp [Needs, known]

/-- No vertex is listed twice or before one of its neighbours, and no neighbour is missing. -/
inductive Topological (next : α → Except ε (List α)) : List α → Prop where
  | nil : Topological next []
  | concat {l : List α} {v : α} (sorted : Topological next l) (new : v ∉ l)
      (behind : ∀ u, Needs next v u → u ∈ l) : Topological next (l ++ [v])

theorem Topological.closed (sorted : Topological next l) (here : v ∈ l) (edge : Needs next v u) :
    u ∈ l := by
  induction sorted with
  | nil => simp at here
  | concat _ _ behind ih =>
    rcases List.mem_append.mp here with old | last
    · exact List.mem_append_left _ (ih old)
    · exact List.mem_append_left _ (behind u (List.mem_singleton.mp last ▸ edge))

theorem Topological.forall_mem {P : α → Prop} (sorted : Topological next l)
    (step : ∀ v ∈ l, (∀ u, Needs next v u → P u) → P v) : ∀ v ∈ l, P v := by
  induction sorted with
  | nil => simp
  | @concat l w _ _ behind ih =>
    have listed : ∀ v ∈ l, P v := ih fun v here => step v (List.mem_append_left _ here)
    intro v here
    rcases List.mem_append.mp here with old | last
    · exact listed v old
    · apply step v here
      intro u edge
      exact listed u (behind u (List.mem_singleton.mp last ▸ edge))

theorem Topological.mem_of_path (sorted : Topological next l) (here : v ∈ l)
    (path : ReflTransGen (Needs next) v u) : u ∈ l := by
  induction path with
  | refl => exact here
  | tail _ edge ih => exact sorted.closed ih edge

theorem Topological.mem_before (sorted : Topological next l) (split : l = before ++ v :: after)
    (edge : Needs next v u) : u ∈ before := by
  induction sorted generalizing after with
  | nil => simp at split
  | @concat l w _ _ behind ih =>
    rcases List.eq_nil_or_concat after with rfl | ⟨rest, last, rfl⟩
    · obtain ⟨rfl, same⟩ := List.append_inj' split rfl
      obtain rfl := List.singleton_inj.mp same
      exact behind u edge
    · rw [List.concat_eq_append, ← List.cons_append, ← List.append_assoc] at split
      exact ih (List.append_inj' split rfl).1

/-- A later vertex is another vertex than an earlier one and none of its neighbours. -/
theorem Topological.pairwise (sorted : Topological next l) :
    l.Pairwise fun u v => u ≠ v ∧ ¬ Needs next u v := by
  induction sorted with
  | nil => exact .nil
  | concat sorted new _ ih =>
    refine List.pairwise_append.mpr ⟨ih, List.pairwise_singleton .., fun u here w last => ?_⟩
    obtain rfl := List.mem_singleton.mp last
    refine ⟨fun same => new (same ▸ here), fun edge => ?_⟩
    exact new (sorted.closed here edge)

theorem Topological.nodup (sorted : Topological next l) : l.Nodup := sorted.pairwise.imp fun h => h.1

theorem Topological.acyclic (sorted : Topological next l) (here : v ∈ l) :
    ¬ TransGen (Needs next) v v := by
  induction sorted with
  | nil => simp at here
  | concat sorted new behind ih =>
    rcases List.mem_append.mp here with old | last
    · exact ih old
    obtain rfl := List.mem_singleton.mp last
    intro cycle
    obtain ⟨u, edge, path⟩ := TransGen.head'_iff.mp cycle
    exact new (sorted.mem_of_path (behind u edge) path)

/-- A walk went on from the finished vertices to these. All that it added was fresh. -/
structure Extends (next : α → Except ε (List α)) (fresh finished l : List α) : Prop where
  sorted : Topological next l
  kept : finished ⊆ l
  entered : ∀ u ∈ l, u ∈ finished ∨ u ∈ fresh

theorem Extends.trans (first : Extends next fresh finished l) (second : Extends next fresh l m) :
    Extends next fresh finished m where
  sorted := second.sorted
  kept := List.Subset.trans first.kept second.kept
  entered u here := (second.entered u here).elim (first.entered u) .inr

theorem extends_of_foldlM {walk : List α → α → Except ε (List α)} {vertices : List α}
    (step : ∀ {finished v l}, Topological next finished → walk finished v = .ok l →
      v ∈ l ∧ Extends next fresh finished l)
    (sorted : Topological next finished) (ok : vertices.foldlM walk finished = .ok l) :
    (∀ v ∈ vertices, v ∈ l) ∧ Extends next fresh finished l := by
  induction vertices generalizing finished with
  | nil =>
    obtain rfl := Except.ok.inj ok
    exact ⟨nofun, sorted, List.Subset.refl _, fun _ => .inl⟩
  | cons v rest ih =>
    rw [List.foldlM_cons] at ok
    obtain ⟨m, first, ok⟩ := bind_eq_ok_iff.mp ok
    obtain ⟨listed, begun⟩ := step sorted first
    obtain ⟨others, done⟩ := ih begun.sorted ok
    exact ⟨List.forall_mem_cons.mpr ⟨done.kept listed, others⟩, begun.trans done⟩

theorem exists_of_foldlM_eq_error {walk : List α → α → Except ε (List α)} {vertices : List α}
    (failed : vertices.foldlM walk finished = .error e) :
    ∃ v ∈ vertices, ∃ finished, walk finished v = .error e := by
  induction vertices generalizing finished with
  | nil => simp [pure, Except.pure] at failed
  | cons v rest ih =>
    rw [List.foldlM_cons] at failed
    rcases bind_eq_error_iff.mp failed with first | ⟨l, -, later⟩
    · exact ⟨v, List.mem_cons_self, _, first⟩
    · obtain ⟨u, member, this⟩ := ih later
      exact ⟨u, List.mem_cons_of_mem _ member, this⟩

end

section

variable {α ε : Type} [DecidableEq α] {next : α → Except ε (List α)} {cycle : α → ε}
  {fresh finished vertices l : List α} {v : α} {e : ε}

theorem extends_of_finish (distinct : fresh.Nodup) (sorted : Topological next finished)
    (ok : finish next cycle fresh finished v = .ok l) : v ∈ l ∧ Extends next fresh finished l := by
  fun_induction finish next cycle fresh finished v generalizing l with
  | case1 => simp at ok
  | case2 fresh finished v near known done =>
    obtain rfl := Except.ok.inj ok
    exact ⟨done, sorted, List.Subset.refl _, fun _ => .inl⟩
  | case3 fresh finished v near known new enters ih =>
    obtain ⟨m, below, ok⟩ := bind_eq_ok_iff.mp ok
    obtain rfl := Except.ok.inj ok
    obtain ⟨behind, done⟩ := extends_of_foldlM (ih _ _ (distinct.erase v)) sorted below
    -- The vertex was taken out of the fresh ones for the walks below it, so none of them listed it.
    have unlisted : v ∉ m := by
      intro listed
      rcases done.entered v listed with old | again
      · exact new old
      · exact distinct.not_mem_erase again
    refine ⟨by simp, .concat done.sorted unlisted ?_, ?_, fun u here => ?_⟩
    · exact fun u needs => behind u ((needs_iff known).mp needs)
    · exact List.subset_append_of_subset_left _ done.kept
    rcases List.mem_append.mp here with old | last
    · exact (done.entered u old).imp_right List.mem_of_mem_erase
    · exact .inr (List.mem_singleton.mp last ▸ enters)
  | case4 => simp at ok

/-- A walk ends at a vertex that it knows nothing of, or that lies on a cycle unless the walk was below it from
the start. -/
theorem path_of_finish_eq_error (failed : finish next cycle fresh finished v = .error e) :
    ∃ w, ReflTransGen (Needs next) v w ∧
      (next w = .error e ∨ e = cycle w ∧ (w ∉ fresh ∨ TransGen (Needs next) w w)) := by
  fun_induction finish next cycle fresh finished v with
  | case1 fresh finished v error unknown =>
    obtain rfl := Except.error.inj failed
    exact ⟨v, .refl, .inl unknown⟩
  | case2 => simp at failed
  | case3 fresh finished v near known new enters ih =>
    rcases bind_eq_error_iff.mp failed with stopped | ⟨_, _, impossible⟩
    · obtain ⟨u, member, m, this⟩ := exists_of_foldlM_eq_error stopped
      have needs : Needs next v u := (needs_iff known).mpr member
      obtain ⟨w, path, unknown | ⟨met, again⟩⟩ := ih _ _ this
      · exact ⟨w, .head needs path, .inl unknown⟩
      refine ⟨w, .head needs path, .inr ⟨met, ?_⟩⟩
      by_cases same : w = v
      · subst same
        exact .inr (TransGen.head'_iff.mpr ⟨u, needs, path⟩)
      · exact again.imp_left fun outside fresh => outside ((List.mem_erase_of_ne same).mpr fresh)
    · simp [pure, Except.pure] at impossible
  | case4 fresh finished v near known new outside =>
    exact ⟨v, .refl, .inr ⟨(Except.error.inj failed).symm, .inl outside⟩⟩

theorem topological_of_order (distinct : vertices.Nodup) (ok : order next cycle vertices = .ok l) :
    Topological next l ∧ l.Perm vertices := by
  obtain ⟨listed, done⟩ := extends_of_foldlM (extends_of_finish distinct) .nil ok
  refine ⟨done.sorted, (List.perm_ext_iff_of_nodup done.sorted.nodup distinct).mpr fun v => ?_⟩
  exact ⟨fun here => (done.entered v here).resolve_left List.not_mem_nil, listed v⟩

/-- If all neighbours are known, an order is missing only if there is a cycle. -/
theorem cycle_of_order (inside : ∀ v ∈ vertices, ∃ near, next v = .ok near ∧ near ⊆ vertices)
    (failed : order next cycle vertices = .error e) :
    ∃ w ∈ vertices, e = cycle w ∧ TransGen (Needs next) w w := by
  obtain ⟨v, here, finished, this⟩ := exists_of_foldlM_eq_error failed
  obtain ⟨w, path, ending⟩ := path_of_finish_eq_error this
  have reached : w ∈ vertices := by
    clear ending this failed
    induction path with
    | refl => exact here
    | @tail u _ _ needs ih =>
      obtain ⟨near, known, within⟩ := inside u ih
      exact within ((needs_iff known).mp needs)
  obtain ⟨near, known, -⟩ := inside w reached
  rcases ending with unknown | ⟨met, again⟩
  · simp [known] at unknown
  · exact ⟨w, reached, met, again.resolve_left fun outside => outside reached⟩

end

end Inheritance.Traversal
