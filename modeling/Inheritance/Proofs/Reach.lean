import Inheritance.Traversal
import Mathlib.Logic.Relation

/-! What a walk outwards finds: exactly the fresh vertices at the end of a path of at least one edge
that enters fresh vertices only. The levels of the walk count the edges of these paths. -/
namespace Inheritance.Traversal

open Relation

section

variable {α : Type} {edge edge' : α → α → Prop} {fresh frontier : List α} {n : Nat} {u v w : α}

/-- A path of so many edges. -/
inductive Path (edge : α → α → Prop) : Nat → α → α → Prop
  | refl (u : α) : Path edge 0 u u
  | tail {n : Nat} {u v w : α} (path : Path edge n u v) (last : edge v w) : Path edge (n + 1) u w

theorem Path.single (only : edge u v) : Path edge 1 u v := .tail (.refl u) only

theorem Path.head (first : edge u v) (path : Path edge n v w) : Path edge (n + 1) u w := by
  induction path with
  | refl => exact .single first
  | tail _ last ih => exact (ih first).tail last

theorem Path.mono (mono : ∀ {u v}, edge u v → edge' u v) (path : Path edge n u v) : Path edge' n u v := by
  induction path with
  | refl => exact .refl _
  | tail _ last ih => exact ih.tail (mono last)

theorem Path.reflTransGen (path : Path edge n u v) : ReflTransGen edge u v := by
  induction path with
  | refl => exact .refl
  | tail _ last ih => exact ih.tail last

theorem transGen_iff_path : TransGen edge u v ↔ ∃ n, Path edge (n + 1) u v := by
  constructor
  · intro path
    induction path with
    | single only => exact ⟨0, .single only⟩
    | tail _ last ih =>
      obtain ⟨n, path⟩ := ih
      exact ⟨n + 1, path.tail last⟩
  · rintro ⟨n, _ | ⟨path, last⟩⟩
    exact .tail' path.reflTransGen last

/-- A neighbour is one step away. -/
def Edge (next : α → List α) (u v : α) : Prop := v ∈ next u

/-- An edge into a fresh vertex. -/
def Enters (edge : α → α → Prop) (fresh : List α) (u v : α) : Prop := edge u v ∧ v ∈ fresh

/-- A path of at most so many edges leads from the frontier to the vertex, and of one edge at least. -/
def Within (edge : α → α → Prop) (fresh frontier : List α) (n : Nat) (v : α) : Prop :=
  ∃ m < n, ∃ u ∈ frontier, Path (Enters edge fresh) (m + 1) u v

theorem Within.succ (within : Within edge fresh frontier n v) : Within edge fresh frontier (n + 1) v := by
  obtain ⟨m, less, path⟩ := within
  exact ⟨m, by omega, path⟩

theorem Within.exists_succ (within : Within edge fresh frontier n v) : ∃ m, n = m + 1 := by
  obtain ⟨m, less, -⟩ := within
  exact ⟨n - 1, by omega⟩

theorem exists_within_iff :
    (∃ n, Within edge fresh frontier n v) ↔ ∃ u ∈ frontier, TransGen (Enters edge fresh) u v := by
  simp only [transGen_iff_path]
  constructor
  · rintro ⟨_, m, -, u, member, path⟩
    exact ⟨u, member, m, path⟩
  · rintro ⟨u, member, m, path⟩
    exact ⟨m + 1, m, Nat.lt_succ_self m, u, member, path⟩

end

variable {α : Type} [DecidableEq α] {next : α → List α}
  {fresh frontier found : List α} {n : Nat} {u v : α}

@[simp] theorem mem_without : v ∈ without fresh found ↔ v ∈ fresh ∧ v ∉ found := by
  simp [without]

theorem mem_level : v ∈ level next fresh frontier ↔ ∃ u ∈ frontier, Enters (Edge next) fresh u v := by
  induction frontier generalizing fresh with
  | nil => simp [level]
  | cons u frontier ih =>
    have near : v ∈ step next fresh u ↔ Enters (Edge next) fresh u v := by
      rw [mem_step, and_comm]
      exact Iff.rfl
    rw [level, List.mem_append, ih]
    by_cases first : v ∈ step next fresh u
    · simp [first, near.mp first]
    · have later : ¬ (Edge next u v ∧ v ∈ fresh) := mt near.mpr first
      simp [first, later, Enters]

/-- A path leaves the found vertices for good somewhere, and goes on through the others. -/
theorem within_of_path {edge : α → α → Prop} (path : Path (Enters edge fresh) (n + 1) u v)
    (start : ∀ w, Enters edge fresh u w → w ∈ found) : v ∈ found ∨ Within edge (without fresh found) found n v := by
  induction n generalizing v with
  | zero =>
    obtain _ | ⟨_ | _, only⟩ := path
    exact .inl (start v only)
  | succ n ih =>
    obtain _ | @⟨_, _, w, _, path, last⟩ := path
    by_cases done : v ∈ found
    · exact .inl done
    have last : Enters edge (without fresh found) w v := ⟨last.1, mem_without.mpr ⟨last.2, done⟩⟩
    rcases ih path with inside | ⟨m, less, x, inside, path⟩
    · exact .inr ⟨0, by omega, w, inside, .single last⟩
    · exact .inr ⟨m + 1, by omega, x, inside, path.tail last⟩

theorem within_succ_iff :
    Within (Edge next) fresh frontier (n + 1) v ↔ v ∈ level next fresh frontier ∨
      Within (Edge next) (without fresh (level next fresh frontier)) (level next fresh frontier) n v := by
  constructor
  · rintro ⟨m, less, u, member, path⟩
    have start (w : α) (enters : Enters (Edge next) fresh u w) : w ∈ level next fresh frontier :=
      mem_level.mpr ⟨u, member, enters⟩
    refine (within_of_path path start).imp_right fun ⟨k, shorter, rest⟩ => ?_
    exact ⟨k, by omega, rest⟩
  · rintro (near | ⟨m, less, w, near, path⟩)
    · obtain ⟨u, member, enters⟩ := mem_level.mp near
      exact ⟨0, by omega, u, member, .single enters⟩
    · obtain ⟨u, member, enters⟩ := mem_level.mp near
      have path : Path (Enters (Edge next) fresh) (m + 1) w v :=
        path.mono fun enters => ⟨enters.1, (mem_without.mp enters.2).1⟩
      exact ⟨m + 1, by omega, u, member, path.head enters⟩

theorem mem_reach_iff_within :
    v ∈ reach next fresh frontier ↔ ∃ n, Within (Edge next) fresh frontier n v := by
  fun_induction reach next fresh frontier with
  | case1 fresh frontier found stuck =>
    have stuck : level next fresh frontier = [] := stuck
    refine iff_of_false List.not_mem_nil ?_
    rintro ⟨n, within⟩
    rcases within_succ_iff.mp within.succ with near | ⟨_, -, u, near, -⟩
    · simp [stuck] at near
    · simp [stuck] at near
  | case2 fresh frontier found moved ih =>
    rw [List.mem_append, ih]
    constructor
    · rintro (near | ⟨n, far⟩)
      · exact ⟨1, within_succ_iff.mpr (.inl near)⟩
      · exact ⟨n + 1, within_succ_iff.mpr (.inr far)⟩
    · rintro ⟨n, within⟩
      exact (within_succ_iff.mp within.succ).imp_right fun far => ⟨n, far⟩

theorem mem_reach :
    v ∈ reach next fresh frontier ↔ ∃ u ∈ frontier, TransGen (Enters (Edge next) fresh) u v :=
  mem_reach_iff_within.trans exists_within_iff

end Inheritance.Traversal
