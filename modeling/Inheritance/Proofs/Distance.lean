import Inheritance.Proofs.Provenance
import Mathlib.Order.Lattice.Nat

/-! How far supertypes are above a class. A walk goes up level by level, so it comes to each registered
supertype once, by a shortest path, and to the nearer ones first. That holds on cycles, too, where the class
is among its own supertypes. -/
namespace Inheritance

namespace Traversal

variable {α : Type} [DecidableEq α] {next : α → List α} {fresh frontier : List α}

theorem nodup_level (fresh frontier : List α) : (level next fresh frontier).Nodup := by
  induction frontier generalizing fresh with
  | nil => exact .nil
  | cons u frontier ih =>
    have apart (v : α) (near : v ∈ step next fresh u) (w : α)
        (later : w ∈ level next (without fresh (step next fresh u)) frontier) : v ≠ w := by
      rintro rfl
      exact (mem_without.mp (mem_fresh_of_mem_level next later)).2 near
    exact List.nodup_append.mpr ⟨nodup_eraseDups _, ih _, apart⟩

theorem mem_fresh_of_mem_reach {v : α} (member : v ∈ reach next fresh frontier) : v ∈ fresh := by
  fun_induction reach next fresh frontier with
  | case1 => simp at member
  | case2 fresh frontier found moved ih =>
    rcases List.mem_append.mp member with near | far
    · exact mem_fresh_of_mem_level next near
    · exact (mem_without.mp (ih far)).1

/-- Nothing is met again behind the level on which it is found. -/
theorem notMem_reach_without {found : List α} {v : α} (done : v ∈ found) :
    v ∉ reach next (without fresh found) frontier :=
  fun member => (mem_without.mp (mem_fresh_of_mem_reach member)).2 done

theorem nodup_reach (fresh frontier : List α) : (reach next fresh frontier).Nodup := by
  fun_induction reach next fresh frontier with
  | case1 => exact .nil
  | case2 fresh frontier found moved ih =>
    refine List.nodup_append.mpr ⟨nodup_level .., ih, ?_⟩
    rintro v near _ far rfl
    exact notMem_reach_without near far

theorem pairwise_reach (fresh frontier : List α) :
    (reach next fresh frontier).Pairwise fun a b =>
      ∀ n, Within (Edge next) fresh frontier n b → Within (Edge next) fresh frontier n a := by
  fun_induction reach next fresh frontier with
  | case1 => exact .nil
  | case2 fresh frontier found moved ih =>
    have first (a : α) (near : a ∈ found) (b : α) (n : Nat)
        (within : Within (Edge next) fresh frontier n b) : Within (Edge next) fresh frontier n a := by
      obtain ⟨n, rfl⟩ := within.exists_succ
      exact within_succ_iff.mpr (.inl near)
    refine List.pairwise_append.mpr ⟨?_, ?_, fun a near b _ => first a near b⟩
    · exact List.pairwise_of_forall_mem_list fun a near b _ => first a near b
    · refine ih.imp_of_mem fun {a b} _ far nearer n within => ?_
      obtain ⟨n, rfl⟩ := within.exists_succ
      have behind := (within_succ_iff.mp within).resolve_left fun near => notMem_reach_without near far
      exact within_succ_iff.mpr (.inr (nearer n behind))

end Traversal

namespace Registry

open Relation (TransGen)

variable {r : Registry} {h k : Fingerprint} {n : Nat}

/-- A registered class lists the name of the other among its supertypes. -/
def Names (r : Registry) (h k : Fingerprint) : Prop := ∃ d, r.get? h = some d ∧ ∃ s ∈ d.supertypes, k = .ofName s

theorem extends_eq_names (r : Registry) : r.Extends = r.Names := by
  funext h k
  simp [extends_iff, Names, Declaration.supertypeFingerprints, eq_comm]

/-- So many direct supertypes, each listed by the one before it and all of them registered, lead up from the first
class to the second. -/
def Climbs (r : Registry) : Nat → Fingerprint → Fingerprint → Prop :=
  Traversal.Path (Traversal.Enters r.Names r.fingerprints)

/-- The fewest edges that lead up from the first class to the second, and one at least: a class is above itself by
the length of a shortest cycle. -/
noncomputable def distance (r : Registry) (h k : Fingerprint) : Nat := sInf {n | 0 < n ∧ r.Climbs n h k}

theorem within_iff_climbs :
    Traversal.Within r.Extends r.fingerprints [h] n k ↔ ∃ m ≤ n, 0 < m ∧ r.Climbs m h k := by
  rw [extends_eq_names]
  constructor
  · rintro ⟨m, less, start, only, path⟩
    rw [List.mem_singleton.mp only] at path
    exact ⟨m + 1, less, Nat.succ_pos m, path⟩
  · rintro ⟨_ | m, bound, positive, path⟩
    · exact absurd positive (Nat.lt_irrefl 0)
    · exact ⟨m, bound, h, List.mem_singleton_self h, path⟩

theorem mem_ancestors_iff_climbs : k ∈ r.ancestors h ↔ ∃ n, 0 < n ∧ r.Climbs n h k := by
  rw [ancestors, Traversal.mem_reach_iff_within, edge_parents]
  simp only [within_iff_climbs]
  constructor
  · rintro ⟨_, n, -, path⟩
    exact ⟨n, path⟩
  · rintro ⟨n, path⟩
    exact ⟨n, n, Nat.le_refl n, path⟩

theorem isLeast_distance (above : k ∈ r.ancestors h) : IsLeast {n | 0 < n ∧ r.Climbs n h k} (r.distance h k) :=
  ⟨Nat.sInf_mem (mem_ancestors_iff_climbs.mp above), fun _ => Nat.sInf_le⟩

theorem pairwise_ancestors (r : Registry) (h : Fingerprint) :
    (r.ancestors h).Pairwise fun a b => r.distance h a ≤ r.distance h b := by
  refine (Traversal.pairwise_reach r.fingerprints [h]).imp_of_mem fun {a b} _ there nearer => ?_
  have within := within_iff_climbs.mpr ⟨r.distance h b, Nat.le_refl _, (isLeast_distance there).1⟩
  obtain ⟨n, bound, path⟩ := within_iff_climbs.mp (nearer _ within)
  exact (Nat.sInf_le path).trans bound

/-- The registered classes above a class, each once and the nearer ones first. -/
structure Ascends (r : Registry) (h : Fingerprint) (l : List Fingerprint) : Prop where
  nodup : l.Nodup
  mem_iff : ∀ k, k ∈ l ↔ ∃ n, 0 < n ∧ r.Climbs n h k
  registered : ∀ k ∈ l, k ∈ r.fingerprints
  cycle : h ∈ l ↔ TransGen r.Names h h
  unregistered : h ∉ r.fingerprints → l = []
  shortest : ∀ k ∈ l, IsLeast {n | 0 < n ∧ r.Climbs n h k} (r.distance h k)
  ordered : l.Pairwise fun a b => r.distance h a ≤ r.distance h b

theorem ascends_ancestors (r : Registry) (h : Fingerprint) : r.Ascends h (r.ancestors h) where
  nodup := Traversal.nodup_reach ..
  mem_iff := fun _ => mem_ancestors_iff_climbs
  registered := fun _ above => Traversal.mem_fresh_of_mem_reach above
  cycle := by
    rw [mem_ancestors_iff, ← extends_eq_names]
    constructor
    · exact fun path => TransGen.mono (fun _ _ enters => enters.1) _ _ path
    · intro cycle
      have path := registered_of_path cycle (registered_of_cycle cycle)
      exact TransGen.mono (fun _ _ edge => ⟨edge.2.2, edge.2.1⟩) _ _ path
  unregistered := by
    intro unknown
    refine List.eq_nil_iff_forall_not_mem.mpr fun k above => unknown ?_
    obtain ⟨_, first, -⟩ := TransGen.head'_iff.mp (mem_ancestors_iff.mp above)
    exact registered_of_extends first.1
  shortest := fun _ above => isLeast_distance above
  ordered := pairwise_ancestors r h

/-- A class on a cycle of two edges. One of the classes that are listed on it is not registered. -/
theorem ascends_ancestors_cycle :
    let cat : Declaration := .named .ordinary "Cat" ["Dog", "Pet"] []
    let dog : Declaration := .named .ordinary "Dog" ["Cat", "Wolf"] []
    let pet : Declaration := .named .interface "Pet" [] []
    let r : Registry := ⟨[cat, dog, pet], []⟩
    r.Ascends cat.fingerprint [dog.fingerprint, pet.fingerprint, cat.fingerprint] := by
  intro cat dog pet r
  have above : r.ancestors cat.fingerprint = [dog.fingerprint, pet.fingerprint, cat.fingerprint] := by
    decide +kernel
  exact above ▸ ascends_ancestors r cat.fingerprint

end Registry

end Inheritance
