import Inheritance.Component
import Mathlib.Logic.Relation
import Mathlib.Order.Fin.Basic
import Mathlib.Data.List.Nodup
import Mathlib.Data.List.Perm.Basic
import Mathlib.Data.List.Sort

/-! The components of a numbered list are exactly the classes of positions that chains of links join.
Each position lies in one component and is listed there once, components are ascending and they
follow one another by their least positions. The positions that are taken in so far are divided like
that, but for the sorting, and one position more keeps it so, however many components it merges. -/
namespace Inheritance.Component

open Relation (ReflTransGen)

variable {n : Nat} {linked : Fin n → Fin n → Bool} {i j k : Fin n} {seen : List (Fin n)}
  {components : List (Component n)} {c hub : Component n}

/-- One link joins the positions. -/
def Joined (linked : Fin n → Fin n → Bool) (i j : Fin n) : Prop := adjacent linked i j = true

theorem Joined.symm (h : Joined linked i j) : Joined linked j i := by
  simpa [Joined, adjacent, or_comm] using h

theorem joined_of_lt (lt : i < j) (h : linked i j = true) : Joined linked i j := by
  simp [Joined, adjacent, lt, h]

theorem Joined.linked_of_lt (joined : Joined linked i j) (lt : i < j) : linked i j = true := by
  simpa [Joined, adjacent, lt, lt.asymm] using joined

instance : Std.Symm (Joined linked) := ⟨fun _ _ => Joined.symm⟩

theorem attached_iff : c.attached linked i = true ↔ ∃ j ∈ c.positions, linked j i = true := List.any_eq_true

/-- The components of the positions that have been taken in. Their order and their least positions are
settled, and the other positions are yet to be sorted. -/
structure Splits (linked : Fin n → Fin n → Bool) (seen : List (Fin n)) (components : List (Component n)) :
    Prop where
  perm : (components.flatMap positions).Perm seen
  chained : ∀ c ∈ components, ∀ j ∈ c.positions, ReflTransGen (Joined linked) c.least j
  closed : ∀ c ∈ components, ∀ i ∈ c.positions, ∀ j ∈ seen, Joined linked i j → j ∈ c.positions
  least_le : ∀ c ∈ components, ∀ j ∈ c.positions, c.least ≤ j
  ordered : components.Pairwise fun c d => c.least < d.least

theorem splits_nil : Splits linked [] [] := ⟨.nil, nofun, nofun, nofun, .nil⟩

theorem Splits.mem_iff (splits : Splits linked seen components) :
    j ∈ seen ↔ ∃ c ∈ components, j ∈ c.positions := by
  rw [← splits.perm.mem_iff, List.mem_flatMap]

theorem positions_join {merged : List (Component n)} :
    (c.join i merged).positions = c.positions ++ i :: merged.flatMap positions := rfl

theorem mem_join {merged : List (Component n)} :
    j ∈ (c.join i merged).positions ↔ j ∈ c.positions ∨ j = i ∨ ∃ d ∈ merged, j ∈ d.positions := by
  rw [positions_join, List.mem_append, List.mem_cons, List.mem_flatMap]

/-- One component has taken in the position and all that is attached to it, and the others are as before. -/
structure Gathers (linked : Fin n → Fin n → Bool) (components : List (Component n)) (i : Fin n)
    (result : List (Component n)) (hub : Component n) : Prop where
  member : hub ∈ result
  mem_iff : ∀ j, j ∈ hub.positions ↔
    j = i ∨ ∃ c ∈ components, c.attached linked i = true ∧ j ∈ c.positions
  others : ∀ c ∈ result, c = hub ∨ c ∈ components ∧ c.attached linked i = false

theorem exists_gathers (linked : Fin n → Fin n → Bool) (components : List (Component n)) (i : Fin n) :
    ∃ hub, Gathers linked components i (add linked components i) hub := by
  fun_induction add linked components i with
  | case1 i => exact ⟨⟨i, []⟩, by simp, by simp [positions], by simp⟩
  | case2 c rest i attached =>
    refine ⟨_, List.mem_cons_self, fun j => ?_, fun d member => ?_⟩
    · rw [mem_join, or_left_comm, List.exists_mem_cons_iff]
      simp only [attached, true_and, List.mem_filter, and_assoc]
    · rcases List.mem_cons.mp member with rfl | left
      · exact .inl rfl
      · obtain ⟨there, free⟩ := List.mem_filter.mp left
        exact .inr ⟨List.mem_cons_of_mem c there, by simpa using free⟩
  | case3 c rest i free ih =>
    obtain ⟨hub, gathers⟩ := ih
    refine ⟨hub, List.mem_cons_of_mem c gathers.member, fun j => ?_, fun d member => ?_⟩
    · rw [gathers.mem_iff, List.exists_mem_cons_iff]
      simp [free]
    · rcases List.mem_cons.mp member with rfl | later
      · exact .inr ⟨List.mem_cons_self, by simpa using free⟩
      · exact (gathers.others d later).imp_right (And.imp_left (List.mem_cons_of_mem c))

theorem perm_add (linked : Fin n → Fin n → Bool) (components : List (Component n)) (i : Fin n) :
    ((add linked components i).flatMap positions).Perm (i :: components.flatMap positions) := by
  fun_induction add linked components i with
  | case1 i => exact .refl _
  | case2 c rest i attached =>
    have split := (List.filter_append_perm (·.attached linked i) rest).flatMap_right positions
    rw [List.flatMap_append] at split
    rw [List.flatMap_cons, positions_join, List.append_assoc, List.cons_append, List.flatMap_cons]
    exact List.perm_middle.trans ((split.append_left c.positions).cons i)
  | case3 c rest i free ih =>
    rw [List.flatMap_cons, List.flatMap_cons]
    exact (ih.append_left c.positions).trans List.perm_middle

theorem leasts_add (linked : Fin n → Fin n → Bool) (components : List (Component n)) (i : Fin n) :
    ((add linked components i).map least).Sublist (components.map least ++ [i]) := by
  fun_induction add linked components i with
  | case1 i => exact .refl _
  | case2 c rest i attached =>
    have kept : ((rest.filter (!·.attached linked i)).map least).Sublist (rest.map least) :=
      List.filter_sublist.map least
    exact (kept.trans (List.sublist_append_left ..)).cons_cons c.least
  | case3 c rest i free ih => exact ih.cons_cons c.least

theorem least_le_add (ordered : components.Pairwise fun c d => c.least < d.least)
    (least_le : ∀ c ∈ components, ∀ j ∈ c.positions, c.least ≤ j)
    (later : ∀ c ∈ components, c.least < i) :
    ∀ c ∈ add linked components i, ∀ j ∈ c.positions, c.least ≤ j := by
  fun_induction add linked components i with
  | case1 i => simp [positions]
  | case2 c rest i attached =>
    obtain ⟨behind, -⟩ := List.pairwise_cons.mp ordered
    rintro d member j here
    rcases List.mem_cons.mp member with rfl | left
    · rcases mem_join.mp here with old | rfl | ⟨d, merged, there⟩
      · exact least_le c List.mem_cons_self j old
      · exact le_of_lt (later c List.mem_cons_self)
      · have rest := List.mem_of_mem_filter merged
        exact le_of_lt ((behind d rest).trans_le (least_le d (List.mem_cons_of_mem c rest) j there))
    · exact least_le d (List.mem_cons_of_mem c (List.mem_of_mem_filter left)) j here
  | case3 c rest i free ih =>
    obtain ⟨-, ordered⟩ := List.pairwise_cons.mp ordered
    rintro d member j here
    rcases List.mem_cons.mp member with rfl | after
    · exact least_le d List.mem_cons_self j here
    · exact ih ordered (fun e there => least_le e (List.mem_cons_of_mem c there))
        (fun e there => later e (List.mem_cons_of_mem c there)) d after j here

section

variable {result : List (Component n)} (splits : Splits linked seen components) (later : ∀ j ∈ seen, j < i)

include splits later

/-- A position that is later than all others is attached to a component that a link joins it to. -/
theorem Splits.attached_of_joined (member : c ∈ components) (here : j ∈ c.positions)
    (joined : Joined linked j i) : c.attached linked i = true := by
  have lt : j < i := later j (splits.mem_iff.mpr ⟨c, member, here⟩)
  exact attached_iff.mpr ⟨j, here, joined.linked_of_lt lt⟩

theorem Gathers.chain (gathers : Gathers linked components i result hub) (here : j ∈ hub.positions) :
    ReflTransGen (Joined linked) i j := by
  rcases (gathers.mem_iff j).mp here with rfl | ⟨c, member, attached, there⟩
  · exact .refl
  · obtain ⟨k, inner, link⟩ := attached_iff.mp attached
    have joined : Joined linked k i := joined_of_lt (later k (splits.mem_iff.mpr ⟨c, member, inner⟩)) link
    have back : ReflTransGen (Joined linked) i c.least :=
      .head joined.symm (symm_of _ (splits.chained c member k inner))
    exact back.trans (splits.chained c member j there)

theorem Gathers.chained (gathers : Gathers linked components i result hub) (member : c ∈ result)
    (here : j ∈ c.positions) : ReflTransGen (Joined linked) c.least j := by
  rcases gathers.others c member with rfl | ⟨old, -⟩
  · exact (symm_of _ (gathers.chain splits later List.mem_cons_self)).trans (gathers.chain splits later here)
  · exact splits.chained c old j here

theorem Gathers.closed (gathers : Gathers linked components i result hub) (member : c ∈ result)
    (here : j ∈ c.positions) (inside : k ∈ seen ++ [i]) (joined : Joined linked j k) : k ∈ c.positions := by
  rcases gathers.others c member with rfl | ⟨old, free⟩
  · refine (gathers.mem_iff k).mpr ?_
    rcases List.mem_append.mp inside with known | new
    · rcases (gathers.mem_iff j).mp here with rfl | ⟨d, there, attached, source⟩
      · obtain ⟨d, there, target⟩ := splits.mem_iff.mp known
        exact .inr ⟨d, there, splits.attached_of_joined later there target joined.symm, target⟩
      · exact .inr ⟨d, there, attached, splits.closed d there j source k known joined⟩
    · exact .inl (List.mem_singleton.mp new)
  · rcases List.mem_append.mp inside with known | new
    · exact splits.closed c old j here k known joined
    · obtain rfl := List.mem_singleton.mp new
      simp [splits.attached_of_joined later old here joined] at free

theorem splits_add : Splits linked (seen ++ [i]) (add linked components i) := by
  obtain ⟨hub, gathers⟩ := exists_gathers linked components i
  have least (c : Component n) (member : c ∈ components) : c.least < i :=
    later c.least (splits.mem_iff.mpr ⟨c, member, List.mem_cons_self⟩)
  refine ⟨?_, fun c member j => gathers.chained splits later member,
    fun c member j here k => gathers.closed splits later member here, ?_, ?_⟩
  · exact (perm_add linked components i).trans
      ((splits.perm.cons i).trans (List.perm_append_singleton i seen).symm)
  · exact least_le_add splits.ordered splits.least_le least
  · have ascending : (components.map Component.least ++ [i]).Pairwise (· < ·) := by
      refine List.pairwise_append.mpr ⟨List.pairwise_map.mpr splits.ordered, List.pairwise_singleton .., ?_⟩
      simpa using least
    exact List.pairwise_map.mp (ascending.sublist (leasts_add linked components i))

end

theorem splits_foldl {rest : List (Fin n)} (splits : Splits linked seen components)
    (ascending : (seen ++ rest).Pairwise (· < ·)) :
    Splits linked (seen ++ rest) (rest.foldl (add linked) components) := by
  induction rest generalizing seen components with
  | nil => simpa using splits
  | cons i rest ih =>
    have later : ∀ j ∈ seen, j < i := fun j known =>
      (List.pairwise_append.mp ascending).2.2 j known i List.mem_cons_self
    rw [List.append_cons] at ascending ⊢
    exact ih (splits_add splits later) ascending

theorem foldr_place (l : List (Fin n)) : l.foldr place [] = l.insertionSort (· ≤ ·) := by
  have same (i : Fin n) (l : List (Fin n)) : place i l = l.orderedInsert (· ≤ ·) i := by
    induction l with
    | nil => rfl
    | cons j rest ih => rw [place, ih, List.orderedInsert_cons]
  induction l with
  | nil => rfl
  | cons i rest ih => rw [List.foldr_cons, ih, same, List.insertionSort_cons]

theorem positions_sort (c : Component n) : c.sort.positions = c.positions.insertionSort (· ≤ ·) := by
  have some : c.positions.insertionSort (· ≤ ·) ≠ [] := by
    rw [← List.length_pos_iff, List.length_insertionSort]
    exact Nat.succ_pos _
  rw [← foldr_place] at some ⊢
  unfold sort
  split
  · contradiction
  · rename_i found
    exact found.symm

theorem perm_sort (c : Component n) : c.sort.positions.Perm c.positions := by
  rw [positions_sort]
  exact List.perm_insertionSort (· ≤ ·) c.positions

theorem pairwise_sort (c : Component n) : c.sort.positions.Pairwise (· ≤ ·) := by
  rw [positions_sort]
  exact List.pairwise_insertionSort (· ≤ ·) c.positions

theorem mem_positions_sort : j ∈ c.sort.positions ↔ j ∈ c.positions := (perm_sort c).mem_iff

theorem least_sort (least_le : ∀ j ∈ c.positions, c.least ≤ j) : c.sort.least = c.least := by
  refine le_antisymm ?_ (least_le _ (mem_positions_sort.mp List.mem_cons_self))
  have there : c.least ∈ c.sort.positions := mem_positions_sort.mpr List.mem_cons_self
  rcases List.mem_cons.mp there with same | other
  · exact same.ge
  · exact (List.pairwise_cons.mp (pairwise_sort c)).1 _ other

theorem Splits.sort (splits : Splits linked seen components) : Splits linked seen (components.map sort) := by
  have same (c : Component n) (member : c ∈ components) : c.sort.least = c.least :=
    least_sort (splits.least_le c member)
  refine ⟨?_, ?_, ?_, ?_, ?_⟩
  · rw [List.flatMap_map]
    exact (List.Perm.flatMap_left components fun c _ => perm_sort c).trans splits.perm
  · refine List.forall_mem_map.mpr fun c member j here => ?_
    rw [same c member]
    exact splits.chained c member j (mem_positions_sort.mp here)
  · refine List.forall_mem_map.mpr fun c member i here j inside joined => ?_
    exact mem_positions_sort.mpr (splits.closed c member i (mem_positions_sort.mp here) j inside joined)
  · refine List.forall_mem_map.mpr fun c member j here => ?_
    rw [same c member]
    exact splits.least_le c member j (mem_positions_sort.mp here)
  · refine List.pairwise_map.mpr (splits.ordered.imp_of_mem fun {c d} left right lt => ?_)
    rwa [same c left, same d right]

theorem splits_ofLinks (linked : Fin n → Fin n → Bool) : Splits linked (List.finRange n) (ofLinks linked) :=
  (splits_foldl splits_nil (List.pairwise_lt_finRange n)).sort

theorem perm_ofLinks : ((ofLinks linked).flatMap positions).Perm (List.finRange n) := (splits_ofLinks linked).perm

theorem mem_positions_of_joined (member : c ∈ ofLinks linked) (here : i ∈ c.positions)
    (joined : Joined linked i j) : j ∈ c.positions :=
  (splits_ofLinks linked).closed c member i here j (List.mem_finRange j) joined

/-- A chain of links leads from the least position of a component to each of its positions. -/
theorem chain_of_mem (member : c ∈ ofLinks linked) (here : j ∈ c.positions) :
    ReflTransGen (Joined linked) c.least j := (splits_ofLinks linked).chained c member j here

theorem ascending (member : c ∈ ofLinks linked) : c.positions.Pairwise (· < ·) := by
  have distinct : ((ofLinks linked).flatMap positions).Nodup :=
    perm_ofLinks.nodup_iff.mpr (List.nodup_finRange n)
  have once : c.positions.Nodup := (List.nodup_flatMap.mp distinct).1 c member
  obtain ⟨unsorted, -, rfl⟩ := List.mem_map.mp member
  exact (pairwise_sort unsorted).imp₂ (fun _ _ le ne => lt_of_le_of_ne le ne) once

theorem ordered : (ofLinks linked).Pairwise fun c d => c.least < d.least := (splits_ofLinks linked).ordered

theorem exists_component (i : Fin n) : ∃ c ∈ ofLinks linked, i ∈ c.positions :=
  (splits_ofLinks linked).mem_iff.mp (List.mem_finRange i)

theorem disjoint : (ofLinks linked).Pairwise fun c d => ∀ i ∈ c.positions, ∀ j ∈ d.positions, i ≠ j := by
  have distinct : ((ofLinks linked).flatMap positions).Nodup :=
    perm_ofLinks.nodup_iff.mpr (List.nodup_finRange n)
  exact (List.pairwise_flatMap.mp distinct).2

theorem mem_positions_iff (member : c ∈ ofLinks linked) :
    j ∈ c.positions ↔ ReflTransGen (Joined linked) c.least j := by
  refine ⟨chain_of_mem member, fun chain => ?_⟩
  induction chain with
  | refl => exact List.mem_cons_self
  | tail _ joined ih => exact mem_positions_of_joined member ih joined

theorem eq_of_mem {β : Type} {f : Fin n → β} (same : ∀ {i j}, Joined linked i j → f i = f j)
    (member : c ∈ ofLinks linked) (here : i ∈ c.positions) (there : j ∈ c.positions) : f i = f j := by
  have least {k : Fin n} (chain : ReflTransGen (Joined linked) c.least k) : f c.least = f k := by
    induction chain with
    | refl => rfl
    | tail _ joined ih => exact ih.trans (same joined)
  exact (least (chain_of_mem member here)).symm.trans (least (chain_of_mem member there))

/-- Positions that no link joins are components of their own. -/
theorem ofLinks_of_unlinked (apart : ∀ i j, ¬ Joined linked i j) :
    ofLinks linked = (List.finRange n).map fun i => ⟨i, []⟩ := by
  have alone (c : Component n) (member : c ∈ ofLinks linked) : c = ⟨c.least, []⟩ := by
    have none : c.others = [] := by
      refine List.eq_nil_iff_forall_not_mem.mpr fun j other => ?_
      have chain := chain_of_mem member (List.mem_cons_of_mem _ other)
      rcases ReflTransGen.cases_head chain with same | ⟨k, first, -⟩
      · exact ne_of_lt ((List.pairwise_cons.mp (ascending member)).1 j other) same
      · exact apart _ _ first
    rw [← none]
  have each : (ofLinks linked).flatMap positions = (ofLinks linked).map least := by
    rw [List.map_eq_flatMap]
    exact List.flatMap_congr fun c member => congrArg positions (alone c member)
  have leasts : (ofLinks linked).map least = List.finRange n :=
    (each ▸ perm_ofLinks).eq_of_pairwise' (List.pairwise_map.mpr ordered) (List.pairwise_lt_finRange n)
  rw [← leasts, List.map_map]
  conv_lhs => rw [← List.map_id (ofLinks linked)]
  exact List.map_congr_left alone

end Inheritance.Component
