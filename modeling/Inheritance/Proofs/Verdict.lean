import Inheritance.Proofs.Connectivity
import Mathlib.Data.Prod.Lex

/-! When a group conflicts, and which two members are blamed. A clash with a declared member comes first, then
a pair that clashes and is not compatible, then a slot that none of its members leads. Each of the three
searches reports what it meets first, so a conflict is blamed on one pair only. -/
namespace Inheritance

section

variable {α β : Type} {l : List α}

theorem isLeast_of_find? [PartialOrder α] {p : α → Bool} {a : α} (ascending : l.Pairwise (· < ·))
    (found : l.find? p = some a) : IsLeast {b | b ∈ l ∧ p b = true} a := by
  obtain ⟨holds, before, after, rfl, others⟩ := List.find?_eq_some_iff_append.mp found
  apply isLeast_of_append ascending
  · exact fun b member => member.1
  · exact ⟨by simp, holds⟩
  · intro b early member
    have fails : p b = false := by simpa using others b early
    simp [fails] at member

theorem exists_isLeast_of_find? {p : α → Bool} {a : α} (found : l.find? p = some a) :
    ∃ i, IsLeast {i | p (l.get i) = true} i ∧ l.get i = a := by
  have all : (List.finRange l.length).map l.get = l := List.map_getElem_finRange l
  rw [← all, List.find?_map, Option.map_eq_some_iff] at found
  obtain ⟨i, found, rfl⟩ := found
  obtain ⟨holds, first⟩ := isLeast_of_find? (List.pairwise_lt_finRange _) found
  exact ⟨i, ⟨holds.2, fun j other => first ⟨List.mem_finRange j, other⟩⟩, rfl⟩

theorem exists_isLeast_of_findSome? {f : α → Option β} {b : β} (found : l.findSome? f = some b) :
    ∃ i, IsLeast {i | f (l.get i) ≠ none} i ∧ f (l.get i) = some b := by
  have all : (List.finRange l.length).map l.get = l := List.map_getElem_finRange l
  rw [← all, List.findSome?_map, List.findSome?_eq_some_iff] at found
  obtain ⟨before, i, after, split, here, others⟩ := found
  have ascending := List.pairwise_lt_finRange l.length
  have inside (j : Fin l.length) := List.mem_finRange j
  rw [split] at ascending
  simp only [split] at inside
  refine ⟨i, ?_, here⟩
  apply isLeast_of_append ascending (fun j _ => inside j)
  · exact fun none => Option.some_ne_none b (here.symm.trans none)
  · exact fun j early answered => answered (others j early)

theorem isLeast_toLex_iff {n : Nat} {R : Fin n → Fin n → Prop} {i j : Fin n} :
    IsLeast {p : Fin n ×ₗ Fin n | R (ofLex p).1 (ofLex p).2} (toLex (i, j)) ↔
      R i j ∧ ∀ i' j', R i' j' → i < i' ∨ i = i' ∧ j ≤ j' := by
  refine and_congr_right fun _ => ⟨fun first i' j' other => ?_, fun first p other => ?_⟩
  · have before : toLex (i, j) ≤ toLex (i', j') := first other
    exact Prod.Lex.toLex_le_toLex.mp before
  · exact Prod.Lex.toLex_le_toLex.mpr (first _ _ other)

end

namespace OverrideRules

variable {rules : OverrideRules} {d : Declaration} {group : NameGroup} {declared members rest : List Member}
  {a : Member} {c : Conflict}

/-- A declared member clashes with the unmatched member at a position. -/
def Redeclares (rules : OverrideRules) (declared members : List Member) (k : Fin declared.length)
    (i : Fin members.length) : Prop :=
  rules.clashes (declared.get k) (members.get i) = true

/-- The members at two positions clash and are not compatible. -/
def Irreconcilable (rules : OverrideRules) (members : List Member) (i j : Fin members.length) : Prop :=
  i < j ∧ rules.clashes (members.get i) (members.get j) = true ∧
    rules.compatible (members.get i) (members.get j) = false

/-- No position leads the component. -/
def Leaderless (rules : OverrideRules) (members : List Member)
    (C : (rules.slotGraph members).ConnectedComponent) : Prop :=
  ∀ i, ¬ rules.Leads members C.supp i

/-- The position that is blamed for a conflict, beside the declared member or the other position that it is in
conflict with. -/
inductive Blames (rules : OverrideRules) (declared members : List Member) :
    Fin members.length → Fin declared.length ⊕ Fin members.length → Prop where
  | redeclared {i k} (base : IsLeast {i | ∃ k, rules.Redeclares declared members k i} i)
      (own : IsLeast {k | rules.Redeclares declared members k i} k) : Blames rules declared members i (.inl k)
  | irreconcilable {i j} (apart : ∀ k i, ¬ rules.Redeclares declared members k i)
      (pair : IsLeast {p : Fin members.length ×ₗ Fin members.length |
        rules.Irreconcilable members (ofLex p).1 (ofLex p).2} (toLex (i, j))) :
      Blames rules declared members i (.inr j)
  | leaderless {i j} {C : (rules.slotGraph members).ConnectedComponent}
      (apart : ∀ k i, ¬ rules.Redeclares declared members k i)
      (reconciled : ∀ i j, ¬ rules.Irreconcilable members i j) (slot : rules.Leaderless members C)
      (first : i ∈ C.supp) (lowest : ∀ D, rules.Leaderless members D → ∀ k ∈ D.supp, i ≤ k)
      (other : IsLeast {k | k ∈ C.supp ∧ k ≠ i ∧ rules.dominates (members.get i) (members.get k) = false} j) :
      Blames rules declared members i (.inr j)

/-- The two members that are blamed. -/
def blamed (declared members : List Member) (i : Fin members.length)
    (s : Fin declared.length ⊕ Fin members.length) : Conflict :=
  ⟨members.get i, s.elim declared.get members.get⟩

/-- The outcome of a group, told from members of it. -/
structure Decides (rules : OverrideRules) (d : Declaration) (group : NameGroup) (members : List Member) :
    Prop where
  matched : rules.resolveGroup d group = .matched ↔ members = []
  conflicts : (∃ c, rules.resolveGroup d group = .conflict c) ↔ members ≠ [] ∧
    ((∃ k i, rules.Redeclares group.declared members k i) ∨ (∃ i j, rules.Irreconcilable members i j) ∨
      ∃ C, rules.Leaderless members C)
  blames : ∀ c, rules.resolveGroup d group = .conflict c ↔
    ∃ i s, rules.Blames group.declared members i s ∧ c = blamed group.declared members i s
  apart : ∀ i s, rules.Blames group.declared members i s → s ≠ .inr i
  inherited : ∀ c, rules.resolveGroup d group = .conflict c →
    c.first ∈ group.inherited ∧ ∀ own ∈ group.declared, rules.overrides own c.first = false

theorem declaredClash?_eq_none_iff_apart : rules.declaredClash? declared members = none ↔
    ∀ k i, ¬ rules.Redeclares declared members k i := by
  simp only [declaredClash?_eq_none_iff, List.forall_mem_iff_get, Redeclares, Bool.not_eq_true]
  exact forall_comm

theorem incompatible?_eq_none_iff_reconciled : rules.incompatible? members = none ↔
    ∀ i j, ¬ rules.Irreconcilable members i j := by
  rw [incompatible?_eq_none_iff, List.pairwise_iff_get]
  simp only [Irreconcilable, not_and, Bool.not_eq_false]

theorem blames_of_declaredClash? (found : rules.declaredClash? declared members = some c) :
    ∃ i s, rules.Blames declared members i s ∧ c = blamed declared members i s := by
  obtain ⟨i, ⟨-, first⟩, here⟩ := exists_isLeast_of_findSome? found
  obtain ⟨own, clash, rfl⟩ := Option.map_eq_some_iff.mp here
  obtain ⟨k, least, rfl⟩ := exists_isLeast_of_find? clash
  refine ⟨i, .inl k, .redeclared ⟨⟨k, least.1⟩, fun j other => first ?_⟩ least, rfl⟩
  obtain ⟨k', clash'⟩ := other
  intro none
  have apart := List.find?_eq_none.mp (Option.map_eq_none_iff.mp none)
  exact apart _ (List.get_mem declared k') clash'

section

variable {j : Fin rest.length}

theorem irreconcilable_zero_iff : rules.Irreconcilable (a :: rest) (0 : Fin (rest.length + 1)) j.succ ↔
    (rules.clashes a (rest.get j) && !rules.compatible a (rest.get j)) = true := by
  simp [Irreconcilable]

theorem irreconcilable_succ_iff {i : Fin rest.length} :
    rules.Irreconcilable (a :: rest) i.succ j.succ ↔ rules.Irreconcilable rest i j := by
  simp [Irreconcilable]

theorem exists_succ_of_irreconcilable {i j : Fin (rest.length + 1)}
    (irreconcilable : rules.Irreconcilable (a :: rest) i j) : ∃ k : Fin rest.length, j = k.succ := by
  have later : i < j := irreconcilable.1
  rcases Fin.eq_zero_or_eq_succ j with rfl | found
  · exact absurd later (Fin.not_lt_zero i)
  · exact found

end

theorem exists_isLeast_of_incompatible? (found : rules.incompatible? members = some c) :
    ∃ i j, IsLeast {p : Fin members.length ×ₗ Fin members.length |
      rules.Irreconcilable members (ofLex p).1 (ofLex p).2} (toLex (i, j)) ∧
        c = ⟨members.get i, members.get j⟩ := by
  simp only [isLeast_toLex_iff]
  induction members with
  | nil => simp [incompatible?] at found
  | cons a rest ih =>
    rw [incompatible?, Option.or_eq_some_iff] at found
    rcases found with head | ⟨none, later⟩
    · obtain ⟨b, found, rfl⟩ := Option.map_eq_some_iff.mp head
      obtain ⟨j, ⟨here, first⟩, rfl⟩ := exists_isLeast_of_find? found
      refine ⟨(0 : Fin (rest.length + 1)), j.succ, ⟨irreconcilable_zero_iff.mpr here, ?_⟩, rfl⟩
      intro i' j' other
      obtain ⟨k, rfl⟩ := exists_succ_of_irreconcilable other
      rcases Fin.eq_zero_or_eq_succ i' with rfl | ⟨i', rfl⟩
      · exact .inr ⟨rfl, Fin.succ_le_succ_iff.mpr (first (irreconcilable_zero_iff.mp other))⟩
      · exact .inl (Fin.succ_pos i')
    · obtain ⟨i, j, ⟨here, first⟩, rfl⟩ := ih later
      refine ⟨i.succ, j.succ, ⟨irreconcilable_succ_iff.mpr here, fun i' j' other => ?_⟩, rfl⟩
      obtain ⟨k, rfl⟩ := exists_succ_of_irreconcilable other
      rcases Fin.eq_zero_or_eq_succ i' with rfl | ⟨i', rfl⟩
      · have apart := List.find?_eq_none.mp (Option.map_eq_none_iff.mp none) _ (List.get_mem rest k)
        exact absurd (irreconcilable_zero_iff.mp other) apart
      · simpa [Fin.ext_iff] using first i' k (irreconcilable_succ_iff.mp other)

theorem fill_eq_error_iff {slot : Component members.length} :
    rules.fill (numbered members) d slot = .error c ↔
      (∀ i, ¬ rules.Leads members slot.support i) ∧ c = rules.undominated (numbered members) slot := by
  rw [← not_exists, ← exists_fill_iff (d := d)]
  unfold fill
  cases rules.representative? (numbered members) slot with
  | none => simp [eq_comm]
  | some i => simp

/-- In a slot that its first position does not lead, that position is blamed beside the first that it lags. -/
theorem exists_isLeast_of_undominated {slot : Component members.length}
    (ascending : slot.positions.Pairwise (· < ·)) (fails : ¬ rules.Leads members slot.support slot.least) :
    ∃ j, IsLeast {k | k ∈ slot.support ∧ k ≠ slot.least ∧
        rules.dominates (members.get slot.least) (members.get k) = false} j ∧
      rules.undominated (numbered members) slot = ⟨members.get slot.least, members.get j⟩ := by
  obtain ⟨later, ascending⟩ := List.pairwise_cons.mp ascending
  let lags (j : Fin members.length) : Bool := !rules.dominates (members.get slot.least) (members.get j)
  have candidate : (slot.others.find? lags).isSome = true := by
    by_contra none
    have all : ∀ j ∈ slot.others, rules.dominates (members.get slot.least) (members.get j) = true := by
      simpa [lags] using none
    apply fails
    refine ⟨List.mem_cons_self, fun j inside other => ?_⟩
    have dominates := all j ((List.mem_cons.mp inside).resolve_left other)
    exact dominates_iff.mp dominates
  obtain ⟨j, found⟩ := Option.isSome_iff_exists.mp candidate
  obtain ⟨⟨there, undominated⟩, first⟩ := isLeast_of_find? ascending found
  refine ⟨j, ⟨⟨List.mem_cons_of_mem _ there, (later j there).ne', ?_⟩, fun k other => first ?_⟩, ?_⟩
  · simpa [lags] using undominated
  · obtain ⟨inside, different, fails⟩ := other
    exact ⟨(List.mem_cons.mp inside).resolve_left different, by simpa [lags] using fails⟩
  · have second : (slot.others.find? lags).getD slot.least = j := by rw [found, Option.getD_some]
    exact congrArg (fun j => Conflict.mk (members.get slot.least) (members.get j)) second

theorem least_le_of_leaderless {before after : List (Component members.length)}
    {slot : Component members.length} {D : (rules.slotGraph members).ConnectedComponent} {k : Fin members.length}
    (enumerates : Component.Enumerates (rules.slotGraph members) (before ++ slot :: after))
    (led : ∀ earlier ∈ before, ∃ i, rules.Leads members earlier.support i) (fails : rules.Leaderless members D)
    (there : k ∈ D.supp) : slot.least ≤ k := by
  obtain ⟨other, member, support⟩ := enumerates.complete D
  rw [support] at there
  have least : other.least ≤ k := Component.least_le (enumerates.ascending other member) there
  obtain ⟨-, later, -⟩ := List.pairwise_append.mp enumerates.ordered
  rcases List.mem_append.mp member with early | late
  · obtain ⟨i, leads⟩ := led other early
    exact absurd (support ▸ leads) (fails i)
  · rcases List.mem_cons.mp late with rfl | late
    · exact least
    · have lower : slot.least < other.least := (List.pairwise_cons.mp later).1 other late
      omega

theorem blames_of_slots (apart : ∀ k i, ¬ rules.Redeclares declared members k i)
    (reconciled : ∀ i j, ¬ rules.Irreconcilable members i j)
    (failed : (rules.slots (numbered members)).mapM (rules.fill (numbered members) d) = .error c) :
    ∃ i s, rules.Blames declared members i s ∧ c = blamed declared members i s := by
  obtain ⟨before, slot, after, split, fine, here⟩ := exists_of_mapM_eq_error failed
  obtain ⟨leaderless, rfl⟩ := fill_eq_error_iff.mp here
  have enumerates : Component.Enumerates (rules.slotGraph members) (rules.slots (numbered members)) :=
    enumerates_slots
  rw [split] at enumerates
  obtain ⟨C, support⟩ := enumerates.connected slot (by simp)
  obtain ⟨j, other, blamed⟩ := exists_isLeast_of_undominated (enumerates.ascending slot (by simp))
    (leaderless slot.least)
  rw [← support] at other leaderless
  have first : slot.least ∈ C.supp := support ▸ List.mem_cons_self
  have led (earlier : Component members.length) (early : earlier ∈ before) :
      ∃ i, rules.Leads members earlier.support i := exists_fill_iff.mp (fine earlier early)
  have lowest (D) (fails : rules.Leaderless members D) (k) (there : k ∈ D.supp) : slot.least ≤ k :=
    least_le_of_leaderless enumerates led fails there
  exact ⟨slot.least, .inr j, .leaderless apart reconciled leaderless first lowest other, blamed⟩

theorem blames_of_synthesize (failed : rules.synthesize d declared members = .error c) :
    ∃ i s, rules.Blames declared members i s ∧ c = blamed declared members i s := by
  unfold synthesize at failed
  split at failed
  · rename_i met
    obtain rfl := Except.error.inj failed
    rcases Option.or_eq_some_iff.mp met with clash | ⟨free, pair⟩
    · exact blames_of_declaredClash? clash
    · obtain ⟨i, j, least, rfl⟩ := exists_isLeast_of_incompatible? pair
      exact ⟨i, .inr j, .irreconcilable (declaredClash?_eq_none_iff_apart.mp free) least, rfl⟩
  · rename_i none
    obtain ⟨free, apart⟩ := Option.or_eq_none_iff.mp none
    exact blames_of_slots (declaredClash?_eq_none_iff_apart.mp free)
      (incompatible?_eq_none_iff_reconciled.mp apart) failed

/-- A pair is blamed on one account, and on each account there is one. -/
theorem Blames.unique {i j : Fin members.length} {s t : Fin declared.length ⊕ Fin members.length}
    (one : rules.Blames declared members i s) (other : rules.Blames declared members j t) : i = j ∧ s = t := by
  cases one with
  | redeclared base own =>
    obtain ⟨k, clash⟩ := base.1
    cases other with
    | redeclared base' own' =>
      obtain rfl := base.unique base'
      exact ⟨rfl, congrArg Sum.inl (own.unique own')⟩
    | irreconcilable apart => exact absurd clash (apart _ _)
    | leaderless apart => exact absurd clash (apart _ _)
  | irreconcilable apart pair =>
    cases other with
    | redeclared base' =>
      obtain ⟨k, clash⟩ := base'.1
      exact absurd clash (apart _ _)
    | irreconcilable _ pair' =>
      obtain ⟨rfl, rfl⟩ := Prod.mk.inj (toLex.injective (pair.unique pair'))
      exact ⟨rfl, rfl⟩
    | leaderless _ reconciled => exact absurd pair.1 (reconciled _ _)
  | leaderless apart reconciled slot first lowest least =>
    cases other with
    | redeclared base' =>
      obtain ⟨k, clash⟩ := base'.1
      exact absurd clash (apart _ _)
    | irreconcilable _ pair' => exact absurd pair'.1 (reconciled _ _)
    | leaderless _ _ slot' first' lowest' least' =>
      obtain rfl := le_antisymm (lowest _ slot' _ first') (lowest' _ slot _ first)
      obtain rfl := SimpleGraph.ConnectedComponent.eq_of_common_vertex first first'
      exact ⟨rfl, congrArg Sum.inr (least.unique least')⟩

theorem exists_synthesize_iff : (∃ fakes, rules.synthesize d declared members = .ok fakes) ↔
    (∀ k i, ¬ rules.Redeclares declared members k i) ∧ (∀ i j, ¬ rules.Irreconcilable members i j) ∧
      ∀ C, ¬ rules.Leaderless members C := by
  simp only [synthesize_eq_ok_iff, exists_and_left, exists_forall₂_iff, declaredClash?_eq_none_iff_apart,
    incompatible?_eq_none_iff_reconciled, exists_fill_iff, Leaderless, not_forall, not_not]
  refine and_congr_right fun _ => and_congr_right fun _ => ?_
  have enumerates : Component.Enumerates (rules.slotGraph members) (rules.slots (numbered members)) :=
    enumerates_slots
  constructor
  · intro led C
    obtain ⟨slot, member, support⟩ := enumerates.complete C
    exact support ▸ led slot member
  · intro led slot member
    obtain ⟨C, support⟩ := enumerates.connected slot member
    exact support ▸ led C

theorem Blames.reason {i : Fin members.length} {s : Fin declared.length ⊕ Fin members.length}
    (blames : rules.Blames declared members i s) : (∃ k i, rules.Redeclares declared members k i) ∨
      (∃ i j, rules.Irreconcilable members i j) ∨ ∃ C, rules.Leaderless members C := by
  cases blames with
  | redeclared base =>
    obtain ⟨k, clash⟩ := base.1
    exact .inl ⟨k, i, clash⟩
  | irreconcilable _ pair => exact .inr (.inl ⟨_, _, pair.1⟩)
  | leaderless _ _ slot => exact .inr (.inr ⟨_, slot⟩)

theorem exists_synthesize_eq_error_iff : (∃ c, rules.synthesize d declared members = .error c) ↔
    (∃ k i, rules.Redeclares declared members k i) ∨ (∃ i j, rules.Irreconcilable members i j) ∨
      ∃ C, rules.Leaderless members C := by
  constructor
  · rintro ⟨c, failed⟩
    obtain ⟨i, s, blames, -⟩ := blames_of_synthesize failed
    exact blames.reason
  · intro reason
    cases made : rules.synthesize d declared members with
    | error c => exact ⟨c, rfl⟩
    | ok fakes =>
      obtain ⟨free, apart, led⟩ := exists_synthesize_iff.mp ⟨fakes, made⟩
      rcases reason with ⟨k, i, clash⟩ | ⟨i, j, pair⟩ | ⟨C, slot⟩
      · exact absurd clash (free k i)
      · exact absurd pair (apart i j)
      · exact absurd slot (led C)

theorem synthesize_eq_error_iff : rules.synthesize d declared members = .error c ↔
    ∃ i s, rules.Blames declared members i s ∧ c = blamed declared members i s := by
  refine ⟨blames_of_synthesize, ?_⟩
  rintro ⟨i, s, blames, rfl⟩
  obtain ⟨c, failed⟩ := exists_synthesize_eq_error_iff.mpr blames.reason
  obtain ⟨j, t, others, rfl⟩ := blames_of_synthesize failed
  obtain ⟨rfl, rfl⟩ := blames.unique others
  exact failed

/-- Whatever the rules, the outcome of a group is decided by clashes, compatibility and the components that they
make, and a conflict is blamed on the first pair of the first kind there is. -/
theorem decides_resolveGroup (rules : OverrideRules) (d : Declaration) (group : NameGroup) :
    rules.Decides d group (rules.remaining group) := by
  rw [← unmatched_eq_remaining]
  refine ⟨resolveGroup_eq_matched_iff, ?_, fun c => ?_, fun i s blames => ?_, fun c failed => ?_⟩
  · simp only [resolveGroup_eq_conflict_iff, exists_synthesize_eq_error_iff]
    refine (and_iff_right_of_imp ?_).symm
    rintro (⟨k, i, -⟩ | ⟨i, j, -⟩ | ⟨C, -⟩)
    · exact List.ne_nil_of_length_pos i.pos
    · exact List.ne_nil_of_length_pos i.pos
    · obtain ⟨i, -⟩ := C.nonempty_supp
      exact List.ne_nil_of_length_pos i.pos
  · rw [resolveGroup_eq_conflict_iff, synthesize_eq_error_iff]
  · cases blames with
    | redeclared => exact Sum.inl_ne_inr
    | irreconcilable _ pair => exact fun same => pair.1.1.ne (Sum.inr.inj same).symm
    | leaderless _ _ _ _ _ other => exact fun same => other.1.2.1 (Sum.inr.inj same)
  · obtain ⟨i, s, -, rfl⟩ := blames_of_synthesize (resolveGroup_eq_conflict_iff.mp failed)
    exact mem_unmatched.mp (List.get_mem _ i)

/-- The declared member overrides that of `A` alone. Those of `B` and `C` clash and have no declaration in common. -/
theorem decides_resolveGroup_overridden :
    let read (owner result : String) := Member.declare owner .function "read" ⟨[], .named result⟩ .abstract
    let rules : OverrideRules :=
      { overrides := fun a b => (a.ownerName, b.ownerName) = ("D", "A")
        clashes := fun a b => a.ownerName ≠ "D" && b.ownerName ≠ "D" }
    let group : NameGroup := ⟨"read", [read "A" "Any", read "B" "Int", read "C" "Any"], [read "D" "Any"]⟩
    let d := Declaration.named .ordinary "D" ["A", "B", "C"] group.declared
    rules.Decides d group [read "B" "Int", read "C" "Any"] ∧
      rules.resolveGroup d group = .conflict ⟨read "B" "Int", read "C" "Any"⟩ := by
  intro read rules group d
  have remaining : rules.remaining group = [read "B" "Int", read "C" "Any"] := by decide +kernel
  have outcome : rules.resolveGroup d group = .conflict ⟨read "B" "Int", read "C" "Any"⟩ := by decide +kernel
  exact ⟨remaining ▸ decides_resolveGroup rules d group, outcome⟩

end OverrideRules

end Inheritance
