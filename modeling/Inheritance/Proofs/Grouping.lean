import Inheritance.NameGroup
import Mathlib.Data.List.Basic
import Mathlib.Data.List.Induction

/-! Grouping by name is stable and loses nothing. There is one group for each name, in the order in
which the names are first met, and a group holds all members of its name in their old order. -/
namespace Inheritance

section

variable {α : Type} [DecidableEq α] {l : List α}

theorem eraseDups_concat (l : List α) (a : α) :
    (l ++ [a]).eraseDups = if a ∈ l then l.eraseDups else l.eraseDups ++ [a] := by
  rw [List.eraseDups_append]
  split <;> rename_i h <;> simp [List.removeAll, h, List.eraseDups_cons]

theorem eraseDups_ordered (l : List α) :
    l.eraseDups.Pairwise fun a b => l.idxOf a < l.idxOf b := by
  induction l using List.reverseRecOn with
  | nil => exact .nil
  | append_singleton l a ih =>
    have kept : l.eraseDups.Pairwise fun b c => (l ++ [a]).idxOf b < (l ++ [a]).idxOf c := by
      refine ih.imp_of_mem fun {b c} hb hc before => ?_
      rw [List.mem_eraseDups] at hb hc
      rwa [List.idxOf_append_of_mem hb, List.idxOf_append_of_mem hc]
    rw [eraseDups_concat]
    split
    · exact kept
    · rename_i new
      refine List.pairwise_append.mpr ⟨kept, List.pairwise_singleton .., ?_⟩
      rintro b hb c hc
      obtain rfl := List.mem_singleton.mp hc
      have hb := List.mem_eraseDups.mp hb
      rw [List.idxOf_append_of_mem hb, List.idxOf_append_of_notMem new]
      have := List.idxOf_lt_length_of_mem hb
      omega

theorem nodup_eraseDups (l : List α) : l.eraseDups.Nodup :=
  (eraseDups_ordered l).imp fun before same => by simp [same] at before

theorem eraseDups_of_nodup (distinct : l.Nodup) : l.eraseDups = l := by
  induction l using List.reverseRecOn with
  | nil => rfl
  | append_singleton l a ih =>
    obtain ⟨front, -, apart⟩ := List.nodup_append.mp distinct
    have new : a ∉ l := fun old => apart a old a (List.mem_singleton_self a) rfl
    rw [eraseDups_concat, if_neg new, ih front]

theorem eraseDups_filter (p : α → Bool) (l : List α) : (l.filter p).eraseDups = l.eraseDups.filter p := by
  induction l using List.reverseRecOn with
  | nil => rfl
  | append_singleton l a ih =>
    by_cases kept : p a = true
    · have old : a ∈ l.filter p ↔ a ∈ l := by simp [kept]
      rw [List.filter_append, List.filter_cons_of_pos kept, List.filter_nil, eraseDups_concat,
        eraseDups_concat, ih]
      simp only [old]
      split <;> simp [kept]
    · rw [List.filter_append, List.filter_cons_of_neg kept, List.filter_nil, List.append_nil, ih,
        eraseDups_concat]
      split <;> simp [kept]

theorem eraseDups_append (front l : List α) :
    (front ++ l).eraseDups = front.eraseDups ++ l.eraseDups.filter (· ∉ front) := by
  rw [List.eraseDups_append, List.removeAll, eraseDups_filter]
  simp only [List.elem_eq_mem, decide_not]

theorem eraseDups_flatMap {β : Type} (f : β → List α) (parts : List β) :
    (parts.flatMap fun b => (f b).eraseDups).eraseDups = (parts.flatMap f).eraseDups := by
  induction parts with
  | nil => rfl
  | cons b parts ih =>
    rw [List.flatMap_cons, List.flatMap_cons, eraseDups_append, eraseDups_append, ih,
      eraseDups_of_nodup (nodup_eraseDups _)]
    simp only [List.mem_eraseDups]

end

namespace NameGroup

/-- The names of members, each where it is first met. -/
def names (members : List Member) : List String := (members.map (·.name)).eraseDups

theorem mem_names {members : List Member} {name : String} :
    name ∈ names members ↔ ∃ m ∈ members, m.name = name := by
  simp [names]

theorem nodup_names (members : List Member) : (names members).Nodup := nodup_eraseDups _

/-- The members of one name, in their old order. -/
def gather (inherited declared : List Member) (name : String) : NameGroup :=
  ⟨name, inherited.filter (·.name = name), declared.filter (·.name = name)⟩

theorem insert_map {f : String → List Member} {m : Member} {all : List String} (distinct : all.Nodup) :
    insert m (all.map fun name => ⟨name, f name, []⟩) =
      (all.map fun name => ⟨name, if name = m.name then f name ++ [m] else f name, []⟩) ++
        if m.name ∈ all then [] else [⟨m.name, [m], []⟩] := by
  induction all with
  | nil => simp [insert]
  | cons name all ih =>
    obtain ⟨new, distinct⟩ := List.nodup_cons.mp distinct
    by_cases here : name = m.name
    · have other : ∀ later ∈ all, later ≠ m.name := fun later member same =>
        new ((same.trans here.symm) ▸ member)
      have kept : (all.map fun name => (⟨name, if name = m.name then f name ++ [m] else f name, []⟩ : NameGroup))
          = all.map fun name => ⟨name, f name, []⟩ :=
        List.map_congr_left fun later member => by rw [if_neg (other later member)]
      simp [insert, here, kept]
    · have absent : m.name ∈ name :: all ↔ m.name ∈ all := by simp [Ne.symm here]
      simp [insert, here, ih distinct, absent]

theorem names_concat (members : List Member) (m : Member) :
    names (members ++ [m]) = names members ++ if m.name ∈ names members then [] else [m.name] := by
  have known : m.name ∈ members.map (·.name) ↔ m.name ∈ names members := by simp [names]
  rw [names, List.map_append, List.map_singleton, eraseDups_concat]
  by_cases old : m.name ∈ names members
  · rw [if_pos old, if_pos (known.mpr old), List.append_nil, names]
  · rw [if_neg old, if_neg (mt known.mp old), names]

theorem names_append (l l' : List Member) :
    names (l ++ l') = names l ++ (names l').filter (· ∉ names l) := by
  rw [names, List.map_append, eraseDups_append, ← names, ← names]
  refine congrArg (names l ++ ·) (List.filter_congr fun name _ => ?_)
  have known : name ∈ l.map (·.name) ↔ name ∈ names l := List.mem_eraseDups.symm
  simp only [known]

theorem foldl_insert (inherited : List Member) :
    inherited.foldl (fun groups m => insert m groups) [] =
      (names inherited).map fun name => ⟨name, inherited.filter (·.name = name), []⟩ := by
  induction inherited using List.reverseRecOn with
  | nil => rfl
  | append_singleton inherited m ih =>
    have grown (name : String) : (inherited ++ [m]).filter (·.name = name) =
        if name = m.name then inherited.filter (·.name = name) ++ [m]
        else inherited.filter (·.name = name) := by
      by_cases here : name = m.name
      · simp [here]
      · simp [here, Ne.symm here]
    rw [List.foldl_append, ih, List.foldl_cons, List.foldl_nil, insert_map (nodup_names inherited),
      names_concat, List.map_append]
    simp only [grown]
    by_cases known : m.name ∈ names inherited
    · simp [known]
    · have none : inherited.filter (·.name = m.name) = [] :=
        List.filter_eq_nil_iff.mpr fun other member same =>
          known (mem_names.mpr ⟨other, member, of_decide_eq_true same⟩)
      simp [known, none]

theorem foldl_attach (declared : List Member) (groups : List NameGroup) :
    declared.foldl (fun groups m => attach m groups) groups =
      groups.map fun g => { g with declared := g.declared ++ declared.filter (·.name = g.name) } := by
  induction declared generalizing groups with
  | nil => simp
  | cons m declared ih =>
    rw [List.foldl_cons, ih, attach, List.map_map]
    refine List.map_congr_left fun g _ => ?_
    by_cases here : g.name = m.name
    · simp [here]
    · simp [here, Ne.symm here]

theorem partition_eq (inherited declared : List Member) :
    partition inherited declared = (names inherited).map (gather inherited declared) := by
  rw [partition, foldl_insert, foldl_attach, List.map_map]
  rfl

/-- The members regrouped by name: names in the order in which they are first met, and the members of one
name in their old order. -/
def regroup (members : List Member) : List Member :=
  (names members).flatMap fun name => members.filter (·.name = name)

section

variable {all : List String} {groups : String → List Member} (distinct : all.Nodup)
  (named : ∀ name ∈ all, ∀ m ∈ groups name, m.name = name)

include distinct named

theorem names_flatMap (inhabited : ∀ name ∈ all, groups name ≠ []) : names (all.flatMap groups) = all := by
  induction all with
  | nil => rfl
  | cons name all ih =>
    obtain ⟨new, distinct⟩ := List.nodup_cons.mp distinct
    obtain ⟨first, named⟩ := List.forall_mem_cons.mp named
    obtain ⟨some, inhabited⟩ := List.forall_mem_cons.mp inhabited
    have one : names (groups name) = [name] := by
      obtain ⟨m, rest, split⟩ := List.exists_cons_of_ne_nil some
      rw [split] at first ⊢
      obtain ⟨rfl, same⟩ := List.forall_mem_cons.mp first
      have none : (rest.map (·.name)).filter (fun other => !other == m.name) = [] := by
        simpa [List.filter_eq_nil_iff] using same
      rw [names, List.map_cons, List.eraseDups_cons, none, List.eraseDups_nil]
    have others : all.filter (· ∉ [name]) = all := by
      refine List.filter_eq_self.mpr fun other later => ?_
      simpa using fun same : other = name => new (same ▸ later)
    rw [List.flatMap_cons, names_append, one, ih distinct named inhabited, others, List.singleton_append]

theorem filter_flatMap (name : String) :
    (all.flatMap groups).filter (·.name = name) = if name ∈ all then groups name else [] := by
  induction all with
  | nil => rfl
  | cons other all ih =>
    obtain ⟨new, distinct⟩ := List.nodup_cons.mp distinct
    obtain ⟨first, named⟩ := List.forall_mem_cons.mp named
    rw [List.flatMap_cons, List.filter_append, ih distinct named]
    by_cases here : other = name
    · subst here
      have kept : (groups other).filter (·.name = other) = groups other := by
        simpa [List.filter_eq_self] using first
      simp [kept, new]
    · have dropped : (groups other).filter (·.name = name) = [] := by
        refine List.filter_eq_nil_iff.mpr fun m member => ?_
        simpa [first m member] using here
      simp [dropped, Ne.symm here]

end

variable (members : List Member)

theorem named_filter (name : String) : ∀ m ∈ members.filter (·.name = name), m.name = name :=
  fun _ member => of_decide_eq_true (List.mem_filter.mp member).2

theorem names_regroup : names (regroup members) = names members := by
  refine names_flatMap (nodup_names members) (fun name _ => named_filter members name) fun name known => ?_
  obtain ⟨m, member, named⟩ := mem_names.mp known
  exact List.ne_nil_of_mem (a := m) (List.mem_filter.mpr ⟨member, decide_eq_true named⟩)

theorem filter_regroup (name : String) :
    (regroup members).filter (·.name = name) = members.filter (·.name = name) := by
  rw [regroup, filter_flatMap (nodup_names members) fun name _ => named_filter members name]
  split
  · rfl
  · rename_i unknown
    refine (List.filter_eq_nil_iff.mpr fun m member same => unknown ?_).symm
    exact mem_names.mpr ⟨m, member, of_decide_eq_true same⟩

theorem perm_regroup : (regroup members).Perm members := by
  refine List.perm_iff_count.mpr fun m => ?_
  have among (l : List Member) : l.count m = (l.filter (·.name = m.name)).count m :=
    (List.count_filter (by simp)).symm
  rw [among, among members, filter_regroup]

/-- The groups that members belong in: one for each inherited name, in the order in which the names are first
met. A group holds all members of its name, and nothing inherited is lost. Only declared members whose name is
not inherited are in no group. -/
structure Groups (inherited declared : List Member) (groups : List NameGroup) : Prop where
  named : ∀ name, name ∈ groups.map (·.name) ↔ ∃ m ∈ inherited, m.name = name
  distinct : (groups.map (·.name)).Nodup
  ordered : (groups.map (·.name)).Pairwise fun a b =>
    (inherited.map (·.name)).idxOf a < (inherited.map (·.name)).idxOf b
  inhabited : ∀ g ∈ groups, g.inherited ≠ []
  gathered : ∀ g ∈ groups, g.inherited = inherited.filter (·.name = g.name)
  joined : ∀ g ∈ groups, g.declared = declared.filter (·.name = g.name)
  lossless : (groups.flatMap (·.inherited)).Perm inherited
  omitted : ∀ own ∈ declared, (∀ m ∈ inherited, m.name ≠ own.name) →
    ∀ g ∈ groups, own ∉ g.inherited ∧ own ∉ g.declared

variable {inherited declared : List Member} {groups : List NameGroup}

theorem map_name_partition : (partition inherited declared).map (·.name) = names inherited := by
  rw [partition_eq, List.map_map]
  exact List.map_id (names inherited)

theorem flatMap_inherited_partition :
    (partition inherited declared).flatMap (·.inherited) = regroup inherited := by
  rw [partition_eq, List.flatMap_map]
  rfl

theorem groups_partition : Groups inherited declared (partition inherited declared) := by
  have gathers {g : NameGroup} (member : g ∈ partition inherited declared) :
      g.name ∈ names inherited ∧ g = gather inherited declared g.name := by
    rw [partition_eq] at member
    obtain ⟨name, known, rfl⟩ := List.mem_map.mp member
    exact ⟨known, rfl⟩
  constructor
  case named => exact fun name => map_name_partition ▸ mem_names
  case distinct => exact map_name_partition ▸ nodup_names inherited
  case ordered => exact map_name_partition ▸ eraseDups_ordered (inherited.map (·.name))
  case inhabited =>
    intro g member
    obtain ⟨known, same⟩ := gathers member
    obtain ⟨m, inside, named⟩ := mem_names.mp known
    rw [same]
    exact List.ne_nil_of_mem (a := m) (List.mem_filter.mpr ⟨inside, decide_eq_true named⟩)
  case gathered => exact fun g member => congrArg NameGroup.inherited (gathers member).2
  case joined => exact fun g member => congrArg NameGroup.declared (gathers member).2
  case lossless => exact flatMap_inherited_partition ▸ perm_regroup inherited
  case omitted =>
    intro own _ unmet g member
    obtain ⟨known, same⟩ := gathers member
    obtain ⟨m, inside, named⟩ := mem_names.mp known
    rw [same]
    constructor
    · exact fun held => unmet own (List.mem_of_mem_filter held) rfl
    · exact fun held => unmet m inside (named.trans (named_filter declared g.name own held).symm)

theorem Groups.map_name (described : Groups inherited declared groups) :
    groups.map (·.name) = names inherited := by
  refine List.Perm.eq_of_pairwise (fun a b _ _ before after => ?_) described.ordered
    (eraseDups_ordered (inherited.map (·.name))) ?_
  · omega
  · refine (List.perm_ext_iff_of_nodup described.distinct (nodup_names inherited)).mpr fun name => ?_
    rw [described.named, mem_names]

/-- No other list of groups meets the description. -/
theorem groups_iff : Groups inherited declared groups ↔ groups = partition inherited declared := by
  constructor
  · intro described
    rw [partition_eq, ← described.map_name, List.map_map]
    refine (List.map_id groups).symm.trans (List.map_congr_left fun g member => ?_)
    obtain ⟨name, old, own⟩ := g
    have old' : old = inherited.filter (·.name = name) := described.gathered _ member
    have own' : own = declared.filter (·.name = name) := described.joined _ member
    rw [old', own']
    rfl
  · rintro rfl
    exact groups_partition

end NameGroup

end Inheritance
