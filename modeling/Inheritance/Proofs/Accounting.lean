import Inheritance.Proofs.Slots

/-! Every inherited member is accounted for by its position: a declared member overrides it, or it
stands in one back-reference list, once. A member that arrives twice has two positions. -/
namespace Inheritance

open List (Forall₂)

namespace Component

variable {n k : Nat}

/-- The component of the same positions under other numbers. -/
def renumber (c : Component n) (f : Fin n → Fin k) : Component k := ⟨f c.least, c.others.map f⟩

@[simp] theorem positions_renumber (c : Component n) (f : Fin n → Fin k) :
    (c.renumber f).positions = c.positions.map f := rfl

end Component

variable {rules : OverrideRules} {d : Declaration} {inherited declared fakes : List Member}
  {fake : Member} {name : String}

/-- The fake override stands for the members at the positions of a slot, which all have its name, and
it takes name, kind and signature from one of them. -/
structure StandsFor (inherited : List Member) (slot : Component inherited.length) (fake : Member) :
    Prop where
  overridden : fake.overridden = slot.positions.map inherited.get
  named : ∀ i ∈ slot.positions, (inherited.get i).name = fake.name
  like : ∃ i ∈ slot.positions, fake.profile = (inherited.get i).profile

/-- A declared member of the same name overrides the inherited member at a position. -/
def Matched (rules : OverrideRules) (d : Declaration) (inherited : List Member)
    (i : Fin inherited.length) : Prop :=
  ∃ own ∈ d.members, own.name = (inherited.get i).name ∧ rules.overrides own (inherited.get i) = true

/-- The first position of a name. -/
def firstMet (inherited : List Member) (name : String) : Nat := (inherited.map (·.name)).idxOf name

/-- The first position of the name decides, and among slots of one name their least positions. -/
def Precedes (inherited : List Member) (s t : Component inherited.length) : Prop :=
  firstMet inherited (inherited.get s.least).name < firstMet inherited (inherited.get t.least).name ∨
    (inherited.get s.least).name = (inherited.get t.least).name ∧ s.least < t.least

/-- The slots of the fake overrides hold every unmatched position once, in ascending order, and no
other position. -/
structure Accounts (rules : OverrideRules) (d : Declaration) (inherited : List Member)
    (slots : List (Component inherited.length)) (fakes : List Member) : Prop where
  standsFor : Forall₂ (StandsFor inherited) slots fakes
  once : (slots.flatMap Component.positions).Nodup
  unmatched : ∀ i, i ∈ slots.flatMap Component.positions ↔ ¬ Matched rules d inherited i
  ascending : ∀ slot ∈ slots, slot.positions.Pairwise (· < ·)
  ordered : slots.Pairwise (Precedes inherited)

/-- The positions of a name that no declared member of the name overrides. -/
def openAt (rules : OverrideRules) (d : Declaration) (inherited : List Member) (name : String) :
    List (Fin inherited.length) :=
  (List.finRange inherited.length).filter fun i =>
    (inherited.get i).name = name ∧ ∀ own ∈ d.membersNamed name, rules.overrides own (inherited.get i) = false

theorem mem_openAt {i : Fin inherited.length} : i ∈ openAt rules d inherited name ↔
    (inherited.get i).name = name ∧ ¬ Matched rules d inherited i := by
  simp only [openAt, List.mem_filter, List.mem_finRange, true_and, decide_eq_true_eq]
  refine and_congr_right ?_
  rintro rfl
  simp [Matched, Declaration.membersNamed]

theorem openAt_ascending : (openAt rules d inherited name).Pairwise (· < ·) :=
  (List.pairwise_lt_finRange _).sublist List.filter_sublist

theorem map_openAt : (openAt rules d inherited name).map inherited.get =
    rules.unmatchedNamed d inherited name := by
  have all : (List.finRange inherited.length).map inherited.get = inherited :=
    List.map_getElem_finRange inherited
  have split : rules.unmatchedNamed d inherited name = inherited.filter fun m =>
      m.name = name ∧ ∀ own ∈ d.membersNamed name, rules.overrides own m = false := by
    rw [OverrideRules.unmatchedNamed, OverrideRules.unmatched, NameGroup.gather, List.filter_filter]
    refine List.filter_congr fun m _ => ?_
    rw [Bool.eq_iff_iff]
    simp [Declaration.membersNamed, and_comm]
  rw [split, openAt]
  conv_rhs => rw [← all, List.filter_map]
  rfl

/-- What the slots of one name are, as positions in the whole list. -/
structure SlotsOf (inherited : List Member) (positions : List (Fin inherited.length))
    (slots : List (Component inherited.length)) : Prop where
  perm : (slots.flatMap Component.positions).Perm positions
  ascending : ∀ slot ∈ slots, slot.positions.Pairwise (· < ·)
  ordered : slots.Pairwise fun s t => s.least < t.least

section

variable {positions : List (Fin inherited.length)}

/-- Where the member at a place of a selection stands in the whole list. -/
def origin (positions : List (Fin inherited.length)) (j : Fin (positions.map inherited.get).length) :
    Fin inherited.length :=
  positions.get (j.cast (List.length_map _))

theorem get_origin (j : Fin (positions.map inherited.get).length) :
    (positions.map inherited.get).get j = inherited.get (origin positions j) := by
  simp [origin]

theorem origin_mem (j : Fin (positions.map inherited.get).length) : origin positions j ∈ positions :=
  List.get_mem _ _

theorem map_origin : (List.finRange _).map (origin positions) = positions :=
  List.ext_getElem (by simp) fun _ _ _ => by simp [origin]

theorem origin_lt (sorted : positions.Pairwise (· < ·)) {i j : Fin (positions.map inherited.get).length}
    (lt : i < j) : origin positions i < origin positions j :=
  List.pairwise_iff_getElem.mp sorted _ _ _ _ lt

theorem slotsOf_renumber (sorted : positions.Pairwise (· < ·)) : SlotsOf inherited positions
    ((rules.slots (numbered (positions.map inherited.get))).map (·.renumber (origin positions))) := by
  refine ⟨?_, fun slot member => ?_, ?_⟩
  · rw [List.flatMap_map]
    simp only [Component.positions_renumber, ← List.map_flatMap]
    exact (Component.perm_ofLinks.map (origin positions)).trans (.of_eq map_origin)
  · obtain ⟨found, inner, rfl⟩ := List.mem_map.mp member
    exact List.pairwise_map.mpr ((Component.ascending inner).imp (origin_lt sorted))
  · exact List.pairwise_map.mpr (Component.ordered.imp (origin_lt sorted))

theorem standsFor_renumber (one : ∀ i ∈ positions, (inherited.get i).name = name)
    {slot : Component (positions.map inherited.get).length}
    (filled : rules.fill (numbered (positions.map inherited.get)) d slot = .ok fake) :
    StandsFor inherited (slot.renumber (origin positions)) fake := by
  obtain ⟨i, represents, rfl⟩ := OverrideRules.exists_represents_of_fill filled
  have like : (Member.synthesize d.fingerprint d.name ((positions.map inherited.get).get i)
      (slot.positions.map (positions.map inherited.get).get)).profile =
        (inherited.get (origin positions i)).profile := by
    rw [Member.profile_synthesize, get_origin]
  refine ⟨?_, fun p member => ?_, origin positions i, List.mem_map_of_mem represents.inside, like⟩
  · rw [Component.positions_renumber, List.map_map]
    exact List.map_congr_left fun j _ => get_origin j
  · rw [Component.positions_renumber] at member
    obtain ⟨j, -, rfl⟩ := List.mem_map.mp member
    rw [Member.name_eq_of_profile like, one _ (origin_mem i), one _ (origin_mem j)]

/-- Slots found among members that stand at ascending positions are slots of those positions. -/
theorem exists_slotsOf (sorted : positions.Pairwise (· < ·))
    (one : ∀ i ∈ positions, (inherited.get i).name = name)
    (made : rules.synthesize d declared (positions.map inherited.get) = .ok fakes) :
    ∃ slots, SlotsOf inherited positions slots ∧ Forall₂ (StandsFor inherited) slots fakes := by
  obtain ⟨-, -, filled⟩ := OverrideRules.synthesize_eq_ok_iff.mp made
  have stands := filled.imp fun slot fake filled => standsFor_renumber one filled
  exact ⟨_, slotsOf_renumber sorted, List.forall₂_map_left_iff.mpr stands⟩

end

theorem exists_slots_of_names {names : List String} {found : List (List Member)}
    (made : Forall₂ (fun name fakes =>
      rules.synthesize d (d.membersNamed name) (rules.unmatchedNamed d inherited name) = .ok fakes)
      names found) :
    ∃ slots, Forall₂ (fun name slots => SlotsOf inherited (openAt rules d inherited name) slots) names slots ∧
      Forall₂ (Forall₂ (StandsFor inherited)) slots found := by
  induction made with
  | nil => exact ⟨[], .nil, .nil⟩
  | cons first _ ih =>
    obtain ⟨later, those, these⟩ := ih
    rw [← map_openAt] at first
    obtain ⟨slots, this, stands⟩ :=
      exists_slotsOf openAt_ascending (fun i member => (mem_openAt.mp member).1) first
    exact ⟨slots :: later, .cons this those, .cons stands these⟩

theorem perm_slots {names : List String} {slots : List (List (Component inherited.length))}
    (all : Forall₂ (fun name slots => SlotsOf inherited (openAt rules d inherited name) slots) names slots) :
    (slots.flatten.flatMap Component.positions).Perm (names.flatMap (openAt rules d inherited)) := by
  induction all with
  | nil => exact .nil
  | cons first _ ih =>
    rw [List.flatten_cons, List.flatMap_append, List.flatMap_cons]
    exact first.perm.append ih

theorem nodup_openAt {names : List String} (distinct : names.Nodup) :
    (names.flatMap (openAt rules d inherited)).Nodup := by
  refine List.pairwise_flatMap.mpr ⟨fun name _ => openAt_ascending.imp Fin.ne_of_lt, ?_⟩
  refine distinct.imp fun different i here j there same => different ?_
  subst same
  exact (mem_openAt.mp here).1.symm.trans (mem_openAt.mp there).1

/-- Whatever the rules, a class that has fake overrides accounts for all that it inherits. -/
theorem exists_accounts {supertypes : List EffectiveClass}
    (made : rules.fakeOverrides d supertypes = .ok fakes) :
    ∃ slots, Accounts rules d (aggregate supertypes) slots fakes := by
  obtain ⟨found, parts, rfl⟩ := OverrideRules.fakesFrom_eq_ok_iff.mp made
  obtain ⟨slots, those, stands⟩ := exists_slots_of_names parts
  have name_of {name slots} (this : SlotsOf _ (openAt rules d (aggregate supertypes) name) slots) {slot}
      (member : slot ∈ slots) {i} (here : i ∈ slot.positions) : ((aggregate supertypes).get i).name = name :=
    (mem_openAt.mp (this.perm.subset (List.mem_flatMap.mpr ⟨slot, member, here⟩))).1
  refine ⟨slots.flatten, List.rel_flatten stands, ?_, fun i => ?_, ?_, ?_⟩
  · exact (perm_slots those).nodup_iff.mpr (nodup_openAt (nodup_eraseDups _))
  · have met : ((aggregate supertypes).get i).name ∈ NameGroup.names (aggregate supertypes) :=
      NameGroup.mem_names.mpr ⟨_, List.getElem_mem _, rfl⟩
    rw [(perm_slots those).mem_iff, List.mem_flatMap]
    simp only [mem_openAt]
    exact ⟨fun ⟨_, _, _, h⟩ => h, fun h => ⟨_, met, rfl, h⟩⟩
  · intro slot member
    obtain ⟨list, inside, here⟩ := List.mem_flatten.mp member
    obtain ⟨name, -, this⟩ := exists_left those inside
    exact this.ascending slot here
  · refine List.pairwise_flatten.mpr ⟨fun list inside => ?_, ?_⟩
    · obtain ⟨name, -, this⟩ := exists_left those inside
      refine this.ordered.imp_of_mem fun here there before => .inr ⟨?_, before⟩
      exact (name_of this here List.mem_cons_self).trans (name_of this there List.mem_cons_self).symm
    · refine pairwise_right those (eraseDups_ordered _) fun _ _ this that before s here t there => .inl ?_
      rwa [name_of this here List.mem_cons_self, name_of that there List.mem_cons_self]

/-- A member that a class inherits through two supertypes stands twice in one list, and the one that the
class overrides stands in none. -/
theorem exists_accounts_twice :
    let run (owner : String) := Member.declare owner .function "run" ⟨[], .unit⟩ .abstract
    let stop (owner : String) := Member.declare owner .function "stop" ⟨[], .unit⟩ .overridable
    let task := EffectiveClass.ofDeclaration (.named .interface "Task" [] [run "Task", stop "Task"]) []
    let job := Declaration.named .ordinary "Job" ["Task"] [stop "Job"]
    let fakes := [Member.synthesize job.fingerprint "Job" (run "Task") [run "Task", run "Task"]]
    OverrideRules.bySignature.fakeOverrides job [task, task] = .ok fakes ∧
      ∃ slots, Accounts .bySignature job (aggregate [task, task]) slots fakes :=
  ⟨by decide +kernel, exists_accounts (by decide +kernel)⟩

end Inheritance
