import Inheritance.Proofs.PassThrough

/-! An empty class between a class and its supertype makes no difference. It hands down copies of the members of
the supertype, under the same names in the same order, and rules that read names, kinds and signatures cannot
tell a copy from its original. So classes below come to the same, member by member. -/
namespace Inheritance

open List (Forall₂)

namespace Member

variable {a a' b b' : Member} {l l' : List Member} {owner : Fingerprint} {ownerName : String}

theorem Alike.refl (m : Member) : m.Alike m := ⟨rfl, rfl, rfl, rfl, rfl⟩

theorem Alike.symm (alike : a.Alike b) : b.Alike a where
  name := alike.name.symm
  kind := alike.kind.symm
  signature := alike.signature.symm
  modality := alike.modality.symm
  roots := alike.roots.symm

theorem Alike.profile (alike : a.Alike b) : a.profile = b.profile := by
  rw [Member.profile, Member.profile, alike.name, alike.kind, alike.signature]

theorem Alike.sharesRoot (first : a.Alike a') (second : b.Alike b') : a.sharesRoot b = a'.sharesRoot b' := by
  rw [Member.sharesRoot, Member.sharesRoot, first.roots, second.roots]

theorem map_eq_of_alike {β : Type} {f : Member → β} (same : ∀ a b, Alike a b → f a = f b)
    (alike : Forall₂ Alike l l') : l.map f = l'.map f := by
  have images : Forall₂ (· = ·) (l.map f) (l'.map f) := List.rel_map same alike
  rwa [List.forall₂_eq_eq_eq] at images

theorem alike_synthesize (representative : a.Alike b) (overridden : Forall₂ Alike l l') :
    (synthesize owner ownerName a l).Alike (synthesize owner ownerName b l') where
  name := representative.name
  kind := representative.kind
  signature := representative.signature
  modality := by
    have modalities := map_eq_of_alike (fun _ _ alike => alike.modality) overridden
    exact congrArg (fun all => (all.find? (· ≠ .abstract)).getD .abstract) modalities
  roots := by
    have roots := map_eq_of_alike (fun _ _ alike => alike.roots) overridden
    exact congrArg (fun all => all.flatten.eraseDups) roots

end Member

open Member (Alike)

/-- Conflicts of one class over one name. The members in conflict need not be the same. -/
inductive ResolutionError.SameConflict : ResolutionError → ResolutionError → Prop where
  | intro {className name : String} {a b a' b' : Member} :
      SameConflict (.conflict className name a b) (.conflict className name a' b')

namespace NameGroup

variable {l l' m m' : List Member}

/-- The names come in the same order, and the members of each name are alike in the same order. -/
structure Parallel (l l' : List Member) : Prop where
  names : names l = names l'
  alike : ∀ name, Forall₂ Alike (l.filter (·.name = name)) (l'.filter (·.name = name))

theorem Parallel.refl (l : List Member) : Parallel l l :=
  ⟨rfl, fun _ => List.forall₂_same.mpr fun m _ => Alike.refl m⟩

theorem Parallel.append (first : Parallel l l') (second : Parallel m m') : Parallel (l ++ m) (l' ++ m') where
  names := by rw [names_append, names_append, first.names, second.names]
  alike name := by
    rw [List.filter_append, List.filter_append]
    exact List.rel_append (first.alike name) (second.alike name)

/-- Copies of members that are regrouped by name run parallel to them. -/
theorem parallel_copies (d : Declaration) (once : ∀ m ∈ l, m.roots.Nodup) :
    Parallel l ((regroup l).map d.copy) where
  names := by
    have same : ((regroup l).map d.copy).map (·.name) = (regroup l).map (·.name) := List.map_map
    calc NameGroup.names l
      _ = NameGroup.names (regroup l) := (names_regroup l).symm
      _ = NameGroup.names ((regroup l).map d.copy) := congrArg List.eraseDups same.symm
  alike name := by
    have same : ((regroup l).map d.copy).filter (·.name = name) = (l.filter (·.name = name)).map d.copy := by
      rw [← filter_regroup l, List.filter_map]
      rfl
    rw [same, List.forall₂_map_right_iff, List.forall₂_same]
    exact fun m member => (d.copyOf_copy (once m (List.mem_filter.mp member).1)).toAlike.symm

end NameGroup

open NameGroup (Parallel)

namespace OverrideRules

variable {rules : OverrideRules} {d : Declaration} {declared inherited inherited' members members' : List Member}
  {a a' b b' : Member} {name : String}

theorem exists_vectors (alike : Forall₂ Alike members members') : ∃ n, ∃ v v' : Vector Member n,
    v.toList = members ∧ v'.toList = members' ∧ ∀ i, (v.get i).Alike (v'.get i) := by
  refine ⟨members.length, numbered members, ⟨members'.toArray, alike.length_eq.symm⟩, rfl, rfl, fun i => ?_⟩
  exact alike.get i.isLt (alike.length_eq ▸ i.isLt)

theorem synthesize_toList {n : Nat} (v : Vector Member n) : rules.synthesize d declared v.toList =
    match (rules.declaredClash? declared v.toList).or (rules.incompatible? v.toList) with
    | some c => .error c
    | none => (rules.slots v).mapM (rules.fill v d) := by
  obtain ⟨⟨l⟩, rfl⟩ := v
  rfl

/-- Clashing and compatibility are left at their defaults, and overriding reads names, kinds and signatures. -/
structure ReadsProfiles (rules : OverrideRules) : Prop where
  clashes : rules.DefaultClashes
  compatible : ∀ a b, rules.compatible a b =
    (a.sharesRoot b || rules.overrides a b || rules.overrides b a)
  overrides : ∀ {a a' b b'}, a.profile = a'.profile → b.profile = b'.profile →
    rules.overrides a b = rules.overrides a' b'

theorem readsProfiles_bySignature : bySignature.ReadsProfiles where
  clashes _ _ := rfl
  compatible _ _ := rfl
  overrides {a a' b b'} same same' := by
    have result {a b : Member} (same : a.profile = b.profile) : a.signature.result = b.signature.result :=
      congrArg (·.2.2.result) same
    simp only [bySignature, Member.slotFingerprint_eq_of_profile same, Member.slotFingerprint_eq_of_profile same',
      result same, result same']

namespace ReadsProfiles

section

variable (reads : rules.ReadsProfiles) (first : a.Alike a') (second : b.Alike b')

include reads first second

theorem overrides_of_alike : rules.overrides a b = rules.overrides a' b' :=
  reads.overrides first.profile second.profile

theorem clashes_of_alike : rules.clashes a b = rules.clashes a' b' := by
  rw [reads.clashes, reads.clashes, Member.slotFingerprint_eq_of_profile first.profile,
    Member.slotFingerprint_eq_of_profile second.profile]

theorem compatible_of_alike : rules.compatible a b = rules.compatible a' b' := by
  rw [reads.compatible, reads.compatible, first.sharesRoot second, reads.overrides_of_alike first second,
    reads.overrides_of_alike second first]

theorem linked_of_alike : rules.linked a b = rules.linked a' b' := by
  rw [linked, linked, reads.clashes_of_alike first second, reads.compatible_of_alike first second]

theorem dominates_of_alike : rules.dominates a b = rules.dominates a' b' := by
  rw [dominates, dominates, first.sharesRoot second, reads.overrides_of_alike first second]

end

variable (reads : rules.ReadsProfiles)

include reads

theorem clear_of_alike (alike : Forall₂ Alike members members')
    (clear : (rules.declaredClash? declared members).or (rules.incompatible? members) = none) :
    (rules.declaredClash? declared members').or (rules.incompatible? members') = none := by
  rw [Option.or_eq_none_iff, declaredClash?_eq_none_iff, incompatible?_eq_none_iff] at clear ⊢
  obtain ⟨fromDeclared, joined⟩ := clear
  constructor
  · intro base' there own declared
    obtain ⟨base, here, alike⟩ := exists_left alike there
    rw [← reads.clashes_of_alike (.refl own) alike]
    exact fromDeclared base here own declared
  · refine pairwise_right alike joined fun _ _ first second joined clash => ?_
    rw [← reads.clashes_of_alike first second] at clash
    rw [← reads.compatible_of_alike first second]
    exact joined clash

section

variable {n : Nat} {v v' : Vector Member n} (alike : ∀ i, (v.get i).Alike (v'.get i))

include alike

theorem slots_eq : rules.slots v = rules.slots v' := by
  refine congrArg Component.ofLinks (funext fun i => funext fun j => ?_)
  exact reads.linked_of_alike (alike i) (alike j)

theorem representative?_eq (slot : Component n) : rules.representative? v slot = rules.representative? v' slot := by
  unfold representative?
  refine congrArg (List.find? · _) (funext fun i => congrArg (List.all _) (funext fun j => ?_))
  exact congrArg _ (reads.dominates_of_alike (alike i) (alike j))

theorem tallies_fill (slot : Component n) :
    Tallies (fun _ _ => True) Alike (rules.fill v d slot) (rules.fill v' d slot) := by
  unfold fill
  rw [reads.representative?_eq alike]
  split
  · rename_i i _
    refine .ok (Member.alike_synthesize (alike i) ?_)
    rw [List.forall₂_map_left_iff, List.forall₂_map_right_iff, List.forall₂_same]
    exact fun j _ => alike j
  · exact .error trivial

end

/-- Groups of like members fail together or get like fake overrides. -/
theorem tallies_synthesize (alike : Forall₂ Alike members members') : Tallies (fun _ _ => True) (Forall₂ Alike)
    (rules.synthesize d declared members) (rules.synthesize d declared members') := by
  obtain ⟨n, v, v', rfl, rfl, same⟩ := exists_vectors alike
  rw [synthesize_toList, synthesize_toList]
  split
  · rename_i c clash
    split
    · exact .error trivial
    · rename_i clear
      have back : Forall₂ Alike v'.toList v.toList := alike.flip.imp fun _ _ alike => alike.symm
      exact nomatch (reads.clear_of_alike back clear).symm.trans clash
  · rename_i clear
    rw [reads.clear_of_alike alike clear, ← reads.slots_eq same]
    apply tallies_mapM
    rw [List.forall₂_same]
    exact fun slot _ => reads.tallies_fill same slot

theorem alike_unmatchedNamed (parallel : Parallel inherited inherited') (name : String) :
    Forall₂ Alike (rules.unmatchedNamed d inherited name) (rules.unmatchedNamed d inherited' name) := by
  refine List.rel_filter (fun a b alike => ?_) (parallel.alike name)
  have same : (fun own => rules.overrides own a) = fun own => rules.overrides own b :=
    funext fun own => reads.overrides_of_alike (.refl own) alike
  change (!(d.membersNamed name).any fun own => rules.overrides own a) = true ↔
    (!(d.membersNamed name).any fun own => rules.overrides own b) = true
  rw [same]

theorem tallies_fakesFrom (parallel : Parallel inherited inherited') :
    Tallies ResolutionError.SameConflict (Forall₂ Alike) (rules.fakesFrom d inherited)
      (rules.fakesFrom d inherited') := by
  unfold fakesFrom
  rw [NameGroup.partition_eq, NameGroup.partition_eq, ← parallel.names]
  refine Tallies.bind (tallies_mapM (R := Forall₂ Alike) ?_) fun found found' alike => .ok (List.rel_flatten alike)
  rw [List.forall₂_map_left_iff, List.forall₂_map_right_iff, List.forall₂_same]
  intro name _
  rw [toExcept_resolveGroup, toExcept_resolveGroup]
  refine Tallies.mapError (reads.tallies_synthesize ?_) fun _ _ _ => .intro
  exact reads.alike_unmatchedNamed parallel name

end ReadsProfiles

end OverrideRules

namespace Registry

open OverrideRules

variable {rules : OverrideRules} {r : Registry} {d : Declaration} {b c : EffectiveClass} {base relay : String}
  {before after : List String}

theorem Descends.parallel_members (descends : r.Descends DefaultClashes c)
    (stored : r.resolved? b.fingerprint = some b) (single : c.supertypes = [b.fingerprint])
    (bare : c.scope.declared = []) : Parallel b.members c.members := by
  cases descends with
  | @made rules d supertypes fakes defaults _ _ listed computed below =>
    have names : d.supertypes.map Fingerprint.ofName = [b.fingerprint] := single
    obtain ⟨name, alone, same⟩ := List.map_eq_singleton_iff.mp names
    obtain rfl : supertypes = [b] := by
      rw [alone, List.forall₂_cons_left_iff] at listed
      obtain ⟨b', rest, found, none, rfl⟩ := listed
      rw [resolvedByName?, same, stored] at found
      rw [List.forall₂_nil_left_iff.mp none, Option.some.inj found]
    have source := below b (List.mem_singleton_self b)
    have empty : d.members = [] := by rwa [EffectiveClass.declared_ofDeclaration] at bare
    have copies : fakes = (NameGroup.regroup b.members).map d.copy :=
      Except.ok.inj (computed.symm.trans (source.fakeOverrides_single defaults empty))
    rw [EffectiveClass.members_ofDeclaration, empty, copies]
    exact NameGroup.parallel_copies d fun m member => (source.roots m member).2

/-- A class that lists the empty class instead of its supertype resolves just when it did before. It has like fake
overrides in the same order, or fails over the same name. -/
theorem tallies_resolve (reads : rules.ReadsProfiles) (reached : Reached (·.Completes (· = rules)) r)
    (lower : r.resolvedByName? base = some b) (upper : r.resolvedByName? relay = some c)
    (single : c.supertypes = [b.fingerprint]) (bare : c.scope.declared = [])
    (listed : d.supertypes = before ++ base :: after)
    (effective : ∀ name ∈ d.supertypes, r.isResolved (.ofName name) = true) :
    Tallies ResolutionError.SameConflict (fun e e' => Forall₂ Alike e.scope.fakes e'.scope.fakes)
      (r.resolve rules d) (r.resolve rules { d with supertypes := before ++ relay :: after }) := by
  have each (names : List String) (inside : names ⊆ d.supertypes) :
      ∃ classes, Forall₂ (fun name c => r.resolvedByName? name = some c) names classes :=
    exists_forall₂_iff.mpr fun name member => Option.isSome_iff_exists.mp (effective name (inside member))
  obtain ⟨above, first⟩ := each before (by simp [listed])
  obtain ⟨below, last⟩ := each after (by simp [listed])
  have direct : Forall₂ (fun name c => r.resolvedByName? name = some c) d.supertypes (above ++ b :: below) := by
    rw [listed]
    exact List.rel_append first (.cons lower last)
  have indirect : Forall₂ (fun name c => r.resolvedByName? name = some c) (before ++ relay :: after)
      (above ++ c :: below) := List.rel_append first (.cons upper last)
  have descends : r.Descends DefaultClashes c := by
    refine ((sound_of_reached reached).descends c (mem_of_resolved? upper)).imp fun _ same => ?_
    subst same
    exact reads.clashes
  have parallel : Parallel (aggregate (above ++ b :: below)) (aggregate (above ++ c :: below)) := by
    have stored : r.resolved? b.fingerprint = some b := fingerprint_of_resolved? lower ▸ lower
    rw [aggregate, aggregate, List.flatMap_append, List.flatMap_append, List.flatMap_cons, List.flatMap_cons]
    exact (Parallel.refl _).append ((descends.parallel_members stored single bare).append (.refl _))
  rw [resolve_of_listed direct, resolve_of_listed (d := { d with supertypes := before ++ relay :: after }) indirect]
  refine (reads.tallies_fakesFrom parallel).bind fun fakes fakes' alike => .ok ?_
  rwa [EffectiveClass.fakes_ofDeclaration, EffectiveClass.fakes_ofDeclaration]

/-- Lists the shape and one of the classes below it. -/
def screen (supertype : String) : Declaration := .named .ordinary "Screen" ["Shape", supertype] []

theorem tallies_resolve_screen :
    (completedShapes.resolve .bySignature (screen "Board")).toOption.map (·.scope.fakes.length) = some 3 ∧
      Tallies ResolutionError.SameConflict (fun e e' => Forall₂ Alike e.scope.fakes e'.scope.fakes)
        (completedShapes.resolve .bySignature (screen "Board"))
        (completedShapes.resolve .bySignature (screen "Blank")) := by
  have classes : ∃ b ∈ completedShapes.effective, ∃ c ∈ completedShapes.effective,
      completedShapes.resolvedByName? "Board" = some b ∧ completedShapes.resolvedByName? "Blank" = some c ∧
        c.supertypes = [b.fingerprint] ∧ c.scope.declared = [] := by
    decide +kernel
  obtain ⟨b, -, c, -, lower, upper, single, bare⟩ := classes
  have effective : ∀ name ∈ (screen "Board").supertypes, completedShapes.isResolved (.ofName name) = true := by
    decide +kernel
  have listed : (screen "Board").supertypes = ["Shape"] ++ "Board" :: [] := rfl
  exact ⟨by decide +kernel,
    tallies_resolve readsProfiles_bySignature (reached_shapes rfl) lower upper single bare listed effective⟩

end Registry

end Inheritance
