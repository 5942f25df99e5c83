import Inheritance.Proofs.Provenance

/-! A class that lists one supertype and declares nothing. It resolves, as the members of a scope do not
clash with each other, and it has a copy of each member of the supertype, regrouped by name. -/
namespace Inheritance

open List (Forall₂)

namespace Member

variable {m fake : Member}

/-- The members differ at most in their owners and in what they directly stand for. -/
structure Alike (a b : Member) : Prop where
  name : a.name = b.name
  kind : a.kind = b.kind
  signature : a.signature = b.signature
  modality : a.modality = b.modality
  roots : a.roots = b.roots

/-- The fake override stands for this member alone. -/
structure CopyOf (fake m : Member) : Prop extends Alike fake m where
  overridden : fake.overridden = [m]

theorem inheritedRoots_singleton (once : m.roots.Nodup) : inheritedRoots [m] = m.roots := by
  rw [inheritedRoots, List.flatMap_singleton, eraseDups_of_nodup once]

end Member

/-- The fake override of a class that stands for one member alone. -/
def Declaration.copy (d : Declaration) (m : Member) : Member := .synthesize d.fingerprint d.name m [m]

theorem Declaration.copyOf_copy {m : Member} (d : Declaration) (once : m.roots.Nodup) : (d.copy m).CopyOf m where
  name := rfl
  kind := rfl
  signature := rfl
  modality := Member.inheritedModality_singleton m
  roots := Member.inheritedRoots_singleton once
  overridden := rfl

namespace OverrideRules

variable {rules : OverrideRules} {d : Declaration} {members inherited : List Member}

theorem fill_alone (i : Fin members.length) :
    rules.fill (numbered members) d ⟨i, []⟩ = .ok (d.copy (members.get i)) := by
  refine fill_eq_ok_iff.mpr ⟨i, ?_, rfl⟩
  simp [representative?, Component.positions]

theorem synthesize_of_apart (apart : members.Pairwise fun a b => rules.clashes a b = false) :
    rules.synthesize d [] members = .ok (members.map d.copy) := by
  have unlinked (i j : Fin members.length) :
      ¬ Component.Joined (fun i j => rules.linked (members.get i) (members.get j)) i j := by
    intro joined
    simp only [Component.Joined, Component.adjacent, linked, Bool.or_eq_true, Bool.and_eq_true,
      decide_eq_true_eq] at joined
    have clear {i j : Fin members.length} (before : i < j) : rules.clashes (members.get i) (members.get j) = false :=
      List.pairwise_iff_getElem.mp apart i j i.isLt j.isLt before
    rcases joined with ⟨before, clash, -⟩ | ⟨before, clash, -⟩
    · exact Bool.noConfusion ((clear before).symm.trans clash)
    · exact Bool.noConfusion ((clear before).symm.trans clash)
  have slots : rules.slots (numbered members) = (List.finRange members.length).map fun i => ⟨i, []⟩ :=
    Component.ofLinks_of_unlinked unlinked
  have numbers : members.map d.copy = (List.finRange members.length).map fun i => d.copy (members.get i) := by
    conv_lhs => rw [← List.map_getElem_finRange members, List.map_map]
    rfl
  refine synthesize_eq_ok_iff.mpr ⟨?_, ?_, ?_⟩
  · simp [declaredClash?_eq_none_iff]
  · refine incompatible?_eq_none_iff.mpr (apart.imp fun clear clash => ?_)
    rw [clear] at clash
    exact Bool.noConfusion clash
  · rw [slots, numbers, List.forall₂_map_left_iff, List.forall₂_map_right_iff, List.forall₂_same]
    exact fun i _ => fill_alone i

theorem fakesFrom_of_apart (bare : d.members = [])
    (apart : inherited.Pairwise fun a b => a.name = b.name → rules.clashes a b = false) :
    rules.fakesFrom d inherited = .ok ((NameGroup.regroup inherited).map d.copy) := by
  have each (name : String) : rules.synthesize d (d.membersNamed name) (rules.unmatchedNamed d inherited name) =
      .ok ((inherited.filter (·.name = name)).map d.copy) := by
    have declared : d.membersNamed name = [] := by simp [Declaration.membersNamed, bare]
    have free : rules.unmatchedNamed d inherited name = inherited.filter (·.name = name) := by
      simp [unmatchedNamed, unmatched, NameGroup.gather, bare]
    rw [declared, free]
    refine synthesize_of_apart ((apart.sublist List.filter_sublist).imp_of_mem fun here there clear => ?_)
    have named := NameGroup.named_filter inherited name
    exact clear ((named _ here).trans (named _ there).symm)
  refine fakesFrom_eq_ok_iff.mpr
    ⟨(NameGroup.names inherited).map fun name => (inherited.filter (·.name = name)).map d.copy, ?_, ?_⟩
  · rw [List.forall₂_map_right_iff, List.forall₂_same]
    exact fun name _ => each name
  · rw [NameGroup.regroup, List.map_flatMap, List.flatMap_def]

end OverrideRules

namespace Registry

open OverrideRules

variable {rules : OverrideRules} {r : Registry} {d : Declaration} {s : EffectiveClass} {name : String}

/-- Whatever the rules for one name: members of one scope are no conflict for a class below. -/
theorem Descends.fakeOverrides_single (descends : r.Descends DefaultClashes s) (defaults : rules.DefaultClashes)
    (bare : d.members = []) :
    rules.fakeOverrides d [s] = .ok ((NameGroup.regroup s.members).map d.copy) := by
  have inherited : aggregate [s] = s.members := List.flatMap_singleton ..
  rw [fakeOverrides, inherited]
  refine fakesFrom_of_apart bare (descends.pairwise_members.imp fun apart same => ?_)
  rw [defaults]
  exact decide_eq_false (apart same)

/-- A class with one supertype and without declared members resolves. Its scope holds a copy of each member of the
supertype. -/
theorem exists_resolve_single (reached : Reached (·.Completes DefaultClashes) r) (defaults : rules.DefaultClashes)
    (stored : r.resolvedByName? name = some s) (single : d.supertypes = [name]) (bare : d.members = []) :
    ∃ c, r.resolve rules d = .ok c ∧ c.scope.declared = [] ∧
      Forall₂ Member.CopyOf c.scope.fakes (NameGroup.regroup s.scope.members) := by
  have descends := (sound_of_reached reached).descends s (mem_of_resolved? stored)
  have listed : Forall₂ (fun name c => r.resolvedByName? name = some c) d.supertypes [s] := by
    rw [single]
    exact .cons stored .nil
  have made := descends.fakeOverrides_single defaults bare
  refine ⟨_, resolve_eq_ok_iff.mpr ⟨[s], _, listed, made, rfl⟩, ?_, ?_⟩
  · rw [EffectiveClass.declared_ofDeclaration, bare]
  rw [EffectiveClass.fakes_ofDeclaration]
  refine List.forall₂_map_left_iff.mpr (List.forall₂_same.mpr fun m member => ?_)
  obtain ⟨_, -, inside⟩ := List.mem_flatMap.mp member
  exact d.copyOf_copy (descends.roots m (List.mem_filter.mp inside).1).2

/-- The scope of `Board` holds two overloads with another member between them, and all but the first are
inherited. -/
def shapes : List Declaration :=
  let draw (owner : String) (params : List TypeRef) := Member.declare owner .function "draw" ⟨params, .unit⟩ .abstract
  [.named .interface "Shape" []
      [.declare "Shape" .property "area" ⟨[], .named "Int"⟩ .abstract, draw "Shape" [], draw "Shape" [.named "Pen"]],
    .named .interface "Board" ["Shape"] [draw "Board" []],
    .named .interface "Blank" ["Board"] []]

def completedShapes : Registry := performAll ∅ [.registerAll shapes, .complete .bySignature false]

theorem reached_shapes {kind : OverrideRules → Prop} (allowed : kind .bySignature) :
    Reached (·.Completes kind) completedShapes :=
  ⟨_, by simp [Operation.Completes, allowed], rfl⟩

theorem exists_resolve_single_board : ∃ s, completedShapes.resolvedByName? "Board" = some s ∧
    s.scope.members.map (·.name) = ["draw", "area", "draw"] ∧
      ∃ c, completedShapes.resolve .bySignature (.named .ordinary "Canvas" ["Board"] []) = .ok c ∧
        c.scope.declared = [] ∧ Forall₂ Member.CopyOf c.scope.fakes (NameGroup.regroup s.scope.members) := by
  have board : ∃ s, completedShapes.resolvedByName? "Board" = some s ∧
      s.scope.members.map (·.name) = ["draw", "area", "draw"] :=
    Option.map_eq_some_iff.mp (by decide +kernel)
  obtain ⟨s, stored, names⟩ := board
  exact ⟨s, stored, names, exists_resolve_single (reached_shapes fun _ _ => rfl) (fun _ _ => rfl) stored rfl rfl⟩

end Registry

end Inheritance
