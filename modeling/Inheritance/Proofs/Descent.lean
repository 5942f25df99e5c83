import Inheritance.Proofs.History

/-! Where effective classes come from. Each goes back to its declaration and to the effective classes
of its supertypes, which came about in the same way before it. An induction along this descent needs
no order of registration or completion. -/
namespace Inheritance.Registry

open List (Forall₂)
open Relation (ReflTransGen)

variable {kind : OverrideRules → Prop} {storable : Registry → EffectiveClass → Prop}
  {r r' : Registry} {h : Fingerprint} {d : Declaration} {c : EffectiveClass}

/-- Nothing is lost or replaced on the way to a later registry. -/
structure Grows (r r' : Registry) : Prop where
  declarations : r.declarations <+: r'.declarations
  effective : r.effective <+: r'.effective

theorem Grows.get? (grows : Grows r r') (found : r.get? h = some d) : r'.get? h = some d :=
  grows.declarations.find?_eq_some found

theorem Grows.resolved? (grows : Grows r r') (found : r.resolved? h = some c) :
    r'.resolved? h = some c :=
  grows.effective.find?_eq_some found

theorem Grows.isResolved (grows : Grows r r') (resolved : r.isResolved h = true) : r'.isResolved h = true := by
  obtain ⟨c, found⟩ := Option.isSome_iff_exists.mp resolved
  exact Option.isSome_of_eq_some (grows.resolved? found)

theorem Change.grows (change : Change storable r r') : Grows r r' := by
  cases change with
  | declare => exact ⟨List.prefix_append _ _, List.prefix_rfl⟩
  | store => exact ⟨List.prefix_rfl, List.prefix_append _ _⟩

theorem Grows.of_changes (changes : ReflTransGen (Change storable) r r') : Grows r r' := by
  induction changes with
  | refl => exact ⟨List.prefix_rfl, List.prefix_rfl⟩
  | tail _ change ih =>
    have last := change.grows
    exact ⟨ih.declarations.trans last.declarations, ih.effective.trans last.effective⟩

theorem mem_of_get? (found : r.get? h = some d) : d ∈ r.declarations := List.mem_of_find?_eq_some found

theorem mem_of_resolved? (found : r.resolved? h = some c) : c ∈ r.effective :=
  List.mem_of_find?_eq_some found

theorem fingerprint_of_resolved? (found : r.resolved? h = some c) : c.fingerprint = h := by
  simpa using List.find?_some found

/-- Rules of a kind make the class from its declaration and from supertypes of the same descent. -/
inductive Descends (kind : OverrideRules → Prop) (r : Registry) : EffectiveClass → Prop where
  | made {rules : OverrideRules} {d : Declaration} {supertypes : List EffectiveClass}
      {fakes : List Member} (allowed : kind rules) (registered : r.get? d.fingerprint = some d)
      (valid : d.defect? = none)
      (listed : Forall₂ (fun name c => r.resolvedByName? name = some c) d.supertypes supertypes)
      (computed : rules.fakeOverrides d supertypes = .ok fakes)
      (below : ∀ c ∈ supertypes, Descends kind r c) : Descends kind r (.ofDeclaration d fakes)

theorem Descends.grow (descends : r.Descends kind c) (grows : Grows r r') : r'.Descends kind c := by
  induction descends with
  | made allowed registered valid listed computed _ ih =>
    exact .made allowed (grows.get? registered) valid (listed.imp fun _ _ => grows.resolved?) computed ih

theorem Descends.imp {kind' : OverrideRules → Prop} (imp : ∀ rules, kind rules → kind' rules)
    (descends : r.Descends kind c) : r.Descends kind' c := by
  induction descends with
  | made allowed registered valid listed computed _ ih =>
    exact .made (imp _ allowed) registered valid listed computed ih

theorem nodup_fingerprints (changes : ReflTransGen (Change storable) ∅ r) : r.fingerprints.Nodup := by
  induction changes with
  | refl => exact .nil
  | tail _ change ih =>
    cases change with
    | @declare d _ new =>
      rw [fingerprints, List.map_append]
      refine List.pairwise_append.mpr ⟨ih, List.pairwise_singleton .., fun h old k last same => ?_⟩
      have last : k = d.fingerprint := List.mem_singleton.mp last
      exact new (last ▸ same ▸ old)
    | store => exact ih

/-- No class is registered twice, whatever the operations. -/
theorem Reached.nodup {kind : Operation → Prop} (reached : Reached kind r) : r.fingerprints.Nodup := by
  obtain ⟨history, -, rfl⟩ := reached
  exact nodup_fingerprints (changes_of_performAll history)

/-- What holds between operations: all declarations are valid, all effective classes have a descent. -/
structure Sound (kind : OverrideRules → Prop) (r : Registry) : Prop where
  valid : ∀ d ∈ r.declarations, d.defect? = none
  descends : ∀ c ∈ r.effective, r.Descends kind c

theorem sound_empty : Sound kind ∅ := ⟨nofun, nofun⟩

theorem Sound.change (sound : Sound kind r) (change : Change (Resolvable kind) r r') : Sound kind r' := by
  have grows := change.grows
  cases change with
  | @declare d valid =>
    refine ⟨fun e member => ?_, fun c member => (sound.descends c member).grow grows⟩
    rcases List.mem_append.mp member with old | new
    · exact sound.valid e old
    · exact List.mem_singleton.mp new ▸ valid
  | @store c _ _ ok =>
    refine ⟨sound.valid, fun e member => ?_⟩
    rcases List.mem_append.mp member with old | new
    · exact (sound.descends e old).grow grows
    obtain rfl := List.mem_singleton.mp new
    obtain ⟨rules, d, allowed, found, resolved⟩ := ok
    obtain ⟨supertypes, fakes, listed, made, rfl⟩ := resolve_eq_ok_iff.mp resolved
    refine Descends.grow (.made allowed found (sound.valid d (mem_of_get? found)) listed made ?_) grows
    intro c member
    obtain ⟨name, -, found⟩ := exists_left listed member
    exact sound.descends c (mem_of_resolved? found)

theorem sound_of_reached (reached : Reached (·.Completes kind) r) : Sound kind r := by
  have changes := changes_of_reached reached
  clear reached
  induction changes with
  | refl => exact sound_empty
  | tail _ change sound => exact sound.change change

theorem sound_complete (reached : Reached (·.Completes kind) r) (rules : OverrideRules) (failFast : Bool) :
    Sound (fun _ => True) (r.complete rules failFast).2 := by
  have later : Reached (·.Completes fun _ => True) (r.performAll [.complete rules failFast]) :=
    reached.any.performAll (by simp [Operation.Completes])
  exact sound_of_reached later

end Inheritance.Registry
