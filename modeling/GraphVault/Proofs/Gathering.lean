import GraphVault.Proofs.Coherence
import GraphVault.Proofs.CompleteCopies
import GraphVault.Proofs.DecoderSoundness
import GraphVault.Proofs.Fitting

/-!
# Gathering vertex sets

To read an entity a store needs the vertex sets that it refers to. It has each of them in memory or
in a copy, or else makes one of an exchange copy. Whichever way it goes, it comes to the same vertex
sets, and what fits them is registered along with them.
-/

namespace GraphVault

open Disk

namespace Vault

-- What these do is known from what they yield, so that they need not be looked into.
attribute [local irreducible] EntityDirectory.read EntityDirectory.contains

variable {vault now after : Vault} {guid r : Guid} {entity : Entity} {set set' : VertexSet}
  {load : Guid → VaultM Entity}

/-- A store with an entity more in memory. -/
def insert (vault : Vault) (guid : Guid) (entity : Entity) : Vault :=
  { vault with entities := vault.entities.insert guid entity }

@[simp] theorem get?_insert_self (vault : Vault) (guid : Guid) (entity : Entity) :
    (vault.insert guid entity).get? guid = some entity := SortedMap.get?_insert_self _ _ _

@[simp] theorem get?_insert_of_ne (vault : Vault) (entity : Entity) (h : r ≠ guid) :
    (vault.insert guid entity).get? r = vault.get? r := SortedMap.get?_insert_of_ne _ _ h

theorem has_iff : vault.has guid ↔ ∃ entity, vault.get? guid = some entity := by
  rw [has, SortedMap.contains, Option.isSome_iff_exists]
  rfl

/-- A store knows nothing of a guid. -/
def Lacks (vault : Vault) (guid : Guid) : Prop :=
  vault.get? guid = none ∧ vault.hasPersisted guid = false

/-- A store has a copy of a vertex set, which refers to nothing. -/
def Stores (vault : Vault) (guid : Guid) (set : VertexSet) : Prop :=
  ∃ stored, EntityDirectory.read vault.disk vault.settings.dataDir guid = .ok stored ∧
    stored.manifest.references = [] ∧ Ordered.decode stored vault.registered = .ok (.vertexSet set)

/-- A store has a vertex set under a guid: in memory, or else in a copy. -/
def HasSet (vault : Vault) (guid : Guid) (set : VertexSet) : Prop :=
  vault.get? guid = some (.vertexSet set) ∨ vault.get? guid = none ∧ vault.Stores guid set

theorem HasSet.eq (h : vault.HasSet r set) (h' : vault.HasSet r set') : set' = set := by
  rcases h with hget | ⟨hnone, stored, hread, -, hdecode⟩ <;>
    rcases h' with hget' | ⟨hnone', stored', hread', -, hdecode'⟩
  · rw [hget] at hget'
    cases hget'
    rfl
  · rw [hget] at hnone'
    cases hnone'
  · rw [hget'] at hnone
    cases hnone
  · rw [hread] at hread'
    cases hread'
    rw [hdecode] at hdecode'
    cases hdecode'
    rfl

theorem Stores.hasPersisted (h : vault.Stores r set) : vault.hasPersisted r := by
  obtain ⟨stored, hread, -⟩ := h
  exact contains_of_read hread

theorem HasSet.not_lacks (h : vault.HasSet r set) : ¬ vault.Lacks r := by
  rintro ⟨hnone, hpersisted⟩
  rcases h with hget | ⟨-, hstores⟩
  · rw [hget] at hnone
    cases hnone
  · rw [hstores.hasPersisted] at hpersisted
    cases hpersisted

/-! ### Finding one vertex set -/

/-- No vertex sets at all, which is enough to read one. -/
def noSets (guid : Guid) : Except Failure VertexSet := .error (.missingEntity guid)

theorem follows_noSets (resolve : Guid → VaultM VertexSet) (now : Vault) (g : Guid) :
    Follows (· = now) (fun _ => False) (noSets g) (resolve g) := nofun

theorem Stores.congr (h : vault.Stores r set) (hdisk : now.disk = vault.disk)
    (hsettings : now.settings = vault.settings) : now.Stores r set := by
  obtain ⟨stored, hread, hreferences, hdecode⟩ := h
  rw [← hdisk, ← hsettings] at hread
  refine ⟨stored, hread, hreferences, Ordered.decode_congr hdecode ?_⟩
  rw [hreferences]
  exact nofun

/-- Loading a vertex set from its copy registers it, and does nothing else. -/
def LoadsSets (load : Guid → VaultM Entity) : Prop :=
  ∀ now r set, now.get? r = none → now.Stores r set → set.mapping.Nodup →
    Yields (load r) now
      (fun found after => found = .vertexSet set ∧ after = now.insert r (.vertexSet set))
      fun _ _ => False

/-- A vertex set that is read is registered. -/
theorem putWith_vertexSet (hnone : now.get? r = none) (hnodup : set.mapping.Nodup)
    (find : Guid → VaultM Entity) :
    Yields (putWith find r (.vertexSet set)) now
      (fun found after => found = .vertexSet set ∧ after = now.insert r (.vertexSet set))
      fun _ _ => False := by
  have hvalid : set.validate r = .ok () := VertexSet.validate_eq_ok_iff.2 hnodup
  simp only [putWith, Entity.validate, hvalid, yields_bind, yields_ofExcept_ok, register,
    yields_get, hnone]
  exact ⟨rfl, rfl⟩

theorem loadsSets_loadWithin (fuel : Nat) : LoadsSets (loadWithin (fuel + 1)) := by
  intro now r set hnone hstores hnodup
  obtain ⟨stored, hread, hreferences, hdecode⟩ := hstores
  have hplain : Ordered.decode stored noSets = .ok (.vertexSet set) := by
    apply Ordered.decode_congr hdecode
    rw [hreferences]
    exact nofun
  have hfollows := Ordered.follows_decode (follows_noSets vertexSet now) stored _ hplain
  rw [loadWithin]
  simp only [yields_bind, yields_get, hread, yields_ofExcept_ok, hreferences]
  apply (hfollows.yields now rfl).mono ?_ fun _ _ hfalse => hfalse.2
  rintro found after ⟨rfl, rfl⟩
  exact putWith_vertexSet hnone hnodup _

theorem loadsSets_load : LoadsSets Vault.load := by
  intro now r set hnone hstores hnodup
  rw [Vault.load, yields_bind, yields_get, depth]
  exact loadsSets_loadWithin _ now r set hnone hstores hnodup

theorem findWith_of_registered (h : now.get? r = some entity) :
    Yields (findWith load r) now (fun found after => found = entity ∧ after = now)
      fun _ _ => False := by
  simp only [findWith, yields_bind, yields_get, h]
  exact ⟨rfl, rfl⟩

/-- A vertex set is found in memory, or else is in memory once it is found. -/
theorem findWith_of_hasSet (hload : LoadsSets load) (h : now.HasSet r set)
    (hnodup : set.mapping.Nodup) :
    Yields (findWith load r) now
      (fun found after => found = .vertexSet set ∧
        (after = now ∧ now.get? r = some (.vertexSet set) ∨
          now.get? r = none ∧ after = now.insert r (.vertexSet set))) fun _ _ => False := by
  cases h with
  | inl hget =>
    apply (findWith_of_registered hget).mono ?_ fun _ _ hfalse => hfalse
    rintro found after ⟨rfl, rfl⟩
    exact ⟨rfl, .inl ⟨rfl, hget⟩⟩
  | inr hcopy =>
    obtain ⟨hnone, hstores⟩ := hcopy
    simp only [findWith, yields_bind, yields_get, hnone, hstores.hasPersisted, if_true]
    apply (hload now r set hnone hstores hnodup).mono ?_ fun _ _ hfalse => hfalse
    intro found after hfound
    exact ⟨hfound.1, .inr ⟨trivial, hfound.2⟩⟩

/-- What is registered is found without any work. -/
theorem follows_registered (now : Vault) (guid : Guid) :
    Follows (· = now) (fun _ => False) (now.registered guid) (resolve guid) := by
  intro set hset
  constructor
  rintro vault rfl
  rw [resolve, resolveWith, getOrLoad, yields_bind]
  apply (findWith_of_registered (registered_eq_ok_iff.1 hset)).mono
  · rintro found after ⟨rfl, rfl⟩
    exact ⟨rfl, rfl⟩
  · exact fun _ _ hfalse => hfalse.elim

/-- An entity that fits what is registered is registered under a free guid. -/
theorem put_of_fits (hnone : now.get? guid = none) (hfits : entity.Fits now.registered) :
    Yields (put guid entity) now (fun _ after => after = now.insert guid entity)
      fun _ _ => False := by
  have hfollows := Entity.follows_validate (fun g _ => follows_registered now g) guid ()
    (Entity.validate_eq_ok_iff.2 hfits)
  rw [put, putWith, yields_bind]
  apply (hfollows.yields now rfl).mono ?_ fun _ _ hfalse => hfalse.2
  rintro - after ⟨rfl, -⟩
  simp only [register, yields_bind, yields_get, hnone]
  rfl

/-! ### Finding several vertex sets -/

/-- The vertex sets that a store needs for an entity: those that it lacks can be made of exchange
copies. -/
structure Supplied (vault : Vault) (guid : Guid) (refs : List Guid)
    (target : Guid → VertexSet) : Prop where
  foreign : guid ∉ refs
  distinct : ∀ r ∈ refs, (target r).mapping.Nodup
  staged : ∀ r ∈ refs, vault.Lacks r → ∃ stored,
    EntityDirectory.read vault.disk vault.settings.unorderedDir r = .ok stored ∧
      stored.manifest.references = [] ∧
      Unordered.decode stored noSets = .ok (.vertexSet (target r))

/-- While a store gathers vertex sets, nothing else is registered, and those that are settled can be
found without an exchange copy. -/
structure Gathering (vault : Vault) (guid : Guid) (refs : List Guid)
    (target : Guid → VertexSet) (settled : List Guid) (now : Vault) : Prop where
  disk : now.disk = vault.disk
  settings : now.settings = vault.settings
  free : now.get? guid = none
  sets : ∀ r ∈ refs, now.HasSet r (target r) ∨ now.get? r = none ∧ r ∉ settled ∧ vault.Lacks r

section Gathering

variable {refs settled : List Guid} {target : Guid → VertexSet}

theorem Gathering.insert (h : Gathering vault guid refs target settled now)
    (hforeign : guid ∉ refs) (hr : r ∈ refs) :
    Gathering vault guid refs target (r :: settled) (now.insert r (.vertexSet (target r))) := by
  have hne : guid ≠ r := by
    intro heq
    exact hforeign (heq ▸ hr)
  refine ⟨h.disk, h.settings, (get?_insert_of_ne now _ hne).trans h.free, fun x hx => ?_⟩
  by_cases heq : x = r
  · subst heq
    exact .inl (.inl (get?_insert_self now x _))
  · unfold HasSet
    rw [get?_insert_of_ne now _ heq, List.mem_cons, not_or]
    apply (h.sets x hx).imp
    · exact fun hset => hset.imp id fun hcopy => ⟨hcopy.1, hcopy.2.congr rfl rfl⟩
    · exact fun hlacks => ⟨hlacks.1, ⟨heq, hlacks.2.1⟩, hlacks.2.2⟩

/-- What is there counts as settled. -/
theorem Gathering.settle (h : Gathering vault guid refs target settled now)
    (hr : now.HasSet r (target r)) : Gathering vault guid refs target (r :: settled) now := by
  refine ⟨h.disk, h.settings, h.free, fun x hx => ?_⟩
  by_cases heq : x = r
  · exact .inl (heq ▸ hr)
  · rw [List.mem_cons, not_or]
    exact (h.sets x hx).imp id fun hlacks => ⟨hlacks.1, ⟨heq, hlacks.2.1⟩, hlacks.2.2⟩

theorem Gathering.hasSet (h : Gathering vault guid refs target settled now) (hr : r ∈ refs)
    (hsettled : r ∈ settled) : now.HasSet r (target r) :=
  (h.sets r hr).resolve_right fun hlacks => hlacks.2.1 hsettled

/-- Once it is settled, a vertex set is found, and then it is in memory. -/
theorem Gathering.find (h : Gathering vault guid refs target settled now)
    (hsupplied : Supplied vault guid refs target) (hload : LoadsSets load) (hr : r ∈ refs)
    (hsettled : r ∈ settled) :
    Yields (findWith load r) now
      (fun found after => found = .vertexSet (target r) ∧
        Gathering vault guid refs target settled after ∧
        after.get? r = some (.vertexSet (target r)) ∧
        ∀ x e, now.get? x = some e → after.get? x = some e) fun _ _ => False := by
  have hset := h.hasSet hr hsettled
  apply (findWith_of_hasSet hload hset (hsupplied.distinct r hr)).mono ?_ fun _ _ hfalse => hfalse
  rintro found after ⟨hfound, ⟨rfl, hget⟩ | ⟨hnone, rfl⟩⟩
  · exact ⟨hfound, h, hget, fun _ _ he => he⟩
  · have hinsert := h.insert hsupplied.foreign hr
    refine ⟨hfound, ⟨h.disk, h.settings, hinsert.free, fun x hx => ?_⟩, get?_insert_self _ _ _, ?_⟩
    · apply (hinsert.sets x hx).imp id
      exact fun hlacks =>
        ⟨hlacks.1, fun hmem => hlacks.2.1 (List.mem_cons_of_mem r hmem), hlacks.2.2⟩
    · intro x e he
      have hne : x ≠ r := by
        rintro rfl
        rw [hnone] at he
        cases he
      rw [get?_insert_of_ne now _ hne, he]

/-- The vertex sets that a store ends with. -/
def finals (refs : List Guid) (target : Guid → VertexSet) (guid : Guid) :
    Except Failure VertexSet :=
  if guid ∈ refs then .ok (target guid) else .error (.missingEntity guid)

theorem finals_of_mem (hr : r ∈ refs) : finals refs target r = .ok (target r) := if_pos hr

theorem follows_finals (hsupplied : Supplied vault guid refs target) (hload : LoadsSets load)
    (hsettled : ∀ x ∈ refs, x ∈ settled) (r : Guid) :
    Follows (Gathering vault guid refs target settled) (fun _ => False) (finals refs target r)
      (resolveWith (findWith load) r) := by
  intro set hset
  unfold finals at hset
  split at hset
  · rename_i hr
    rw [Except.ok.injEq] at hset
    constructor
    intro before h
    rw [resolveWith, yields_bind]
    apply (h.find hsupplied hload hr (hsettled r hr)).mono ?_ fun _ _ hfalse => hfalse.elim
    rintro found after ⟨rfl, hafter, -⟩
    exact ⟨hafter, hset⟩
  · cases hset

/-- What fits the vertex sets that are settled is registered with them. -/
theorem Gathering.put (h : Gathering vault guid refs target settled now)
    (hsupplied : Supplied vault guid refs target) (hload : LoadsSets load) (hfinds : Finds load)
    (hsettled : ∀ x ∈ refs, x ∈ settled) (hfits : entity.Fits (finals refs target)) :
    Yields (putWith (findWith load) guid entity) now
      (fun found after => found = entity ∧ after.get? guid = some entity ∧
        ∀ x ∈ refs, x ∈ entity.references → after.registered x = .ok (target x))
      fun _ _ => False := by
  have hfollows := Entity.follows_validate
    (fun x _ => follows_finals hsupplied hload hsettled x) guid ()
    (Entity.validate_eq_ok_iff.2 hfits)
  have hvalid := (hfollows.yields now h).and
    (validate_yields (finds_findWith hfinds) entity guid now)
  rw [putWith, yields_bind]
  apply hvalid.mono ?_ fun _ _ hfalse => hfalse.1.2
  rintro - after ⟨⟨hafter, -⟩, -, hregistered⟩
  simp only [register, yields_bind, yields_get, hafter.free]
  refine ⟨rfl, get?_insert_self after guid entity, fun x hx hreference => ?_⟩
  have hne : x ≠ guid := by
    intro heq
    exact hsupplied.foreign (heq ▸ hx)
  -- the check has brought the vertex sets into memory
  obtain ⟨set, hset⟩ := hregistered.resolved hreference
  have hget := registered_eq_ok_iff.1 hset
  have hfinal : after.HasSet x (target x) := hafter.hasSet hx (hsettled x hx)
  rw [registered_eq_ok_iff]
  apply (get?_insert_of_ne after entity hne).trans
  rw [hget, hfinal.eq (.inl hget)]

end Gathering

end Vault

end GraphVault
