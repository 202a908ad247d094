import GraphVault.Proofs.Additions

/-!
# Entities never change

In a store that rejects collisions, an entity that is registered stays just as it is until it is
dropped. Nothing else is ever found under its guid, neither on disk nor in an exchange copy, and
what is offered in its place is refused unless it has the same content.
-/

namespace GraphVault

-- Nothing depends on what these come to.
attribute [local irreducible] EntityDirectory.read EntityDirectory.write EntityDirectory.remove
  EntityDirectory.contains

variable {registry : Registry} {vault : Vault} {guid : Guid} {entity offered : Entity}

namespace Vault

/-- A store keeps its settings, and the entities in memory if it rejects collisions. -/
structure Preserves (before after : Vault) : Prop where
  settings : after.settings = before.settings
  entities : before.settings.collision = .reject →
    ∀ guid entity, before.get? guid = some entity → after.get? guid = some entity

namespace Preserves

instance : Std.Refl Preserves := ⟨fun _ => ⟨rfl, fun _ _ _ h => h⟩⟩

instance : Trans Preserves Preserves Preserves where
  trans hab hbc := by
    refine ⟨hbc.settings.trans hab.settings, fun hreject guid entity h => ?_⟩
    exact hbc.entities (hab.settings ▸ hreject) guid entity (hab.entities hreject guid entity h)

private theorem onDisk {α : Type} (work : DiskM α) : Moves Preserves (onDisk work) := by
  intro vault
  unfold Yields Vault.onDisk
  cases work.run vault.disk with
  | ok a disk => exact ⟨rfl, fun _ _ _ h => h⟩
  | error failure disk => exact ⟨rfl, fun _ _ _ h => h⟩

/-- An entity is registered only where there is none yet. -/
private theorem register (guid : Guid) (entity : Entity) :
    Moves Preserves (register guid entity) := by
  intro vault
  simp only [Vault.register, yields_bind, yields_get]
  split
  · split
    · exact Std.Refl.refl vault
    · split
      · exact Std.Refl.refl vault
      · rename_i hmay
        refine ⟨rfl, fun hreject => ?_⟩
        simp [mayReplace, hreject] at hmay
  · rename_i hnone
    refine ⟨rfl, fun _ g other hother => ?_⟩
    have hne : g ≠ guid := by
      rintro rfl
      rw [hnone] at hother
      cases hother
    exact (SortedMap.get?_insert_of_ne _ _ hne).trans hother

private theorem write (root : Settings → String) (stored : Stored) :
    Moves Preserves (do Vault.write (root (← get).settings) stored) :=
  .bind .get fun _ => .bind (onDisk _) fun _ => .pure _

theorem additive : Additive Preserves where
  register := register
  writeData := write (·.dataDir)
  writeExchange := write (·.unorderedDir)
  modifyCatalog change := by
    intro vault
    rw [Vault.modifyCatalog, yields_modify]
    split
    · exact Std.Refl.refl vault
    · exact ⟨rfl, fun _ _ _ h => h⟩

end Preserves

/-- Work ends as its last step does, if it does not fail before. -/
theorem yields_of_last {α β : Type} {work : VaultM α} {next : α → VaultM β}
    {post : β → Vault → Prop} (hnext : ∀ a now, Yields (next a) now post fun _ _ => True)
    (vault : Vault) : Yields (work >>= next) vault post fun _ _ => True := by
  rw [yields_bind]
  unfold Yields
  cases work vault with
  | ok a now => exact hnext a now
  | error failure now => trivial

private theorem put_yields (guid : Guid) (offered : Entity) (vault : Vault) :
    Yields (put guid offered) vault (fun found after => after.get? guid = some found)
      fun _ _ => True :=
  (putWith_yields finds_getOrLoad guid offered vault).mono (fun _ _ h => h.2) fun _ _ _ => trivial

/-- What is imported is registered. -/
private theorem importUnordered_yields (guid : Guid) (vault : Vault) :
    Yields (importUnordered guid) vault (fun found after => after.get? guid = some found)
      fun _ _ => True := by
  have himport (fuel : Nat) (vault : Vault) : Yields (importWithin fuel guid) vault
      (fun found after => after.get? guid = some found) fun _ _ => True := by
    cases fuel with
    | zero => trivial
    | succ fuel =>
      exact yields_of_last (fun vault => yields_of_last fun stored => yields_of_last fun _ =>
        yields_of_last fun entity => put_yields guid entity) vault
  exact yields_of_last (fun now : Vault => himport now.depth) vault

/-- The ways in which an entity is asked for, or is brought in. -/
def retrievals (guid : Guid) (offered : Entity) : List (VaultM Entity) :=
  [put guid offered, load guid, getOrLoad guid, importUnordered guid]

/-- What is answered is registered. -/
private theorem retrievals_yield {work : VaultM Entity} (h : work ∈ retrievals guid offered)
    (vault : Vault) :
    Yields work vault (fun found after => after.get? guid = some found) fun _ _ => True := by
  have hfinds {find : Guid → VaultM Entity} (hfind : Finds find) :
      Yields (find guid) vault (fun found after => after.get? guid = some found) fun _ _ => True :=
    (hfind guid vault).mono (fun _ _ h => h.2) fun _ _ _ => trivial
  simp only [retrievals, List.mem_cons, List.not_mem_nil, or_false] at h
  rcases h with rfl | rfl | rfl | rfl
  · exact put_yields guid offered vault
  · exact hfinds finds_load
  · exact hfinds finds_getOrLoad
  · exact importUnordered_yields guid vault

private theorem retrievals_move {work : VaultM Entity} (h : work ∈ retrievals guid offered) :
    Moves Preserves work := by
  simp only [retrievals, List.mem_cons, List.not_mem_nil, or_false] at h
  rcases h with rfl | rfl | rfl | rfl
  · exact Preserves.additive.moves_put guid offered
  · exact Preserves.additive.moves_load guid
  · exact Preserves.additive.moves_getOrLoad guid
  · exact .bind .get fun _ => Preserves.additive.moves_importWithin _ guid

/-- Whatever way is taken to an entity that is registered, it leads to this entity. -/
theorem retrieved_eq (hreject : vault.settings.collision = .reject)
    (hentity : vault.get? guid = some entity) {work : VaultM Entity}
    (hwork : work ∈ retrievals guid offered) {found : Entity} {last : Vault}
    (hresult : work vault = .ok found last) : found = entity := by
  have hyields := (retrievals_yield hwork vault).and (retrievals_move hwork vault)
  unfold Yields at hyields
  rw [hresult] at hyields
  have hlast := hyields.2.entities hreject guid entity hentity
  exact Option.some.inj (hyields.1.symm.trans hlast)

/-- What is offered where another entity is registered is checked first, and then refused unless it
has the same content. -/
theorem put_of_registered (hreject : vault.settings.collision = .reject)
    (hentity : vault.get? guid = some entity) {last : Vault}
    (hvalid : offered.validate guid (resolveWith getOrLoad) vault = .ok () last) :
    put guid offered vault
      = if entity.sameContent offered then .ok entity last else .error (.collision guid) last := by
  have hmoves : Moves Preserves (offered.validate guid (resolveWith getOrLoad)) :=
    moves_validate (fun r => .bind (Preserves.additive.moves_getOrLoad r) fun _ => .ofExcept _)
      offered guid
  have hkept : vault.Preserves last := by
    have hyields := hmoves vault
    unfold Yields at hyields
    rwa [hvalid] at hyields
  have hlast := hkept.entities hreject guid entity hentity
  have hput : put guid offered vault = register guid offered last := by
    simp only [put, putWith, bind, EStateM.bind, hvalid]
  have hregister : Yields (register guid offered) last
      (fun found after => entity.sameContent offered ∧ found = entity ∧ after = last)
      fun failure after => ¬ entity.sameContent offered ∧ failure = .collision guid ∧ after = last := by
    have hmay : mayReplace last.settings.collision entity offered = false := by
      rw [hkept.settings, hreject]
      rfl
    simp only [register, yields_bind, yields_get, hlast]
    split
    · rename_i hsame
      exact ⟨hsame, rfl, rfl⟩
    · rename_i hsame
      simp only [hmay, Bool.not_false, if_true, yields_bind, yields_throw]
      exact ⟨hsame, trivial, trivial⟩
  rw [hput]
  unfold Yields at hregister
  split at hregister
  · rename_i hresult
    obtain ⟨hsame, rfl, rfl⟩ := hregister
    rw [hresult, if_pos hsame]
  · rename_i hresult
    obtain ⟨hsame, rfl, rfl⟩ := hregister
    rw [hresult, if_neg hsame]

end Vault

namespace Session

open Vault

/-- In a store that rejects collisions, over any disk, an entity that is registered is registered
ever after, just as it is, whatever the store is asked for but to drop it. Whoever puts, loads or
imports something under its guid is answered with it or with a failure, and what passes the checks
is accepted under its guid if it has the same content and is refused as a collision if not. -/
theorem history_immutable (hreject : vault.settings.collision = .reject)
    (hentity : vault.get? guid = some entity) {requests : List Request} {session : Session}
    (h : History registry (fun _ => Request.Adding) (opened vault) requests session) :
    ∃ now, session = opened now ∧ now.get? guid = some entity ∧
      (∀ offered, ∀ work ∈ retrievals guid offered, ∀ found last, work now = .ok found last →
        found = entity) ∧
      ∀ offered last, offered.validate guid (resolveWith getOrLoad) now = .ok () last →
        put guid offered now
          = if entity.sameContent offered then .ok entity last else .error (.collision guid) last := by
  obtain ⟨now, rfl, hkept⟩ := h.additive Preserves.additive
  have hreject' : now.settings.collision = .reject := hkept.settings ▸ hreject
  have hentity' := hkept.entities hreject guid entity hentity
  refine ⟨now, rfl, hentity', ?_, ?_⟩
  · exact fun offered work hwork found last hresult => retrieved_eq hreject' hentity' hwork hresult
  · exact fun offered last hvalid => put_of_registered hreject' hentity' hvalid

/-- A column keeps the cell at its undefined position, also where one with another such cell has been
put, and one with another defined cell is refused. -/
theorem history_immutable_column :
    let set : Entity := .vertexSet ⟨[7, 8]⟩
    let column (first second : Double) : Entity :=
      .column .double ⟨[first, second], [true, false], Guid.filled 1⟩
    let vault : Vault := { Vault.inMemory Disk.empty with
      entities := SortedMap.ofList
        [(Guid.filled 1, set), (Guid.filled 2, column Double.zero Double.zero)] }
    let requests : List Request := [.put (Guid.filled 2) (column Double.zero ⟨1⟩),
      .put (Guid.filled 2) (column ⟨1⟩ Double.zero), .persist (Guid.filled 2)]
    ∃ now, requests.foldl (fun session request => (session.next Registry.builtin request).2)
        (opened vault) = opened now ∧
      now.get? (Guid.filled 2) = some (column Double.zero Double.zero) ∧
      put (Guid.filled 2) (column Double.zero ⟨1⟩) now = .ok (column Double.zero Double.zero) now ∧
      put (Guid.filled 2) (column ⟨1⟩ Double.zero) now = .error (.collision (Guid.filled 2)) now := by
  intro set column vault requests
  have hstart : History Registry.builtin (fun _ => Request.Adding) (opened vault) [] _ := .start
  have hsame := hstart.step
    (show (Request.put (Guid.filled 2) (column Double.zero ⟨1⟩)).Adding from trivial)
  have hother := hsame.step
    (show (Request.put (Guid.filled 2) (column ⟨1⟩ Double.zero)).Adding from trivial)
  have hlast := hother.step (show (Request.persist (Guid.filled 2)).Adding from trivial)
  have hfirst : vault.get? (Guid.filled 1) = some set := rfl
  have hsecond : vault.get? (Guid.filled 2) = some (column Double.zero Double.zero) := rfl
  obtain ⟨now, hnow, hget, -, hput⟩ := history_immutable rfl hsecond hlast
  obtain ⟨again, hagain, hset, -⟩ := history_immutable rfl hfirst hlast
  rw [Session.opened.inj (hagain.symm.trans hnow)] at hset
  have hvalid (first second : Double) :
      (column first second).validate (Guid.filled 2) (resolveWith getOrLoad) now = .ok () now := by
    have hyields : Yields ((column first second).validate (Guid.filled 2) (resolveWith getOrLoad)) now
        (fun _ after => after = now) fun _ _ => False := by
      simp only [column, Entity.validate, resolveWith, getOrLoad, findWith, yields_bind, yields_get,
        hset]
      rfl
    obtain ⟨_, _, hresult, rfl⟩ := hyields.exists_ok
    exact hresult
  -- Rewritten step by step, as the two sides are compared by running the requests otherwise.
  have hasked : requests.foldl (fun session request => (session.next Registry.builtin request).2)
      (opened vault) = opened now := by
    rw [← hnow, show requests = [_, _, _] from rfl, List.foldl_cons, List.foldl_cons,
      List.foldl_cons, List.foldl_nil]
  refine ⟨now, hasked, hget, ?_, ?_⟩
  · exact (hput _ now (hvalid Double.zero ⟨1⟩)).trans rfl
  · exact (hput _ now (hvalid ⟨1⟩ Double.zero)).trans rfl

end Session

end GraphVault
