import GraphVault.Proofs.ReadingBack
import GraphVault.Proofs.Regimes
import GraphVault.Proofs.Saving

/-!
# First copies

A store that is put entities and persists them goes by what it has in memory, where the entity that
was put last may have replaced the ones before. On disk the first complete copy stays. Whatever else
happens, there is a copy of what was in memory when a guid was first persisted, and a store that is
opened over the same root loads it (`Vault.Settled.reopens`), unless the copy of one of its
references is not of a vertex set (`Vault.getOrLoad_ne_ok`).
-/

namespace GraphVault

open Disk EntityDirectory

/-! ### Roots that stay ready -/

namespace Regime

-- What these do is known from what they yield, so that they need not be looked into.
attribute [local irreducible] EntityDirectory.read EntityDirectory.write EntityDirectory.remove
  EntityDirectory.contains

/-- Whatever is registered, the roots of a store stay ready. -/
def readying (site : Site) : Regime where
  inv vault := vault.settings.dataDir = site.dataDir ∧ site.Ready vault.catalog vault.disk
  admits _ _ := True
  tolerates _ := True
  ordinary _ _ := trivial
  loop := trivial
  registered _ _ := trivial
  insert h _ := h
  stored _ _ _ := trivial

theorem writes_readying (site : Site) : (readying site).Writes where
  erase h _ := h
  write {vault guid entity stored} h _ _ _ := by
    obtain ⟨hdata, hready⟩ := h
    apply (hready.write_yields (.inl ⟨hdata, rfl⟩) stored).mono ?_ fun _ _ hfalse => hfalse.elim
    exact fun _ disk hdisk => ⟨hdata, hdisk.1⟩
  delete {vault} h guid := by
    obtain ⟨hdata, hready⟩ := h
    rw [hdata]
    apply (hready.remove_yields guid).mono ?_ fun _ _ hfalse => hfalse.elim
    exact fun _ disk hdisk => ⟨hdata, hdisk.1⟩
  recordEntity {vault id guid entity} h hid _ producer := by
    obtain ⟨hdata, hready⟩ := h
    rw [hid] at hready
    have hlegible := (hready.legible id rfl).recordEntity
      ⟨guid, entity.kind, UInt64.ofNat entity.size, producer⟩
    exact ⟨hdata, hid ▸ hready.setCatalog hlegible⟩
  forgetEntity {vault id} h hid guid := by
    obtain ⟨hdata, hready⟩ := h
    rw [hid] at hready
    exact ⟨hdata, hid ▸ hready.setCatalog ((hready.legible id rfl).forgetEntity guid)⟩
  recordInstance {vault id} h hid i := by
    obtain ⟨hdata, hready⟩ := h
    rw [hid] at hready
    have hlegible : ((vault.disk.catalog id).recordInstance i).Legible := hready.legible id rfl
    exact ⟨hdata, hid ▸ hready.setCatalog hlegible⟩

/-- Copies are those of a disk, and what is registered under their guids is as they say. -/
def describing (settings : Settings) (disk : Disk) : Regime where
  inv vault := (vault.settings = settings ∧ vault.disk = disk) ∧ ∀ guid entity,
    vault.get? guid = some entity → ∀ stored,
      EntityDirectory.read disk settings.dataDir guid = .ok stored → Described stored.manifest entity
  admits guid entity := ∀ stored,
    EntityDirectory.read disk settings.dataDir guid = .ok stored → Described stored.manifest entity
  tolerates _ := True
  ordinary _ _ := trivial
  loop := trivial
  registered h hentity := h.2 _ _ hentity
  insert {vault guid entity} h hentity := by
    refine ⟨h.1, fun other found hfound => ?_⟩
    have hget : (vault.insert guid entity).get? other = some found := hfound
    by_cases heq : other = guid
    · subst heq
      rw [Vault.get?_insert_self, Option.some.injEq] at hget
      exact hget ▸ hentity
    · rw [Vault.get?_insert_of_ne vault entity heq] at hget
      exact h.2 other found hget
  stored {vault guid found entity} h hread hentity stored hstored := by
    obtain ⟨⟨rfl, rfl⟩, -⟩ := h
    rw [hread, Except.ok.injEq] at hstored
    exact hstored ▸ hentity

end Regime

namespace Vault

attribute [local irreducible] EntityDirectory.read EntityDirectory.write EntityDirectory.contains

variable {vault between after now last : Vault} {site : Site} {root : String} {b : Address}
  {guid r x : Guid} {entity found : Entity} {set : VertexSet} {stored : Stored}

/-! ### Copies and memory -/

/-- There is a copy of an entity that fits the vertex sets in memory. If the entity is a vertex set,
there is one of its size in memory. -/
structure HasCopy (b : Address) (vault : Vault) (guid : Guid) (entity : Entity) : Prop where
  fits : entity.Fits vault.registered
  size : ∀ set, entity = .vertexSet set →
    ∃ set', vault.get? guid = some (.vertexSet set') ∧ set'.size = set.size
  copy : ∃ stored, Ordered.encode guid entity vault.registered = .ok stored ∧
    vault.disk.Holds b guid stored

/-- Vertex sets keep their sizes in memory, and complete copies stay as they are. -/
structure Conserves (b : Address) (vault after : Vault) : Prop where
  settings : after.settings = vault.settings
  keepsSets : vault.KeepsSets after
  persisted : ∀ x, vault.hasPersisted x → after.hasPersisted x
  spares : ∀ x, vault.hasPersisted x → Spares b x vault.disk after.disk

/-- What putting and persisting come to: the copies that are new are those of what was in memory. -/
structure Advances (b : Address) (vault after : Vault) : Prop extends vault.Conserves b after where
  copies : ∀ x, after.hasPersisted x → vault.hasPersisted x ∨
    vault.Copied vault.settings.dataDir b after.disk x

theorem KeepsSets.sizes (h : vault.KeepsSets after) (guid : Guid) (set : VertexSet)
    (hset : vault.registered guid = .ok set) :
    ∃ set', after.registered guid = .ok set' ∧ set'.size = set.size := by
  obtain ⟨set', hset', hsize⟩ := h guid set (registered_eq_ok_iff.1 hset)
  exact ⟨set', registered_eq_ok_iff.2 hset', hsize⟩

theorem HasCopy.conserved (h : vault.HasCopy b guid entity) (hsets : vault.KeepsSets after)
    (hspares : Spares b guid vault.disk after.disk) : after.HasCopy b guid entity := by
  obtain ⟨stored, hencode, hholds⟩ := h.copy
  refine ⟨hsets.fits h.fits, fun set hset => ?_, stored, ?_, hspares.holds hholds⟩
  · obtain ⟨set', hget, hsize⟩ := h.size set hset
    obtain ⟨set'', hget', hsize'⟩ := hsets guid set' hget
    exact ⟨set'', hget', hsize'.trans hsize⟩
  · exact Ordered.encode_of_sizes hencode fun r _ set hset => hsets.sizes r set hset

theorem HasCopy.of_sameContent {other : Entity} (h : vault.HasCopy b guid entity)
    (hsame : entity.sameContent other) : vault.HasCopy b guid other := by
  obtain ⟨stored, hencode, hholds⟩ := h.copy
  refine ⟨h.fits.of_sameContent hsame, fun set hset => h.size set ?_, stored, ?_, hholds⟩
  · rw [hset] at hsame
    exact Entity.sameContent_vertexSet_iff.1 (Entity.sameContent_symm hsame)
  · exact (Ordered.encode_congr hsame guid vault.registered).symm.trans hencode

/-- What is written is a copy of what is in memory. -/
theorem Copied.hasCopy (h : vault.Copied root b after.disk guid) (hfitting : vault.Fitting)
    (hsets : vault.KeepsSets after) :
    ∃ entity, vault.get? guid = some entity ∧ after.HasCopy b guid entity := by
  obtain ⟨-, entity, stored, hget, hencode, hholds⟩ := h
  refine ⟨entity, hget, hsets.fits (hfitting guid entity hget), fun set hset => ?_, stored, ?_, hholds⟩
  · exact hsets guid set (hset ▸ hget)
  · exact Ordered.encode_of_sizes hencode fun r _ set hset => hsets.sizes r set hset

theorem Conserves.refl (b : Address) (vault : Vault) : vault.Conserves b vault :=
  ⟨rfl, (Std.Refl.refl vault : vault.Evolves vault).keepsSets, fun _ hx => hx,
    fun _ _ => spares_of_nodes rfl⟩

theorem Conserves.trans (h : vault.Conserves b between) (h' : between.Conserves b after) :
    vault.Conserves b after :=
  ⟨h'.settings.trans h.settings, h.keepsSets.trans h'.keepsSets,
    fun x hx => h'.persisted x (h.persisted x hx),
    fun x hx => (h.spares x hx).trans (h'.spares x (h.persisted x hx))⟩

theorem Conserves.hasCopy (h : vault.Conserves b after) (hpersisted : vault.hasPersisted guid)
    (hcopy : vault.HasCopy b guid entity) : after.HasCopy b guid entity :=
  hcopy.conserved h.keepsSets (h.spares guid hpersisted)

/-! ### What putting and persisting keep -/

/-- A store that can save and be opened again, and that has in memory whatever there are copies of. -/
structure Steady (site : Site) (vault : Vault) : Prop where
  sturdy : vault.Sturdy site.dataDir site.dataBase
  ready : site.Ready vault.catalog vault.disk
  fitting : vault.Fitting
  complete : ∀ x, Marked site.dataBase x vault.disk → vault.hasPersisted x
  backed : ∀ x, vault.hasPersisted x → vault.has x
  copies : ∀ x, vault.hasPersisted x → ∃ entity, vault.HasCopy site.dataBase x entity

private theorem Steady.advances (h : vault.Steady site)
    (hadvances : vault.Advances site.dataBase after)
    (hsturdy : after.Sturdy site.dataDir site.dataBase) (hready : site.Ready after.catalog after.disk)
    (hfitting : after.Fitting) (hhas : ∀ x, vault.has x → after.has x)
    (hcomplete : ∀ x, Marked site.dataBase x after.disk → after.hasPersisted x) :
    after.Steady site := by
  refine ⟨hsturdy, hready, hfitting, hcomplete, fun x hx => hhas x ?_, fun x hx => ?_⟩
  · rcases hadvances.copies x hx with hx | ⟨-, entity, -, hget, -⟩
    · exact h.backed x hx
    · exact has_iff.2 ⟨entity, hget⟩
  · rcases hadvances.copies x hx with hx | hcopied
    · obtain ⟨entity, hentity⟩ := h.copies x hx
      exact ⟨entity, hadvances.hasCopy hx hentity⟩
    · obtain ⟨entity, -, hentity⟩ := hcopied.hasCopy h.fitting hadvances.keepsSets
      exact ⟨entity, hentity⟩

/-- Nothing is loaded, as everything that could be is in memory. -/
private theorem Steady.keeps_getOrLoad (h : vault.Steady site) (guid : Guid) :
    Keeps (· = vault) (fun _ => True) (fun _ => True) (getOrLoad guid) := by
  refine .bind_get fun now hnow => ?_
  subst hnow
  cases hget : now.get? guid with
  | some entity => exact ⟨rfl, trivial⟩
  | none =>
    have hnot : now.hasPersisted guid = false := by
      rw [Bool.eq_false_iff]
      intro hpersisted
      obtain ⟨entity, hentity⟩ := has_iff.1 (h.backed guid hpersisted)
      rw [hget] at hentity
      cases hentity
    simp only [hnot]
    exact ⟨rfl, trivial⟩

private theorem Steady.keeps_validate (h : vault.Steady site) (guid : Guid) (entity : Entity) :
    Keeps (· = vault) (fun _ => True) (fun _ => True) (entity.validate guid resolve) := by
  have hresolve (r : Guid) (_ : r ∈ entity.references) :
      Keeps (· = vault) (fun _ => True) (fun _ => True) (resolve r) :=
    (h.keeps_getOrLoad r).bind fun _ _ =>
      .ofExcept (fun _ _ => trivial) fun _ _ => trivial
  exact (Entity.keeps_validate hresolve guid).mono (fun _ _ => trivial) fun _ h => h

/-- What is registered has the content that is offered, and nothing else changes. -/
private theorem register_replaces (guid : Guid) (entity : Entity) (vault : Vault) :
    Yields (register guid entity) vault
      (fun found after => found.sameContent entity ∧ after.get? guid = some found ∧
        (after = vault ∨ after = vault.insert guid entity)) fun _ after => after = vault := by
  simp only [register, yields_bind, yields_get]
  cases hget : vault.get? guid with
  | none => exact ⟨Entity.sameContent_refl entity, get?_insert_self vault guid entity, .inr rfl⟩
  | some old =>
    dsimp only
    split
    · rename_i hsame
      exact ⟨hsame, hget, .inl rfl⟩
    · split
      · exact rfl
      · exact ⟨Entity.sameContent_refl entity, get?_insert_self vault guid entity, .inr rfl⟩

theorem Steady.insert (h : vault.Steady site) (hevolves : vault.Evolves (vault.insert guid entity)) :
    (vault.insert guid entity).Steady site ∧
      vault.Advances site.dataBase (vault.insert guid entity) := by
  have hadvances : vault.Advances site.dataBase (vault.insert guid entity) :=
    ⟨⟨rfl, hevolves.keepsSets, fun _ hx => hx, fun _ _ => spares_of_nodes rfl⟩, fun _ hx => .inl hx⟩
  refine ⟨h.advances hadvances (h.sturdy.of_entities _) h.ready (hevolves.fitting h.fitting)
    (fun x hx => ?_) h.complete, hadvances⟩
  by_cases heq : x = guid
  · subst heq
    exact has_iff.2 ⟨entity, get?_insert_self vault x entity⟩
  · obtain ⟨found, hfound⟩ := has_iff.1 hx
    exact has_iff.2 ⟨found, (get?_insert_of_ne vault entity heq).trans hfound⟩

theorem Advances.refl (b : Address) (vault : Vault) : vault.Advances b vault :=
  ⟨.refl b vault, fun _ hx => .inl hx⟩

/-- An entity was put: there is one of its content under its guid, and nothing else has changed. -/
structure Takes (vault : Vault) (site : Site) (guid : Guid) (entity found : Entity) (after : Vault) :
    Prop where
  steady : after.Steady site
  advances : vault.Advances site.dataBase after
  disk : after.disk = vault.disk
  content : found.sameContent entity
  registered : after.get? guid = some found
  others : ∀ x, x ≠ guid → after.get? x = vault.get? x

/-- What is put is in memory, unless it is refused. -/
theorem Steady.put_yields (h : vault.Steady site) (guid : Guid) (entity : Entity) :
    Yields (put guid entity) vault (vault.Takes site guid entity) fun _ after => after = vault := by
  have hput : Yields (put guid entity) vault
      (fun found after => found.sameContent entity ∧ after.get? guid = some found ∧
        (after = vault ∨ after = vault.insert guid entity)) fun _ after => after = vault := by
    rw [put, putWith, yields_bind]
    apply ((h.keeps_validate guid entity).yields vault rfl).mono ?_ fun _ _ hfails => hfails.1
    rintro - _ ⟨rfl, -⟩
    exact register_replaces guid entity _
  apply (hput.and (moves_put guid entity vault)).mono ?_ fun _ _ hfails => hfails.1
  rintro found after ⟨⟨hsame, hget, rfl | rfl⟩, hevolves⟩
  · exact ⟨h, .refl _ _, rfl, hsame, hget, fun _ _ => rfl⟩
  · obtain ⟨hsteady, hadvances⟩ := h.insert hevolves
    exact ⟨hsteady, hadvances, rfl, hsame, hget, fun x hne => get?_insert_of_ne vault entity hne⟩

/-- What fits is put, where it may take the place of what is there. -/
theorem Steady.put_replaces (h : vault.Steady site) (hfits : entity.Fits vault.registered)
    (hmay : ∀ old, vault.get? guid = some old → mayReplace vault.settings.collision old entity) :
    Yields (put guid entity) vault (vault.Takes site guid entity) fun _ _ => False := by
  have hput : Yields (put guid entity) vault (fun _ _ => True) fun _ _ => False := by
    have hfollows := Entity.follows_validate (fun g _ => follows_registered vault g) guid ()
      (Entity.validate_eq_ok_iff.2 hfits)
    rw [put, putWith, yields_bind]
    apply (hfollows.yields vault rfl).mono ?_ fun _ _ hfalse => hfalse.2
    rintro - _ ⟨rfl, -⟩
    simp only [register, yields_bind, yields_get]
    cases hget : (_ : Vault).get? guid with
    | none => trivial
    | some old =>
      dsimp only
      rw [hmay old hget]
      split <;> trivial
  exact ((h.put_yields guid entity).and hput).mono (fun _ _ hafter => hafter.1)
    fun _ _ hfalse => hfalse.2

theorem Steady.put_new (h : vault.Steady site) (hfits : entity.Fits vault.registered)
    (hnone : vault.get? guid = none) :
    Yields (put guid entity) vault (vault.Takes site guid entity) fun _ _ => False := by
  refine h.put_replaces hfits fun old hold => ?_
  rw [hnone] at hold
  cases hold

/-- What is in memory is persisted. -/
theorem Steady.persist_yields (h : vault.Steady site) (guid : Guid) :
    Yields (persist guid) vault
      (fun _ after => after.Steady site ∧ vault.Advances site.dataBase after ∧
        after.entities = vault.entities ∧ ∃ entity, vault.get? guid = some entity ∧
        ∀ x ∈ guid :: entity.references, after.hasPersisted x)
      fun _ after => after = vault ∧ vault.get? guid = none := by
  cases hget : vault.get? guid with
  | none =>
    simp only [persist, persistFrom, persistWithin, require, yields_bind, yields_get, hget]
    exact ⟨rfl, trivial⟩
  | some entity =>
    have hsets : ∀ r ∈ entity.references, ∃ set, vault.get? r = some (.vertexSet set) := by
      intro r hr
      obtain ⟨set, hset⟩ := (h.fitting guid entity hget).resolved hr
      exact ⟨set, registered_eq_ok_iff.1 hset⟩
    have hready := ((Regime.writes_readying site).keeps_persistFrom guid none).yields vault
      ⟨h.sturdy.dataDir, h.ready⟩
    apply ((persistFrom_saves h.sturdy hget hsets none).and hready).mono ?_
      fun _ _ hfalse => hfalse.1.elim
    rintro - after ⟨⟨hsaved, hall⟩, ⟨-, hafter⟩, -⟩
    have hpersisted (x : Guid) : after.hasPersisted x
        = EntityDirectory.contains after.disk site.dataDir x := by
      rw [hasPersisted, hsaved.sturdy.dataDir]
    have hbefore (x : Guid) : vault.hasPersisted x
        = EntityDirectory.contains vault.disk site.dataDir x := by
      rw [hasPersisted, h.sturdy.dataDir]
    have hevolves : vault.Evolves after := .of_entities hsaved.entities
    have hkept (x : Guid) (hx : vault.hasPersisted x) : after.hasPersisted x := by
      rw [hpersisted]
      exact hsaved.contains h.sturdy (hbefore x ▸ hx)
    have hcopies (x : Guid) (hx : Marked site.dataBase x after.disk) :
        vault.hasPersisted x ∨ vault.Copied vault.settings.dataDir site.dataBase after.disk x := by
      rw [h.sturdy.dataDir]
      exact (hsaved.copies x hx).imp_left fun hmarked => h.complete x hmarked.1
    have hcomplete (x : Guid) (hx : Marked site.dataBase x after.disk) : after.hasPersisted x := by
      rcases hcopies x hx with hx | hcopied
      · exact hkept x hx
      · rw [hpersisted, ← h.sturdy.dataDir]
        exact hcopied.1
    have hadvances : vault.Advances site.dataBase after :=
      ⟨⟨hsaved.settings, hevolves.keepsSets, hkept, fun x hx => hsaved.spares x (hbefore x ▸ hx)⟩,
        fun x hx => hcopies x (marked_of_contains hsaved.sturdy.usable (hpersisted x ▸ hx))⟩
    refine ⟨h.advances hadvances hsaved.sturdy hafter (hevolves.fitting h.fitting) (fun x hx => ?_)
      hcomplete, hadvances, hsaved.entities, entity, rfl, hall⟩
    rw [has, hsaved.entities]
    exact hx

/-- What is in memory and has no copy is persisted. -/
theorem Steady.persist_new (h : vault.Steady site) (hget : vault.get? guid = some entity)
    (hnew : vault.hasPersisted guid = false) :
    ∃ path after, persist guid vault = .ok path after ∧ after.Steady site ∧
      vault.Advances site.dataBase after ∧ (∀ x, after.get? x = vault.get? x) ∧
      (∀ x ∈ guid :: entity.references, after.hasPersisted x) ∧
      after.HasCopy site.dataBase guid entity := by
  have hpersists := h.persist_yields guid
  rw [hget] at hpersists
  obtain ⟨path, after, hpersist, hafter, hadvances, hentities, found, hfound, hall⟩ :=
    (hpersists.mono (fun _ _ h => h) fun _ _ hfails => nomatch hfails.2).exists_ok
  cases hfound
  refine ⟨path, after, hpersist, hafter, hadvances,
    fun x => congrArg (SortedMap.get? · x) hentities, hall, ?_⟩
  rcases hadvances.copies guid (hall guid List.mem_cons_self) with hbefore | hcopied
  · rw [hnew] at hbefore
    cases hbefore
  · obtain ⟨found, hfound, hcopy⟩ := hcopied.hasCopy h.fitting hadvances.keepsSets
    rw [hget, Option.some.injEq] at hfound
    exact hfound ▸ hcopy

/-- What fits is put and persisted under a guid that was free. -/
theorem Steady.put_persist_new (h : vault.Steady site) (hfits : entity.Fits vault.registered)
    (hnone : vault.get? guid = none) (hnew : vault.hasPersisted guid = false) :
    ∃ found held path after, put guid entity vault = .ok found held ∧
      persist guid held = .ok path after ∧ vault.Takes site guid entity found held ∧
      after.Steady site ∧ held.Advances site.dataBase after ∧ (∀ x, after.get? x = held.get? x) ∧
      (∀ x ∈ guid :: found.references, after.hasPersisted x) ∧
      after.HasCopy site.dataBase guid found := by
  obtain ⟨found, held, hput, htakes⟩ := (h.put_new hfits hnone).exists_ok
  have hnewHeld : held.hasPersisted guid = false := by
    rw [hasPersisted, htakes.disk, htakes.advances.settings]
    exact hnew
  obtain ⟨path, after, hpersist, hafter, hadvances, hget, hall, hcopy⟩ :=
    htakes.steady.persist_new htakes.registered hnewHeld
  exact ⟨found, held, path, after, hput, hpersist, htakes, hafter, hadvances, hget, hall, hcopy⟩

theorem Advances.not_persisted (h : vault.Advances b after)
    (hnew : vault.hasPersisted guid = false) (hnone : vault.get? guid = none) :
    after.hasPersisted guid = false := by
  rw [Bool.eq_false_iff]
  intro hpersisted
  rcases h.copies guid hpersisted with hbefore | ⟨-, entity, -, hget, -⟩
  · rw [hnew] at hbefore
    cases hbefore
  · rw [hnone] at hget
    cases hget

/-- All row files are short if the copies are of what is short. -/
theorem HasCopy.rows_le (h : vault.HasCopy b guid entity)
    (hrows : ∀ stored, Ordered.encode guid entity vault.registered = .ok stored →
      stored.rows.length ≤ 2 * 1024 ^ 3) {stored : Stored} (hholds : vault.disk.Holds b guid stored) :
    stored.rows.length ≤ 2 * 1024 ^ 3 := by
  obtain ⟨found, hencode, hfound⟩ := h.copy
  have hsame := hfound.rows.symm.trans hholds.rows
  simp only [Option.some.injEq, Node.file.injEq, Content.stored.injEq] at hsame
  exact hsame ▸ hrows found hencode

/-! ### An entity that awaits its copy -/

/-- An entity is in memory. If there is a copy under its guid it is of this entity, and those of its
references are of vertex sets. -/
structure Pending (b : Address) (vault : Vault) (guid : Guid) (entity : Entity) : Prop where
  registered : vault.get? guid = some entity
  copy : vault.hasPersisted guid → vault.HasCopy b guid entity
  sets : ∀ r ∈ entity.references, vault.hasPersisted r → ∃ set, vault.HasCopy b r (.vertexSet set)

/-- There are copies of an entity and of the vertex sets that it refers to. -/
structure Settled (b : Address) (vault : Vault) (guid : Guid) (entity : Entity) : Prop where
  foreign : guid ∉ entity.references
  persisted : ∀ x ∈ guid :: entity.references, vault.hasPersisted x
  copy : vault.HasCopy b guid entity
  sets : ∀ r ∈ entity.references, ∃ set, vault.HasCopy b r (.vertexSet set)

theorem Pending.advanced (h : vault.Pending b guid entity) (hfitting : vault.Fitting)
    (hadvances : vault.Advances b after) (hget : after.get? guid = vault.get? guid) :
    after.Pending b guid entity := by
  refine ⟨hget.trans h.registered, fun hpersisted => ?_, fun r hr hpersisted => ?_⟩
  · rcases hadvances.copies guid hpersisted with hbefore | hcopied
    · exact hadvances.hasCopy hbefore (h.copy hbefore)
    · obtain ⟨found, hfound, hcopy⟩ := hcopied.hasCopy hfitting hadvances.keepsSets
      rw [h.registered, Option.some.injEq] at hfound
      exact hfound ▸ hcopy
  · rcases hadvances.copies r hpersisted with hbefore | hcopied
    · obtain ⟨set, hset⟩ := h.sets r hr hbefore
      exact ⟨set, hadvances.hasCopy hbefore hset⟩
    · obtain ⟨found, hfound, hcopy⟩ := hcopied.hasCopy hfitting hadvances.keepsSets
      obtain ⟨set, hset⟩ := (hfitting guid entity h.registered).resolved hr
      rw [registered_eq_ok_iff.1 hset, Option.some.injEq] at hfound
      exact ⟨set, hfound ▸ hcopy⟩

/-- What is put where there is no copy awaits one, unless there are copies of its references that are
not of vertex sets. -/
theorem Steady.pending (h : vault.Steady site) (hadvances : vault.Advances site.dataBase after)
    (hdisk : after.disk = vault.disk) (hget : after.get? guid = some entity)
    (hnew : vault.hasPersisted guid = false)
    (hkinds : ∀ r ∈ entity.references, ∀ stored, vault.disk.Holds site.dataBase r stored →
      stored.manifest.kind = .vertexSet) : after.Pending site.dataBase guid entity := by
  have hsame (x : Guid) : after.hasPersisted x = vault.hasPersisted x := by
    rw [hasPersisted, hasPersisted, hdisk, hadvances.settings]
  refine ⟨hget, fun hpersisted => ?_, fun r hr hpersisted => ?_⟩
  · rw [hsame, hnew] at hpersisted
    cases hpersisted
  · rw [hsame] at hpersisted
    obtain ⟨found, hcopy⟩ := h.copies r hpersisted
    obtain ⟨stored, hencode, hholds⟩ := hcopy.copy
    have hkind := (Ordered.manifest_of_encode hencode).2.1
    rw [hkinds r hr stored hholds] at hkind
    cases found with
    | vertexSet set => exact ⟨set, hadvances.hasCopy hpersisted hcopy⟩
    | edgeBundle bundle => cases hkind
    | column type cells => cases hkind

theorem Pending.settled (h : vault.Pending b guid entity) (hfitting : vault.Fitting)
    (hpersisted : ∀ x ∈ guid :: entity.references, vault.hasPersisted x) :
    vault.Settled b guid entity := by
  refine ⟨fun hmem => ?_, hpersisted, h.copy (hpersisted guid List.mem_cons_self),
    fun r hr => h.sets r hr (hpersisted r (List.mem_cons_of_mem guid hr))⟩
  obtain ⟨set, hset⟩ := (hfitting guid entity h.registered).resolved hmem
  have hself := registered_eq_ok_iff.1 hset
  rw [h.registered, Option.some.injEq] at hself
  rw [hself] at hmem
  exact List.not_mem_nil hmem

theorem Settled.conserved (h : vault.Settled b guid entity) (hconserves : vault.Conserves b after) :
    after.Settled b guid entity := by
  refine ⟨h.foreign, fun x hx => hconserves.persisted x (h.persisted x hx),
    hconserves.hasCopy (h.persisted guid List.mem_cons_self) h.copy, fun r hr => ?_⟩
  obtain ⟨set, hset⟩ := h.sets r hr
  exact ⟨set, hconserves.hasCopy (h.persisted r (List.mem_cons_of_mem guid hr)) hset⟩

/-! ### Reading the copies -/

/-- The row files of certain copies stay within the limit that is set to reading. -/
def Limited (b : Address) (disk : Disk) (guids : List Guid) : Prop :=
  ∀ x ∈ guids, ∀ stored, disk.Holds b x stored → stored.rows.length ≤ 2 * 1024 ^ 3

private theorem Steady.reads (h : vault.Steady site) (hpersisted : vault.hasPersisted guid)
    (hcopy : vault.HasCopy site.dataBase guid entity)
    (hlimit : ∀ stored, vault.disk.Holds site.dataBase guid stored →
      stored.rows.length ≤ 2 * 1024 ^ 3) :
    ∃ stored, Ordered.encode guid entity vault.registered = .ok stored ∧
      EntityDirectory.read vault.disk vault.settings.dataDir guid = .ok stored ∧
      entity.rowCount ≤ 2 ^ 32 ∧ stored.rows.length ≤ 2 * 1024 ^ 3 := by
  obtain ⟨stored, hencode, hholds⟩ := hcopy.copy
  have hrows := hlimit stored hholds
  have hrowCount : entity.rowCount ≤ 2 ^ 32 := by
    have hlength := Entity.rowCount_le_length hcopy.fits hencode
    omega
  obtain ⟨hguid, -, hcount⟩ := Ordered.manifest_of_encode hencode
  have htwo := (Ordered.mem_references_of_encode hencode).1
  have hholds' : ∀ b', base vault.settings.dataDir = .ok b' → vault.disk.Holds b' guid stored := by
    intro b' hb'
    have hbase : base site.dataDir = .ok site.dataBase := h.sturdy.usable.way.walk_eq
    rw [h.sturdy.dataDir, hbase, Except.ok.injEq] at hb'
    exact hb' ▸ hholds
  have hread := read_of_holds hguid (by omega) hpersisted hholds'
  exact ⟨stored, hencode, hread.1 (readable_of_limits htwo hcount hrowCount hrows), hrowCount, hrows⟩

private theorem Steady.stores (h : vault.Steady site) (hpersisted : vault.hasPersisted guid)
    (hcopy : vault.HasCopy site.dataBase guid (.vertexSet set))
    (hlimit : ∀ stored, vault.disk.Holds site.dataBase guid stored →
      stored.rows.length ≤ 2 * 1024 ^ 3) :
    vault.Stores guid set ∧ set.mapping.Nodup ∧ set.size ≤ 2 ^ 32 := by
  obtain ⟨stored, hencode, hread, hcount, -⟩ := h.reads hpersisted hcopy hlimit
  have hnodup : set.mapping.Nodup := hcopy.fits
  have hsize : set.size ≤ 2 ^ 32 := hcount
  cases hencode
  exact ⟨⟨_, hread, rfl, decode_setCopy hnodup (by omega)⟩, hnodup, hsize⟩

/-- A copy is read with vertex sets of the sizes of those in memory. -/
private theorem Steady.storesOver (h : vault.Steady site) (hpersisted : vault.hasPersisted guid)
    (hcopy : vault.HasCopy site.dataBase guid entity)
    (hlimit : ∀ stored, vault.disk.Holds site.dataBase guid stored →
      stored.rows.length ≤ 2 * 1024 ^ 3) {sets : Guid → VertexSet}
    (hsets : ∀ r ∈ entity.references, (sets r).size ≤ 2 ^ 32 ∧
      ∃ set, vault.get? r = some (.vertexSet set) ∧ set.size = (sets r).size) :
    ∃ found, found.sameContent entity ∧ vault.StoresOver entity.references sets guid found := by
  have hsizes : ∀ r ∈ entity.references, ∀ set, vault.registered r = .ok set →
      ∃ set', finals entity.references sets r = .ok set' ∧ set'.size = set.size := by
    intro r hr set hset
    obtain ⟨-, set', hget, hsize⟩ := hsets r hr
    rw [registered_eq_ok_iff, hget, Option.some.injEq, Entity.vertexSet.injEq] at hset
    exact ⟨sets r, finals_of_mem hr, hset ▸ hsize.symm⟩
  have hcounts : ∀ r ∈ entity.references, ∀ set, finals entity.references sets r = .ok set →
      set.size ≤ 2 ^ 32 := by
    intro r hr set hset
    rw [finals_of_mem hr, Except.ok.injEq] at hset
    exact hset ▸ (hsets r hr).1
  obtain ⟨stored, hencode, hread, hrowCount, hrows⟩ := h.reads hpersisted hcopy hlimit
  have hfits := hcopy.fits.congr hsizes
  have hencode := Ordered.encode_of_sizes hencode hsizes
  have hfile : ∀ other, Ordered.encode guid entity (finals entity.references sets) = .ok other →
      other.rows.length ≤ 2 * 1024 ^ 3 := by
    intro other hother
    rw [hencode, Except.ok.injEq] at hother
    exact hother ▸ hrows
  obtain ⟨_, hwritten, hdecode, -⟩ := Ordered.exists_encode_decode guid hfits
    (Entity.sized_of_limits hfits hrowCount hcounts hfile)
    fun r hr set hset => Nat.lt_of_le_of_lt (hcounts r hr set hset) (by decide)
  rw [hencode, Except.ok.injEq] at hwritten
  subst hwritten
  have hsame := Entity.settled_sameContent hfits
  exact ⟨entity.settled, hsame, stored, hread, (Ordered.mem_references_of_encode hencode).2, hdecode,
    hfits.of_sameContent (Entity.sameContent_symm hsame)⟩

/-- A store that is opened over copies loads the entity that they are copies of. -/
theorem Settled.reopens (h : vault.Settled site.dataBase guid entity) (hsteady : vault.Steady site)
    (hlimited : Limited site.dataBase vault.disk (guid :: entity.references)) {settings : Settings}
    (hsettings : settings.dataDir = site.dataDir) :
    ∃ fresh opened found loaded, Vault.open settings vault.close = .ok fresh opened ∧
      getOrLoad guid fresh = .ok found loaded ∧ found.sameContent entity := by
  have hall : ∀ r, ∃ set, r ∈ entity.references → vault.Stores r set ∧ set.mapping.Nodup ∧
      set.size ≤ 2 ^ 32 ∧ ∃ set', vault.get? r = some (.vertexSet set') ∧ set'.size = set.size := by
    intro r
    by_cases hr : r ∈ entity.references
    · obtain ⟨set, hset⟩ := h.sets r hr
      have hmem := List.mem_cons_of_mem guid hr
      obtain ⟨hstores, hnodup, hcount⟩ :=
        hsteady.stores (h.persisted r hmem) hset (hlimited r hmem)
      exact ⟨set, fun _ => ⟨hstores, hnodup, hcount, hset.size set rfl⟩⟩
    · exact ⟨⟨[]⟩, fun hmem => absurd hmem hr⟩
  choose sets hsets using hall
  obtain ⟨kept, hsame, hkept⟩ := hsteady.storesOver (h.persisted guid List.mem_cons_self) h.copy
    (hlimited guid List.mem_cons_self) fun r hr => (hsets r hr).2.2
  obtain ⟨fresh, opened, hopen, -⟩ := (hsteady.ready.close.open_yields hsettings).exists_ok
  have hsucceeds := succeeds_of_open hsteady.sturdy.usable hsettings hopen
  obtain ⟨found, loaded, hfound, rfl⟩ := (hsucceeds.getOrLoad_yields hsteady.sturdy.dataDir
    hsteady.sturdy.usable h.foreign (fun r hr => (hsets r hr).2.1) (fun r hr => (hsets r hr).1)
    hkept).exists_ok
  exact ⟨fresh, opened, _, loaded, hopen, hfound, hsame⟩

/-- Where the copies of its references are not of vertex sets, an entity is not loaded. -/
theorem getOrLoad_ne_ok (hempty : vault.entities = SortedMap.empty)
    (hread : EntityDirectory.read vault.disk vault.settings.dataDir guid = .ok stored)
    (hkind : stored.manifest.kind ≠ .vertexSet)
    (hreferences : ∀ reference ∈ stored.manifest.references, ∃ other,
      EntityDirectory.read vault.disk vault.settings.dataDir reference.guid = .ok other ∧
        other.manifest.kind ≠ .vertexSet) (found : Entity) (after : Vault) :
    getOrLoad guid vault ≠ .ok found after := by
  intro hresult
  have hnone (x : Guid) : vault.get? x = none := by
    rw [get?, hempty]
    rfl
  have hdescribes := ((Regime.describing vault.settings vault.disk).keeps_getOrLoad guid).yields vault
    ⟨⟨rfl, rfl⟩, fun x e he => by rw [hnone] at he; cases he⟩
  have hfinds := finds_getOrLoad guid vault
  rw [Yields, hresult] at hdescribes hfinds
  obtain ⟨⟨-, hmemory⟩, hfound⟩ := hdescribes
  have hdescribed := hfound stored hread
  have hfitting : after.Fitting := by
    refine hfinds.1.fitting fun x e he => ?_
    rw [hnone] at he
    cases he
  have hfits := hfitting guid found hfinds.2
  -- it refers to something, which would have to be a vertex set
  obtain ⟨r, hr⟩ : ∃ r, r ∈ found.references := by
    cases found with
    | vertexSet set => exact absurd hdescribed.kind.symm hkind
    | edgeBundle bundle => exact ⟨_, Entity.mem_references_edgeBundle.2 (.inl rfl)⟩
    | column type cells => exact ⟨_, Entity.mem_references_column.2 rfl⟩
  obtain ⟨reference, hreference, rfl⟩ := List.mem_map.1 (hdescribed.references r hr)
  obtain ⟨other, hother, hne⟩ := hreferences reference hreference
  obtain ⟨set, hset⟩ := hfits.resolved hr
  exact hne (hmemory _ _ (registered_eq_ok_iff.1 hset) other hother).kind.symm

/-- A store that is opened over copies does not load what refers to a copy of something else than a
vertex set. -/
theorem Steady.reopens_without (h : vault.Steady site)
    (hcopy : vault.HasCopy site.dataBase guid entity) (hkind : entity.kind ≠ .vertexSet)
    (hpersisted : ∀ x ∈ guid :: entity.references, vault.hasPersisted x)
    (hreferences : ∀ r ∈ entity.references, ∃ other,
      vault.HasCopy site.dataBase r other ∧ other.kind ≠ .vertexSet)
    (hlimited : Limited site.dataBase vault.disk (guid :: entity.references)) {settings : Settings}
    (hsettings : settings.dataDir = site.dataDir) :
    ∃ fresh opened, Vault.open settings vault.close = .ok fresh opened ∧
      ∀ found loaded, getOrLoad guid fresh ≠ .ok found loaded := by
  obtain ⟨fresh, opened, hopen, -⟩ := (h.ready.close.open_yields hsettings).exists_ok
  have hsucceeds := succeeds_of_open h.sturdy.usable hsettings hopen
  have hreads {x : Guid} {e : Entity} (hx : x ∈ guid :: entity.references)
      (he : vault.HasCopy site.dataBase x e) : ∃ stored,
        Ordered.encode x e vault.registered = .ok stored ∧
        EntityDirectory.read fresh.disk fresh.settings.dataDir x = .ok stored := by
    obtain ⟨stored, hencode, hread, -⟩ := h.reads (hpersisted x hx) he (hlimited x hx)
    rw [h.sturdy.dataDir] at hread
    exact ⟨stored, hencode, hsucceeds.dataDir ▸ (hsucceeds.spares x).read h.sturdy.usable hread⟩
  obtain ⟨stored, hencode, hread⟩ := hreads List.mem_cons_self hcopy
  refine ⟨fresh, opened, hopen, getOrLoad_ne_ok hsucceeds.entities hread ?_ fun reference hr => ?_⟩
  · rw [(Ordered.manifest_of_encode hencode).2.1]
    exact hkind
  · have hmem := (Ordered.mem_references_of_encode hencode).2 reference hr
    obtain ⟨other, hother, hne⟩ := hreferences _ hmem
    obtain ⟨found, hfound, hread'⟩ := hreads (List.mem_cons_of_mem guid hmem) hother
    refine ⟨found, hread', ?_⟩
    rw [(Ordered.manifest_of_encode hfound).2.1]
    exact hne

end Vault

/-- Over fresh roots a store is opened that can save, and that has nothing yet. -/
theorem Site.Fresh.open_steady {site : Site} {disk : Disk} {settings : Settings}
    (h : site.Fresh disk) (hdata : settings.dataDir = site.dataDir) :
    Yields (Vault.open settings) disk
      (fun vault _ => vault.Steady site ∧ vault.settings = settings ∧
        (∀ guid, vault.get? guid = none) ∧ ∀ guid, vault.hasPersisted guid = false)
      fun _ _ => False := by
  apply ((h.open_sturdy hdata).and (h.ready.open_yields hdata)).mono ?_ fun _ _ hfalse => hfalse.1
  rintro vault last ⟨⟨hsettings, hentities, hsturdy, hnew⟩, hvault, hready, -⟩
  have hdisk : vault.disk = last := by rw [hvault]
  have hget (guid : Guid) : vault.get? guid = none := by
    rw [Vault.get?, hentities]
    rfl
  have hpersisted (guid : Guid) : vault.hasPersisted guid = false := by
    rw [Bool.eq_false_iff, Vault.hasPersisted, hsturdy.dataDir]
    exact fun hcontains => hnew guid (marked_of_contains hsturdy.usable hcontains)
  refine ⟨⟨hsturdy, hdisk ▸ hready, fun guid entity hentity => ?_, fun guid hmarked => ?_,
    fun guid hguid => ?_, fun guid hguid => ?_⟩, hsettings, hget, hpersisted⟩
  · rw [hget] at hentity
    cases hentity
  · exact absurd hmarked (hnew guid)
  · rw [hpersisted] at hguid
    cases hguid
  · rw [hpersisted] at hguid
    cases hguid

end GraphVault
