import GraphVault.Proofs.Regimes
import GraphVault.Proofs.Saving

/-!
# Catalog entries and copies

Whenever an entity is persisted its catalog entry is written anew, but a complete copy is kept. As
long as no guid stands for entities of different kinds or sizes, the entries describe the copies
(`Session.history_described`). Where a vertex set is dropped from memory and one of another size is
persisted in its place, the entry describes the new one and the copy stays that of the old one
(`Session.History.misdescribed`).
-/

namespace GraphVault

open Disk EntityDirectory

/-- A kind, and a number of vertices, edges or cells. -/
structure Shape where
  kind : Kind
  size : UInt64
  deriving DecidableEq

/-- The shape of an entity. -/
def Entity.shape (entity : Entity) : Shape := ⟨entity.kind, UInt64.ofNat entity.size⟩

/-- The shape of the entity that a manifest describes. -/
def Manifest.shape (manifest : Manifest) : Shape := ⟨manifest.kind, manifest.size⟩

/-- The shape that is on record. -/
def Catalog.Entry.shape (entry : Catalog.Entry) : Shape := ⟨entry.kind, entry.size⟩

/-- A copy of the shape that belongs to its guid. -/
structure Stored.Shaped (shapes : Guid → Shape) (guid : Guid) (stored : Stored) : Prop where
  filed : stored.manifest.guid = guid
  count : stored.manifest.references.length ≤ 2
  shape : stored.manifest.shape = shapes guid

/-- A catalog all entries of which have the shapes that belong to their guids. -/
def Catalog.Shaped (shapes : Guid → Shape) (catalog : Catalog) : Prop :=
  ∀ guid entry, catalog.entity? guid = .ok (some entry) → entry.shape = shapes guid

/-- A disk all copies and entries of which have the shapes that belong to their guids. -/
structure Disk.Shaped (shapes : Guid → Shape) (roots : String → Prop) (disk : Disk) : Prop where
  copies : disk.KeptBelow (Stored.Shaped shapes) roots
  entries : ∀ id, (disk.catalog id).Shaped shapes

variable {shapes : Guid → Shape} {roots : String → Prop} {guid : Guid} {entity : Entity}
  {stored : Stored}

theorem Described.shape_eq (h : Described stored.manifest entity) :
    entity.shape = stored.manifest.shape := by
  rw [Entity.shape, Manifest.shape, h.kind, h.size, UInt64.ofNat_toNat]

/-- What is decoded is as the manifest says. -/
theorem Ordered.described_of_decode {resolve : Guid → Except Failure VertexSet}
    (h : decode stored resolve = .ok entity) : Described stored.manifest entity := by
  let lifted : Guid → EStateM Failure Unit VertexSet := fun r => MonadExcept.ofExcept (resolve r)
  have hfollows : Follows (fun _ => True) (fun _ => False) (decode stored resolve)
      (decode stored lifted) := by
    refine follows_decode (fun r set hset => ?_) stored
    refine .ofExcept (fun found hfound => ?_) fun failure hfailure => ?_
    · exact Except.ok.inj (hfound.symm.trans hset)
    · rw [hset] at hfailure
      cases hfailure
  have hdescribed : Keeps (fun _ => True) (fun _ => True) (Described stored.manifest)
      (decode stored lifted) :=
    keeps_decode fun _ _ => .ofExcept (fun _ _ => trivial) fun _ _ => trivial
  have hboth := ((hfollows entity h).yields () trivial).and (hdescribed.yields () trivial)
  obtain ⟨found, _, -, ⟨-, rfl⟩, -, hfound⟩ :=
    (hboth.mono (fun _ _ h => h) fun _ _ hfalse => hfalse.1.2).exists_ok
  exact hfound

namespace Catalog

variable {catalog : Catalog}

theorem shaped_empty : Shaped shapes empty := nofun

theorem Shaped.recordEntity (h : catalog.Shaped shapes) {entry : Entry}
    (hentry : entry.shape = shapes entry.guid) : (catalog.recordEntity entry).Shaped shapes := by
  intro guid found hfound
  by_cases heq : guid = entry.guid
  · rw [heq, entity?_recordEntity_self, Except.ok.injEq, Option.some.injEq] at hfound
    rw [heq, ← hfound]
    exact hentry
  · rw [entity?_recordEntity_of_ne catalog heq] at hfound
    exact h guid found hfound

theorem Shaped.forgetEntity (h : catalog.Shaped shapes) (guid : Guid) :
    (catalog.forgetEntity guid).Shaped shapes := by
  intro other found hfound
  by_cases heq : other = guid
  · rw [heq, entity?_forgetEntity_self] at hfound
    cases hfound
  · rw [entity?_forgetEntity_of_ne catalog heq] at hfound
    exact h other found hfound

end Catalog

namespace Disk

variable {disk after : Disk} {root : String}

/-- What is read has the shape that belongs to its guid. -/
theorem Shaped.read (h : disk.Shaped shapes roots) (hroot : roots root)
    (hread : EntityDirectory.read disk root guid = .ok stored) :
    stored.manifest.shape = shapes guid := by
  have hcontains := contains_of_read hread
  obtain ⟨kept, hkept, hholds⟩ := h.copies.exists_copy hroot hcontains
  have hcount := hkept.count
  rcases (read_of_holds hkept.filed (by omega) hcontains hholds).2 with hsame | ⟨fault, hfault⟩
  · rw [hread, Except.ok.injEq] at hsame
    exact hsame ▸ hkept.shape
  · rw [hread] at hfault
    cases hfault

theorem Shaped.setCatalog (h : disk.Shaped shapes roots) (id : Nat) {catalog : Catalog}
    (hcatalog : catalog.Shaped shapes) : (disk.setCatalog id catalog).Shaped shapes roots := by
  refine ⟨h.copies.of_nodes rfl, fun other => ?_⟩
  obtain hsame | ⟨-, hnew⟩ := catalog_setCatalog disk id catalog other
  · exact hsame ▸ h.entries other
  · rw [hnew]
    exact hcatalog

theorem Shaped.of_sameCatalogs (h : disk.Shaped shapes roots)
    (hcopies : after.KeptBelow (Stored.Shaped shapes) roots) (hcatalogs : disk.SameCatalogs after) :
    after.Shaped shapes roots :=
  ⟨hcopies, fun id => (hcatalogs id).symm ▸ h.entries id⟩

end Disk

/-! ### The regime of shapes -/

/-- A store in which everything has the shape that belongs to its guid. -/
structure Vault.Shaped (shapes : Guid → Shape) (roots : String → Prop) (vault : Vault) : Prop where
  dataDir : roots vault.settings.dataDir
  unorderedDir : roots vault.settings.unorderedDir
  memory : ∀ guid entity, vault.get? guid = some entity → entity.shape = shapes guid
  disk : vault.disk.Shaped shapes roots

namespace Regime

-- What these do is known from what they yield, so that they need not be looked into.
attribute [local irreducible] EntityDirectory.read EntityDirectory.write EntityDirectory.remove
  EntityDirectory.contains

/-- The regime that admits what has the shape that belongs to its guid. -/
def shaped (shapes : Guid → Shape) (roots : String → Prop) : Regime where
  inv := Vault.Shaped shapes roots
  admits guid entity := entity.shape = shapes guid
  tolerates _ := True
  ordinary _ _ := trivial
  loop := trivial
  registered h hentity := h.memory _ _ hentity
  insert {vault guid entity} h hentity := by
    refine ⟨h.dataDir, h.unorderedDir, fun other found hfound => ?_, h.disk⟩
    have hget : (vault.entities.insert guid entity).get? other = some found := hfound
    by_cases heq : other = guid
    · subst heq
      rw [SortedMap.get?_insert_self, Option.some.injEq] at hget
      exact hget ▸ hentity
    · rw [SortedMap.get?_insert_of_ne _ _ heq] at hget
      exact h.memory other found hget
  stored h hread hentity := hentity.shape_eq.trans (h.disk.read h.dataDir hread)

theorem exchanges_shaped : (shaped shapes roots).Exchanges :=
  fun h hread hentity => hentity.shape_eq.trans (Disk.Shaped.read (Vault.Shaped.disk h)
    (Vault.Shaped.unorderedDir h) hread)

theorem writes_shaped : (shaped shapes roots).Writes where
  erase {vault} h guid := by
    obtain ⟨hdata, hunordered, hmemory, hdisk⟩ : vault.Shaped shapes roots := h
    refine ⟨hdata, hunordered, fun other found hfound => ?_, hdisk⟩
    have hget : (vault.entities.erase guid).get? other = some found := hfound
    by_cases heq : other = guid
    · rw [heq, SortedMap.get?_erase_self] at hget
      cases hget
    · rw [SortedMap.get?_erase_of_ne _ heq] at hget
      exact hmemory other found hget
  write {vault guid entity stored} h hentity hcopies hsize := by
    obtain ⟨hdata, hunordered, hmemory, hdisk⟩ : vault.Shaped shapes roots := h
    have hshape : stored.manifest.shape = shapes guid := by
      rw [Manifest.shape, hcopies.kind, hsize]
      exact hentity
    have hstored : stored.Shaped shapes guid := ⟨hcopies.filed, hcopies.references.1, hshape⟩
    apply ((hdisk.copies.write_yields _ hcopies.filed hstored).and
      (write_catalogs _ stored vault.disk)).mono
    · exact fun _ after hafter => ⟨hdata, hunordered, hmemory,
        hdisk.of_sameCatalogs hafter.1 (sameCatalogs_of_eq hafter.2)⟩
    · exact fun _ after hafter => ⟨hdata, hunordered, hmemory,
        hdisk.of_sameCatalogs hafter.1 (sameCatalogs_of_eq hafter.2)⟩
  delete {vault} h guid := by
    obtain ⟨hdata, hunordered, hmemory, hdisk⟩ : vault.Shaped shapes roots := h
    apply ((hdisk.copies.remove_yields _ guid).and (remove_catalogs _ guid vault.disk)).mono
    · exact fun _ after hafter => ⟨hdata, hunordered, hmemory,
        hdisk.of_sameCatalogs hafter.1 (sameCatalogs_of_eq hafter.2)⟩
    · exact fun _ after hafter => ⟨hdata, hunordered, hmemory,
        hdisk.of_sameCatalogs hafter.1 (sameCatalogs_of_eq hafter.2)⟩
  recordEntity {vault id guid entity} h _ hentity producer := by
    obtain ⟨hdata, hunordered, hmemory, hdisk⟩ : vault.Shaped shapes roots := h
    exact ⟨hdata, hunordered, hmemory,
      hdisk.setCatalog id ((hdisk.entries id).recordEntity hentity)⟩
  forgetEntity {vault id} h _ guid := by
    obtain ⟨hdata, hunordered, hmemory, hdisk⟩ : vault.Shaped shapes roots := h
    exact ⟨hdata, hunordered, hmemory, hdisk.setCatalog id ((hdisk.entries id).forgetEntity guid)⟩
  recordInstance {vault id} h _ i := by
    obtain ⟨hdata, hunordered, hmemory, hdisk⟩ : vault.Shaped shapes roots := h
    exact ⟨hdata, hunordered, hmemory, hdisk.setCatalog id (hdisk.entries id)⟩

end Regime

/-! ### Persisting vertex sets -/

namespace Vault

variable {vault : Vault} {root : String} {b : Address} {set : VertexSet}

/-- A store with a catalog that can save, and that has nothing yet. -/
structure Blank (root : String) (b : Address) (id : Nat) (vault : Vault) : Prop where
  sturdy : vault.Sturdy root b
  catalog : vault.catalog = some id
  new : ∀ guid, vault.get? guid = none ∧ vault.hasPersisted guid = false

theorem persist_saves (h : vault.Sturdy root b)
    (hset : vault.get? guid = some (.vertexSet set)) :
    Yields (persist guid) vault
      (fun _ after => vault.Saves root b guid (.vertexSet set) (setCopy guid set) after)
      fun _ _ => False := by
  rw [persist, persistFrom, yields_bind, yields_get]
  exact persist_vertexSet_saves h hset _ none

end Vault

/-! ### Histories -/

/-- Where the inputs of an instance have the shapes that belong to their guids, so do its outputs. -/
def Instance.Conforms (shapes : Guid → Shape) (registry : Registry) (i : Instance) : Prop :=
  ∀ inputs, (∀ slot guid entity, inputs.get? slot = some (guid, entity) →
      i.inputs.get? slot = some guid ∧ entity.shape = shapes guid) →
    ∀ context outputs, registry.run i.description (Context.start i inputs) = .ok context →
      context.outputs = .ok outputs → ∀ output ∈ outputs, output.2.shape = shapes output.1

variable {registry : Registry} {i : Instance}

theorem Instance.Conforms.serves (h : i.Conforms shapes registry) :
    (Regime.shaped shapes roots).Serves registry i := by
  intro inputs hinputs
  cases hcontext : registry.run i.description (Context.start i inputs) with
  | error failure => exact trivial
  | ok context =>
    change Computes _ _ context.outputs
    cases houtputs : context.outputs with
    | error failure => exact trivial
    | ok outputs => exact h inputs hinputs context outputs hcontext houtputs

namespace Session

/-- Stores are opened over certain roots, and what is put or computed has the shape that belongs to
its guid. -/
def Shaping (shapes : Guid → Shape) (roots : String → Prop) (registry : Registry) (_ : Session) :
    Request → Prop
  | .open settings => roots settings.dataDir ∧ roots settings.unorderedDir
  | .put guid entity => entity.shape = shapes guid
  | .exportUnordered _ => False
  | .execute i => i.Conforms shapes registry
  | .run dag => ∀ guid i, dag.instances.get? guid = some i → i.Conforms shapes registry
  | _ => True

variable {requests : List Request} {session : Session} {request : Request} {vault : Vault}

/-- A store or a disk in which everything has the shape that belongs to its guid. -/
private def Shaped (shapes : Guid → Shape) (roots : String → Prop) : Session → Prop
  | opened vault => vault.Shaped shapes roots
  | closed disk => disk.Shaped shapes roots

private theorem Shaped.disk (h : session.Shaped shapes roots) :
    session.disk.Shaped shapes roots := by
  cases session with
  | closed disk => exact h
  | opened vault =>
    have hdisk : vault.disk.Shaped shapes roots := Vault.Shaped.disk h
    exact hdisk.of_sameCatalogs (hdisk.copies.of_nodes vault.nodes_close) vault.sameCatalogs_close

private theorem Shaping.allows (h : Shaping shapes roots registry session request) :
    (Regime.shaped shapes roots).Allows registry request := by
  cases request with
  | put guid entity => exact h
  | exportUnordered guid => exact h
  | importUnordered guid => exact Regime.exchanges_shaped
  | execute i => exact Instance.Conforms.serves h
  | run dag => exact fun guid i hi => Instance.Conforms.serves (h guid i hi)
  | _ => exact trivial

private theorem next_shaped (h : session.Shaped shapes roots)
    (hrequest : Shaping shapes roots registry session request) :
    (session.next registry request).2.Shaped shapes roots := by
  apply next_of_cases fun answer => answer.2.Shaped shapes roots
  case hopen =>
    rintro settings rfl
    apply (h.disk.copies.open_yields settings).mono
    · rintro vault disk ⟨hvault, hcopies, hcatalogs⟩
      rw [hvault]
      exact ⟨hrequest.1, hrequest.2, nofun, h.disk.of_sameCatalogs hcopies hcatalogs⟩
    · rintro failure disk ⟨hcopies, hcatalogs, -⟩
      exact h.disk.of_sameCatalogs hcopies hcatalogs
  case hclose => exact fun _ => h.disk
  case hclosed =>
    rintro disk rfl
    exact h
  case hwork =>
    rintro vault rfl - -
    apply ((Regime.writes_shaped.keeps_work hrequest.allows).yields vault h).mono
    · exact fun _ _ hafter => hafter.1
    · exact fun _ _ hafter => hafter.1

/-- Where every guid stands for entities of one kind and size only, the entry of what is persisted
has the kind of its complete copy, and the size of whatever this is read as. -/
theorem history_described {disk : Disk} (hstart : disk.Shaped shapes roots)
    (hhistory : History registry (Shaping shapes roots registry) (closed disk) requests
      (opened vault)) {catalog : Catalog} {entry : Catalog.Entry}
    (hcatalog : vault.records? = some catalog) (hentry : catalog.entity? guid = .ok (some entry))
    (hpersisted : vault.hasPersisted guid) :
    ∃ stored, (∀ b, base vault.settings.dataDir = .ok b → vault.disk.Holds b guid stored) ∧
      stored.manifest.kind = entry.kind ∧
      ∀ (resolve : Guid → Except Failure VertexSet) (entity : Entity),
        Ordered.decode stored resolve = .ok entity →
        entity.kind = entry.kind ∧ entity.size = entry.size.toNat := by
  have hshaped : vault.Shaped shapes roots := by
    apply hhistory.invariant (Shaped shapes roots)
    · exact hstart
    · exact fun _ _ h hrequest => next_shaped h hrequest
  obtain ⟨stored, hstored, hholds⟩ := hshaped.disk.copies.exists_copy hshaped.dataDir hpersisted
  have hsame : stored.manifest.shape = entry.shape := by
    obtain ⟨id, -, rfl⟩ := Option.map_eq_some_iff.1 hcatalog
    rw [hstored.shape, hshaped.disk.entries id guid entry hentry]
  have hkind : stored.manifest.kind = entry.kind := congrArg Shape.kind hsame
  have hsize : stored.manifest.size = entry.size := congrArg Shape.size hsame
  refine ⟨stored, hholds, hkind, fun resolve entity hdecode => ?_⟩
  have hdescribed := Ordered.described_of_decode hdecode
  exact ⟨hdescribed.kind.trans hkind, hdescribed.size.trans (congrArg UInt64.toNat hsize)⟩

/-- A store with a catalog is opened over fresh roots. -/
private theorem exists_blank (registry : Registry) {site : Site} {disk : Disk} {settings : Settings}
    (allowed : Session → Request → Prop) (h : site.Fresh disk)
    (hdata : settings.dataDir = site.dataDir) (hcatalog : settings.catalog = true)
    (hallowed : allowed (closed disk) (.open settings)) :
    ∃ vault, History registry allowed (closed disk) [.open settings] (opened vault) ∧
      ∃ id, vault.Blank site.dataDir site.dataBase id := by
  have hstart : History registry allowed (closed disk) [] (closed disk) := .start
  have hopen : Yields (Vault.open settings) disk
      (fun vault _ => ∃ id, vault.Blank site.dataDir site.dataBase id) fun _ _ => False := by
    apply ((h.open_sturdy hdata).and (h.ready.open_finds hdata hcatalog)).mono ?_
      fun _ _ hfalse => hfalse.1
    rintro vault _ ⟨⟨-, hempty, hsturdy, hnew⟩, id, hid, -⟩
    refine ⟨id, hsturdy, hid, fun guid => ⟨?_, ?_⟩⟩
    · rw [Vault.get?, hempty]
      rfl
    · rw [Bool.eq_false_iff, Vault.hasPersisted, hsturdy.dataDir]
      exact fun hcontains => hnew guid (marked_of_contains hsturdy.usable hcontains)
  exact hstart.open_of_yields settings hallowed hopen

/-- A vertex set of one vertex is persisted, and its entry says so. -/
theorem history_described_set :
    let shapes : Guid → Shape := fun _ => ⟨.vertexSet, 1⟩
    let roots : String → Prop := fun root => root = "data" ∨ root = "exchange"
    let requests : List Request := [.open ⟨"data", "exchange", .reject, false, true⟩,
      .put (Guid.filled 1) (.vertexSet ⟨[7]⟩), .persist (Guid.filled 1)]
    ∃ vault catalog producer, History Registry.builtin (Shaping shapes roots Registry.builtin)
        (closed Disk.empty) requests (opened vault) ∧
      vault.records? = some catalog ∧
      catalog.entity? (Guid.filled 1) = .ok (some ⟨Guid.filled 1, .vertexSet, 1, producer⟩) ∧
      vault.hasPersisted (Guid.filled 1) ∧
      ∃ stored, (∀ b, base vault.settings.dataDir = .ok b →
          vault.disk.Holds b (Guid.filled 1) stored) ∧
        stored.manifest.kind = .vertexSet ∧
        ∀ (resolve : Guid → Except Failure VertexSet) (entity : Entity),
          Ordered.decode stored resolve = .ok entity →
            entity.kind = .vertexSet ∧ entity.size = (1 : UInt64).toNat := by
  intro shapes roots requests
  have hdisk : Disk.empty.Shaped shapes roots := by
    refine ⟨fun root b _ _ guid hmarked => absurd hmarked (not_marked_empty b guid), fun id => ?_⟩
    exact Catalog.shaped_empty
  have hopening : Shaping shapes roots Registry.builtin (closed Disk.empty)
    (.open ⟨"data", "exchange", .reject, false, true⟩) := ⟨.inl rfl, .inr rfl⟩
  obtain ⟨first, hopen, id, hblank⟩ :=
    exists_blank Registry.builtin _ fresh_sample rfl rfl hopening
  have hfits : (Entity.vertexSet ⟨[7]⟩).Fits first.registered := List.nodup_singleton 7
  have hshape : Shaping shapes roots Registry.builtin (opened first)
    (.put (Guid.filled 1) (.vertexSet ⟨[7]⟩)) := rfl
  obtain ⟨_, hput, rfl⟩ := hopen.step_of_yields (.put (Guid.filled 1) (.vertexSet ⟨[7]⟩)) hshape
    trivial rfl (Vault.put_of_fits (hblank.new _).1 hfits)
  obtain ⟨vault, hpersist, hsaved⟩ := hput.step_of_yields (.persist (Guid.filled 1)) trivial
    trivial rfl
    (Vault.persist_saves (hblank.sturdy.of_entities _) (Vault.get?_insert_self first _ _))
  obtain ⟨producer, hentry⟩ := hsaved.entry id hblank.catalog
  have hrecords : vault.records? = some (vault.disk.catalog id) := by
    rw [Vault.records?, hsaved.enriches.catalog.trans hblank.catalog]
    rfl
  have hpersisted : vault.hasPersisted (Guid.filled 1) := by
    rw [Vault.hasPersisted, hsaved.enriches.sturdy.dataDir]
    exact hsaved.contains
  exact ⟨vault, _, producer, hpersist, hrecords, hentry, hpersisted,
    history_described hdisk hpersist hrecords hentry hpersisted⟩

end Session

/-! ### Entries that describe something else -/

namespace Session

variable {start : Session} {requests : List Request} {vault : Vault} {root : String} {b : Address}
  {set other : VertexSet} {id : Nat}

/-- A vertex set is persisted and dropped from memory, and then another one is persisted under its
guid: the copy stays, and the entry does not. -/
theorem History.misdescribed (h : History registry (fun _ _ => True) start requests (opened vault))
    (hblank : vault.Blank root b id)
    (hset : set.mapping.Nodup) (hother : other.mapping.Nodup) :
    ∃ after, History registry (fun _ _ => True) start
        (requests ++ [.put guid (.vertexSet set)] ++ [.persist guid] ++ [.remove guid] ++
          [.put guid (.vertexSet other)] ++ [.persist guid]) (opened after) ∧
      after.hasPersisted guid ∧ after.disk.Holds b guid (Vault.setCopy guid set) ∧
      ∃ catalog producer, after.records? = some catalog ∧ catalog.entity? guid
        = .ok (some ⟨guid, .vertexSet, UInt64.ofNat other.size, producer⟩) := by
  have hfits : (Entity.vertexSet set).Fits vault.registered := hset
  obtain ⟨_, hput, rfl⟩ := h.step_of_yields (.put guid (.vertexSet set)) trivial trivial rfl
    (Vault.put_of_fits (hblank.new guid).1 hfits)
  obtain ⟨saved, hpersist, hsaved⟩ := hput.step_of_yields (.persist guid) trivial trivial rfl
    (Vault.persist_saves (hblank.sturdy.of_entities _) (Vault.get?_insert_self vault guid _))
  let removed : Vault := { saved with entities := saved.entities.erase guid }
  have hwork : Yields (Vault.remove guid) saved (fun _ after => after = removed)
    fun _ _ => False := rfl
  obtain ⟨_, hremove, rfl⟩ := hpersist.step_of_yields (.remove guid) trivial trivial rfl hwork
  have hgone : removed.get? guid = none := SortedMap.get?_erase_self _ _
  have hagain : (Entity.vertexSet other).Fits removed.registered := hother
  obtain ⟨_, hreplace, rfl⟩ := hremove.step_of_yields (.put guid (.vertexSet other)) trivial trivial
    rfl (Vault.put_of_fits hgone hagain)
  obtain ⟨after, hlast, hafter⟩ := hreplace.step_of_yields (.persist guid) trivial trivial rfl
    (Vault.persist_saves (hsaved.enriches.sturdy.of_entities _)
      (Vault.get?_insert_self removed guid _))
  have hcopy : saved.disk.Holds b guid (Vault.setCopy guid set) := by
    apply hsaved.holds
    have hnew := (hblank.new guid).2
    rw [Vault.hasPersisted, hblank.sturdy.dataDir] at hnew
    exact hnew
  have hid : saved.catalog = some id := hsaved.enriches.catalog.trans hblank.catalog
  obtain ⟨producer, hentry⟩ := hafter.entry id hid
  refine ⟨after, hlast, ?_, (hafter.enriches.spares guid hsaved.contains).holds hcopy,
    after.disk.catalog id, producer, ?_, hentry⟩
  · rw [Vault.hasPersisted, hafter.enriches.sturdy.dataDir]
    exact hafter.contains
  · rw [Vault.records?, hafter.enriches.catalog]
    change saved.catalog.map _ = _
    rw [hid]
    rfl

/-- The entry of a vertex set with one vertex comes to say that there are two. -/
theorem history_misdescribed :
    let requests : List Request := [.open ⟨"data", "exchange", .reject, false, true⟩,
      .put (Guid.filled 1) (.vertexSet ⟨[1]⟩), .persist (Guid.filled 1), .remove (Guid.filled 1),
      .put (Guid.filled 1) (.vertexSet ⟨[1, 2]⟩), .persist (Guid.filled 1)]
    ∃ vault stored catalog entry, History Registry.builtin (fun _ _ => True) (closed Disk.empty)
        requests (opened vault) ∧
      vault.records? = some catalog ∧ catalog.entity? (Guid.filled 1) = .ok (some entry) ∧
      vault.hasPersisted (Guid.filled 1) ∧ vault.disk.Holds ["data"] (Guid.filled 1) stored ∧
      (∀ resolve : Guid → Except Failure VertexSet,
        Ordered.decode stored resolve = .ok (.vertexSet ⟨[1]⟩)) ∧
      entry.size ≠ 1 := by
  intro requests
  let settings : Settings := ⟨"data", "exchange", .reject, false, true⟩
  obtain ⟨first, hopen, id, hblank⟩ :=
    exists_blank Registry.builtin (fun _ _ => True) fresh_sample (show settings.dataDir = _ from rfl)
      rfl trivial
  have hset : (⟨[1]⟩ : VertexSet).mapping.Nodup := List.nodup_singleton 1
  have hother : (⟨[1, 2]⟩ : VertexSet).mapping.Nodup := by decide
  obtain ⟨vault, hhistory, hpersisted, hholds, catalog, producer, hcatalog, hentry⟩ :=
    hopen.misdescribed hblank hset hother
  have hsizes : UInt64.ofNat (VertexSet.size ⟨[1, 2]⟩) ≠ 1 := by decide
  refine ⟨vault, _, catalog, _, hhistory, hcatalog, hentry, hpersisted, hholds, fun resolve => ?_,
    hsizes⟩
  exact Vault.decode_setCopy (List.nodup_singleton 1) (by decide)

end Session

end GraphVault
