import GraphVault.Proofs.Saving
import GraphVault.Proofs.WriteOnce

/-!
# Purging

Purging drops an entity from memory, from its place on disk and from the catalog, one after the
other, and leaves everything else as it was. What it answers is decided before: by what is in memory
and what is complete on disk. So what an interrupted write has left behind goes unreported, and so
does an entry in the catalog that has no complete copy.
-/

namespace GraphVault

open Disk
open GraphVault.Path (Admissible)

theorem SortedMap.erase_eq_self {κ α : Type} [Ord κ] [Std.TransOrd κ] [Std.LawfulEqOrd κ]
    {m : SortedMap κ α} {k : κ} (h : m.get? k = none) : m.erase k = m := by
  refine SortedMap.ext fun other => ?_
  by_cases heq : other = k
  · rw [heq, get?_erase_self, h]
  · exact get?_erase_of_ne m heq

namespace EntityDirectory

variable {disk : Disk} {root : String} {g : Guid}

theorem contains_path_iff_reaches :
    disk.contains (path root g) ↔ Admissible (path root g) ∧
      ∃ b, disk.Reaches root b ∧ (disk.node? (b ++ [g.text])).isSome := by
  unfold Disk.contains find
  constructor
  · intro hexists
    cases hresolve : disk.resolve (path root g) with
    | error fault =>
      rw [hresolve] at hexists
      cases hexists
    | ok address =>
      obtain ⟨hadmissible, b, hb, rfl⟩ := resolve_path_iff.1 hresolve
      refine ⟨hadmissible, b, hb, ?_⟩
      cases hnode : disk.node? (b ++ [g.text]) with
      | none =>
        simp only [hresolve, bind, Except.bind, hnode] at hexists
        cases hexists
      | some node => rfl
  · rintro ⟨hadmissible, b, hb, hsome⟩
    obtain ⟨node, hnode⟩ := Option.isSome_iff_exists.1 hsome
    rw [resolve_path_iff.2 ⟨hadmissible, b, hb, rfl⟩]
    simp only [bind, Except.bind, hnode]
    rfl

/-- What is complete is there. -/
theorem contains_path_of_contains (h : contains disk root g) : disk.contains (path root g) := by
  obtain ⟨hmarker, b, hb, hdirectory, -⟩ := contains_iff.1 h
  obtain ⟨hnull, hshort⟩ := (Path.admissible_join_iff plain_marker).1 hmarker
  have hsize : (path root g).utf8ByteSize = Path.frontSize root + 64 := by
    rw [path, Path.size_join g.plain_text, Guid.utf8ByteSize_text]
  have hfront := Path.size_le_frontSize (path root g)
  have hadmissible : Admissible (path root g) := by
    refine (Path.admissible_join_iff g.plain_text).2
      ⟨fun hroot => hnull ((Path.null_mem_join_iff g.plain_text root).2 hroot), ?_⟩
    rw [Guid.utf8ByteSize_text]
    omega
  exact contains_path_iff_reaches.2 ⟨hadmissible, b, hb, by rw [hdirectory]; rfl⟩

/-- The directory of an entity is gone when it has been removed with all that is in it, or the root
led through it and leads nowhere now. -/
private theorem removeAll_empties (root : String) (g : Guid) (disk : Disk) :
    Yields (removeAll (path root g)) disk
      (fun _ after => after.contains (path root g) = false) fun _ _ => True := by
  rw [removeAll]
  simp only [yields_bind, yields_get, yields_set]
  refine yields_ofExcept (fun address haddress => ?_) fun _ _ => trivial
  refine yields_ofExcept (fun _ hrequire => ?_) fun _ _ => trivial
  obtain ⟨-, b, hb, rfl⟩ := resolve_path_iff.1 haddress
  -- A root that leads anywhere leads to the same address before and after.
  have hsame {disk' : Disk} {b' : Address} (hb' : disk'.Reaches root b') : b' = b := by
    have hbase := hb'.base_eq
    rw [hb.base_eq, Except.ok.injEq] at hbase
    exact hbase.symm
  split
  · rename_i after hremove
    obtain ⟨b', hb', rfl⟩ := removeDirectory_join g.plain_text hremove
    rw [hb.base_eq, Except.ok.injEq] at hb'
    subst hb'
    rw [yields_set, Bool.eq_false_iff]
    intro hexists
    obtain ⟨-, b', hreaches, hsome⟩ := contains_path_iff_reaches.1 hexists
    rw [hsame hreaches, node?_removeTree_of_prefix _ List.prefix_rfl (isPermanent_text _ _ _)]
      at hsome
    cases hsome
  · rename_i hmissing
    rw [yields_pure, Bool.eq_false_iff]
    intro hexists
    obtain ⟨hadmissible, b', hreaches, -⟩ := contains_path_iff_reaches.1 hexists
    obtain rfl := hsame hreaches
    have hlocate : (disk.clear (b' ++ [g.text])).locate (path root g) = .ok (b', some g.text) :=
      (locate_join_eq_ok_iff g.plain_text).2 ⟨hadmissible, b', hreaches, rfl⟩
    have hdirectory : (disk.clear (b' ++ [g.text])).node? (b' ++ [g.text]) = some .directory := by
      rw [node?_clear_of_not_below disk (by simp [isBelow])]
      exact requireDirectory_eq_ok_iff.1 hrequire
    rw [removeDirectory_of_locate g.plain_text hlocate, requireDirectory_eq_ok_iff.2 hdirectory]
      at hmissing
    simp only [bind, Except.bind] at hmissing
    split at hmissing <;> cases hmissing
  · trivial

/-- Nothing is found in the place of an entity that has been removed, and where nothing was found
before, nothing is changed. -/
theorem remove_empties (root : String) (g : Guid) (disk : Disk) :
    Yields (remove root g) disk
      (fun _ after => after.contains (path root g) = false ∧
        (disk.contains (path root g) = false → after = disk))
      fun _ _ => True := by
  simp only [remove, yields_bind, yields_get]
  split
  · rename_i hpresent
    rw [yields_adaptExcept]
    refine (removeAll_empties root g disk).mono (fun _ after hafter => ⟨hafter, fun habsent => ?_⟩)
      fun _ _ _ => trivial
    rw [hpresent] at habsent
    cases habsent
  · rename_i habsent
    exact ⟨by simpa using habsent, fun _ => rfl⟩

end EntityDirectory

namespace Vault

/-- There is nothing of an entity in memory, in its place on disk or in the catalog. -/
structure Without (vault : Vault) (g : Guid) : Prop where
  memory : vault.get? g = none
  disk : vault.disk.contains (EntityDirectory.path vault.settings.dataDir g) = false
  entry : ∀ catalog, vault.records? = some catalog → catalog.entity? g = .ok none

/-- Two states differ at most in what there is of one entity: under its guid in memory and in the
catalog, and at and below the address of its directory. -/
structure DiffersAt (g : Guid) (before after : Vault) : Prop where
  settings : after.settings = before.settings
  memory : ∀ x, x ≠ g → after.get? x = before.get? x
  node : ∀ address, (∀ b, base before.settings.dataDir = .ok b → ¬ b ++ [g.text] <+: address) →
    after.disk.node? address = before.disk.node? address
  catalog : after.catalog = before.catalog
  held : after.disk.held = before.disk.held
  instances : after.records?.map (·.instances) = before.records?.map (·.instances)
  entries : ∀ x, x ≠ g → after.records?.map (·.entity? x) = before.records?.map (·.entity? x)
  catalogs : ∀ id, before.catalog ≠ some id → after.disk.catalog id = before.disk.catalog id

variable {g : Guid} {vault after : Vault}

theorem DiffersAt.directory (h : DiffersAt g vault after) {b : Address}
    (hb : base vault.settings.dataDir = .ok b) {x : Guid} (hx : x ≠ g) (rest : Address) :
    after.disk.node? (b ++ x.text :: rest) = vault.disk.node? (b ++ x.text :: rest) := by
  refine h.node _ fun b' hb' => ?_
  rw [hb, Except.ok.injEq] at hb'
  exact hb' ▸ not_prefix_text hx rest

/-- What is below an address that is apart from the directory of the entity is the same. -/
theorem DiffersAt.below (h : DiffersAt g vault after) {b staging : Address}
    (hb : base vault.settings.dataDir = .ok b) (habove : ¬ staging <+: b ++ [g.text])
    (hbelow : ¬ b ++ [g.text] <+: staging) (rest : Address) :
    after.disk.node? (staging ++ rest) = vault.disk.node? (staging ++ rest) := by
  refine h.node _ fun b' hb' hprefix => ?_
  rw [hb, Except.ok.injEq] at hb'
  subst hb'
  rcases List.prefix_or_prefix_of_prefix hprefix (List.prefix_append staging rest) with hp | hp
  · exact hbelow hp
  · exact habove hp

/-! ### The catalog -/

private theorem setCatalog_catalog (disk : Disk) (id : Nat) :
    disk.setCatalog id (disk.catalog id) = disk := by
  have hcatalogs : disk.catalogs.set id (disk.catalog id) = disk.catalogs := by
    refine List.ext_getElem? fun other => ?_
    rw [List.getElem?_set]
    split
    · rename_i heq
      subst heq
      split
      · rename_i hlt
        rw [Disk.catalog, List.getElem?_eq_getElem hlt, Option.getD_some]
      · rename_i hge
        exact (List.getElem?_eq_none (Nat.not_lt.1 hge)).symm
    · rfl
  rw [setCatalog, hcatalogs]

/-- A number without a catalog stands for an empty one. -/
private theorem catalog_setCatalog_of_empty {change : Catalog → Catalog}
    (hempty : change .empty = .empty) (disk : Disk) (id : Nat) :
    (disk.setCatalog id (change (disk.catalog id))).catalog id = change (disk.catalog id) := by
  obtain hlt | hge := Nat.lt_or_ge id disk.catalogs.length
  · exact catalog_setCatalog_self hlt
  · have hmissing : disk.catalog id = .empty := by
      rw [Disk.catalog, List.getElem?_eq_none hge]
      rfl
    rw [hmissing, hempty, Disk.catalog, setCatalog, List.getElem?_eq_none (by simpa using hge)]
    rfl

private theorem modifyCatalog_changes {change : Catalog → Catalog}
    (hempty : change .empty = .empty) (vault : Vault) :
    Yields (modifyCatalog change) vault
      (fun _ after => (∃ catalogs, after = { vault with disk := { vault.disk with catalogs } }) ∧
        after.records? = vault.records?.map change ∧
        (∀ id, vault.catalog ≠ some id → after.disk.catalog id = vault.disk.catalog id) ∧
        (vault.records?.map change = vault.records? → after = vault))
      fun _ _ => False := by
  rw [modifyCatalog, yields_modify]
  split
  · rename_i hid
    have hrecords : vault.records? = none := by rw [records?, hid, Option.map_none]
    rw [hrecords]
    exact ⟨⟨vault.disk.catalogs, rfl⟩, rfl, fun _ _ => rfl, fun _ => rfl⟩
  · rename_i id hid
    have hrecords : vault.records? = some (vault.disk.catalog id) := by
      rw [records?, hid, Option.map_some]
    have hself := catalog_setCatalog_of_empty hempty vault.disk id
    refine ⟨⟨_, rfl⟩, ?_, fun other hother => ?_, fun hsame => ?_⟩
    · simp only [records?, hid, Option.map_some, hself]
    · obtain hsame | ⟨rfl, -⟩ := catalog_setCatalog vault.disk id
        (change (vault.disk.catalog id)) other
      · exact hsame
      · exact absurd hid hother
    · rw [hrecords, Option.map_some, Option.some.injEq] at hsame
      rw [hsame, setCatalog_catalog]

private theorem forgetEntity_eq_self {catalog : Catalog} (h : catalog.entity? g = .ok none) :
    catalog.forgetEntity g = catalog := by
  have hget : catalog.entities.get? g.text = none := by
    rw [Catalog.entity?_eq] at h
    split at h
    · assumption
    · rename_i bytes hbytes
      cases hread : Catalog.readRecord Catalog.Entry.codec g.text bytes <;> rw [hread] at h <;>
        cases h
  rw [Catalog.forgetEntity, SortedMap.erase_eq_self hget]

/-! ### Purging -/

/-- Removing an entity from disk touches no catalog and no other node. -/
private theorem removed_spares {root : String} {disk after : Disk}
    (h : after = disk ∨ ∃ b, base root = .ok b ∧ Removed b g disk after) :
    after.catalogs = disk.catalogs ∧ after.held = disk.held ∧
      ∀ address, (∀ b, base root = .ok b → ¬ b ++ [g.text] <+: address) →
        after.node? address = disk.node? address := by
  rcases h with rfl | ⟨b, hb, hremoved⟩
  · exact ⟨rfl, rfl, fun _ _ => rfl⟩
  · exact ⟨hremoved.catalogs, hremoved.held, fun a ha => hremoved.agrees a (ha b hb)⟩

private theorem purge_changes (g : Guid) (vault : Vault) :
    Yields (purge g) vault
      (fun removed after => removed = (vault.has g || vault.hasPersisted g) ∧ after.Without g ∧
        DiffersAt g vault after ∧ (vault.Without g → after = vault))
      fun _ _ => True := by
  simp only [purge, remove, yields_bind, yields_get, yields_set, yields_pure, onDisk_yields_iff]
  refine ((EntityDirectory.remove_empties _ g _).and (EntityDirectory.remove_yields _ g _)).mono ?_
    fun _ _ _ => trivial
  rintro - disk ⟨⟨hgone, hkept⟩, hdisk⟩
  obtain ⟨hcatalogs, hheld, hnode⟩ := removed_spares hdisk
  refine (modifyCatalog_changes rfl _).mono ?_ fun _ _ hfalse => hfalse.elim
  rintro - after ⟨⟨catalogs, hafter⟩, hrecords, hothers, hsame⟩
  have hcatalog : disk.catalog = vault.disk.catalog := by
    funext id
    rw [Disk.catalog, Disk.catalog, hcatalogs]
  have hbefore (entities : SortedMap Guid Entity) :
      ({ vault with entities, disk } : Vault).records? = vault.records? := by
    simp only [records?, hcatalog]
  rw [hbefore] at hrecords hsame
  refine ⟨rfl, ?_, ?_, fun hwithout => ?_⟩
  · rw [hafter] at hrecords ⊢
    refine ⟨SortedMap.get?_erase_self _ _, hgone, fun catalog hcatalog => ?_⟩
    rw [hrecords, Option.map_eq_some_iff] at hcatalog
    obtain ⟨earlier, -, rfl⟩ := hcatalog
    exact Catalog.entity?_forgetEntity_self earlier g
  · constructor
    case settings => rw [hafter]
    case memory =>
      intro x hx
      rw [hafter]
      exact SortedMap.get?_erase_of_ne _ hx
    case node =>
      intro address haddress
      rw [hafter]
      exact hnode address haddress
    case catalog => rw [hafter]
    case held =>
      rw [hafter]
      exact hheld
    case instances =>
      rw [hrecords, Option.map_map]
      rfl
    case entries =>
      intro x hx
      rw [hrecords, Option.map_map]
      exact congrArg (Option.map · vault.records?)
        (funext fun catalog => Catalog.entity?_forgetEntity_of_ne catalog hx)
    case catalogs =>
      intro id hid
      rw [hothers id hid, hcatalog]
  · have herase : vault.entities.erase g = vault.entities :=
      SortedMap.erase_eq_self hwithout.memory
    have hforget : vault.records?.map (·.forgetEntity g) = vault.records? := by
      cases hrecorded : vault.records? with
      | none => rfl
      | some catalog => exact congrArg some (forgetEntity_eq_self (hwithout.entry catalog hrecorded))
    rw [hsame hforget, herase, hkept hwithout.disk]

/-- Purging takes an entity from memory, from its place on disk and from the catalog, so that it is
missing afterwards, and changes nothing else: not the directories of other entities, not what lies
apart at another root, no other entry and no instance. It answers whether the entity was in memory
or complete on disk, and then something has gone. It leaves the store as it was just if there was
nothing of the entity; whatever else was there goes unreported. -/
theorem purge_confined {removed : Bool} (h : purge g vault = .ok removed after) :
    (after.Without g ∧ after.hasPersisted g = false ∧
      getOrLoad g after = .error (.missingEntity g) after) ∧
    DiffersAt g vault after ∧
    (∀ b, base vault.settings.dataDir = .ok b →
      (∀ x, x ≠ g → ∀ rest,
        after.disk.node? (b ++ x.text :: rest) = vault.disk.node? (b ++ x.text :: rest)) ∧
      ∀ staging, base vault.settings.unorderedDir = .ok staging → ¬ staging <+: b ++ [g.text] →
        ¬ b ++ [g.text] <+: staging → ∀ rest,
          after.disk.node? (staging ++ rest) = vault.disk.node? (staging ++ rest)) ∧
    removed = (vault.has g || vault.hasPersisted g) ∧
    (removed = true → after ≠ vault) ∧
    (removed = false → after.entities = vault.entities) ∧
    (after = vault ↔ vault.Without g) := by
  obtain ⟨hremoved, hwithout, hdiffers, hsame⟩ := (yields_iff_of_ok h).1 (purge_changes g vault)
  have hpersisted : after.hasPersisted g = false := by
    rw [Bool.eq_false_iff]
    intro hcontains
    have hpresent := EntityDirectory.contains_path_of_contains hcontains
    rw [hwithout.disk] at hpresent
    cases hpresent
  have hmissing : Yields (getOrLoad g) after (fun _ _ => False)
      fun failure last => failure = .missingEntity g ∧ last = after := by
    simp only [getOrLoad, findWith, yields_bind, yields_get, hwithout.memory, hpersisted]
    exact ⟨rfl, rfl⟩
  obtain ⟨_, _, hmissing, rfl, rfl⟩ := hmissing.exists_error
  refine ⟨⟨hwithout, hpersisted, hmissing⟩, hdiffers, fun b hb => ⟨fun x hx rest => ?_, ?_⟩,
    hremoved, ?_, ?_, fun heq => heq ▸ hwithout, hsame⟩
  · exact hdiffers.directory hb hx rest
  · exact fun staging _ habove hbelow rest => hdiffers.below hb habove hbelow rest
  · intro htrue heq
    rw [heq] at hwithout hpersisted
    have hhas : vault.has g = false :=
      Option.isSome_eq_false_iff.2 (Option.isNone_iff_eq_none.2 hwithout.memory)
    rw [hremoved, hhas, hpersisted] at htrue
    cases htrue
  · intro hfalse
    rw [hremoved, Bool.or_eq_false_iff] at hfalse
    refine SortedMap.ext fun x => ?_
    by_cases hx : x = g
    · subst hx
      have hbefore : vault.get? x = none :=
        Option.isNone_iff_eq_none.1 (Option.isSome_eq_false_iff.1 hfalse.1)
      exact hwithout.memory.trans hbefore.symm
    · exact hdiffers.memory x hx

/-- A store with two vertex sets in memory, both of them persisted. -/
def stocked : Vault :=
  let first := Guid.filled 1
  let second := Guid.filled 2
  let catalog := (Catalog.empty.recordEntity ⟨first, .vertexSet, 0, none⟩).recordEntity
    ⟨second, .vertexSet, 0, none⟩
  let disk := ({ Disk.empty with catalogs := [catalog] }.put ["ordered"] .directory).put
    ["ordered", "catalog.redb"] (.database 0)
  { settings := (Settings.rootedAt "").persistent
    entities := .ofList [(first, .vertexSet ⟨[]⟩), (second, .vertexSet ⟨[]⟩)]
    catalog := some 0
    disk := EntityDirectory.publish (EntityDirectory.publish disk ["ordered", first.text]
      (EntityDirectory.sampleCopy first 0)) ["ordered", second.text]
      (EntityDirectory.sampleCopy second 0) }

theorem purge_confined_stocked : ∃ after, purge (Guid.filled 1) stocked = .ok true after ∧
    after.Without (Guid.filled 1) ∧ DiffersAt (Guid.filled 1) stocked after ∧ after ≠ stocked := by
  have hpurge : ∃ after, purge (Guid.filled 1) stocked = .ok true after := ⟨_, rfl⟩
  obtain ⟨after, hpurge⟩ := hpurge
  obtain ⟨⟨hwithout, -⟩, hdiffers, -, -, hchanged, -⟩ := purge_confined hpurge
  exact ⟨after, hpurge, hwithout, hdiffers, hchanged rfl⟩

/-- A store whose data directory has what an interrupted write has left: a directory without its
marker. -/
def interrupted : Vault :=
  { inMemory (((Disk.empty.put ["ordered"] .directory).put
      ["ordered", (Guid.filled 1).text] .directory).put
      ["ordered", (Guid.filled 1).text, EntityDirectory.rowsFile] (.file (.stored []))) with
    settings := Settings.rootedAt "" }

/-- What an interrupted write has left is removed, and nothing is said to have been. -/
theorem purge_interrupted : ∃ after, purge (Guid.filled 1) interrupted = .ok false after ∧
    (interrupted.disk.node? ["ordered", (Guid.filled 1).text, "rows"]).isSome ∧
    after.disk.node? ["ordered", (Guid.filled 1).text, "rows"] = none ∧ after ≠ interrupted := by
  have hbefore : (interrupted.disk.node? ["ordered", (Guid.filled 1).text, "rows"]).isSome := by
    decide
  refine ⟨_, rfl, hbefore, rfl, fun heq => ?_⟩
  rw [← heq] at hbefore
  cases hbefore

end Vault

end GraphVault
