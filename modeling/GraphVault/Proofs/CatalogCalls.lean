import GraphVault.Proofs.Content
import GraphVault.Proofs.Records
import GraphVault.Proofs.Sites

/-!
# Catalogs as maps

Whoever records instances and entities in a catalog, forgets entities and opens the catalog anew
finds under each guid what was recorded last, and finds all of it listed in the order of guids
(`Catalog.calls_recorded`). Nothing that is recorded is too long to be read back.
-/

namespace GraphVault

open Disk
open GraphVault.Path (Admissible)

/-- Closes the store and opens it anew over the same roots. -/
def Vault.reopen : VaultM Unit := fun vault =>
  match Vault.open vault.settings vault.close with
  | .ok next _ => .ok () next
  | .error failure disk => .error failure { vault with disk }

namespace Catalog

/-! ### Calls -/

/-- What may be done with a catalog. -/
inductive Call where
  | recordInstance (i : Instance)
  | recordEntity (entry : Entry)
  | forgetEntity (guid : Guid)
  | reopen

namespace Call

/-- The catalog afterwards. -/
def change : Call → Catalog → Catalog
  | .recordInstance i, catalog => catalog.recordInstance i
  | .recordEntity entry, catalog => catalog.recordEntity entry
  | .forgetEntity guid, catalog => catalog.forgetEntity guid
  | .reopen, catalog => catalog

/-- Does it with the catalog of a store. -/
def perform : Call → VaultM Unit
  | .reopen => Vault.reopen
  | call => Vault.modifyCatalog call.change

/-- The instance that is recorded, if it is recorded under a guid. -/
def instanceUnder (guid : Guid) : Call → Option Instance
  | .recordInstance i => if i.guid = guid then some i else none
  | _ => none

/-- What the record of an entity becomes: the recorded entry, or nothing once it is forgotten. -/
def entryUnder (guid : Guid) : Call → Option (Option Entry)
  | .recordEntity entry => if entry.guid = guid then some (some entry) else none
  | .forgetEntity forgotten => if forgotten = guid then some none else none
  | _ => none

/-- What is recorded is no longer than can be written down. -/
def Encodable : Call → Prop
  | .recordInstance i => i.Measured ∧ i.outputs.size < 2 ^ 64
  | _ => True

end Call

/-- The instance that was recorded last under a guid. -/
def lastInstance (guid : Guid) (calls : List Call) : Option Instance :=
  calls.reverse.findSome? (Call.instanceUnder guid)

/-- The entry that was recorded last of an entity, if the entity was not forgotten since. -/
def lastEntry (guid : Guid) (calls : List Call) : Option Entry :=
  (calls.reverse.findSome? (Call.entryUnder guid)).join

variable {calls : List Call} {call : Call} {catalog : Catalog} {guid g : Guid} {i : Instance}
  {entry : Entry}

theorem lastInstance_append (g : Guid) (calls : List Call) (call : Call) :
    lastInstance g (calls ++ [call]) = (call.instanceUnder g).or (lastInstance g calls) := by
  rw [lastInstance, List.reverse_append, List.reverse_singleton, List.singleton_append,
    List.findSome?_cons]
  cases call.instanceUnder g <;> rfl

theorem lastEntry_append (g : Guid) (calls : List Call) (call : Call) :
    lastEntry g (calls ++ [call]) = (call.entryUnder g).getD (lastEntry g calls) := by
  rw [lastEntry, List.reverse_append, List.reverse_singleton, List.singleton_append,
    List.findSome?_cons]
  cases call.entryUnder g <;> rfl

/-! ### What is found after calls -/

theorem instance?_recordInstance_self (h : Instance.codec.Restores i) :
    (catalog.recordInstance i).instance? i.guid = .ok (some i) :=
  find_of_holds h (SortedMap.get?_insert_self _ _ _)

theorem instance?_recordInstance_of_ne (h : g ≠ i.guid) :
    (catalog.recordInstance i).instance? g = catalog.instance? g := by
  have htext : g.text ≠ i.guid.text := fun heq => h (Guid.text_injective heq)
  rw [instance?, find, Catalog.recordInstance, SortedMap.get?_insert_of_ne _ _ htext, instance?,
    find]

/-- A catalog has on record what calls have left in it, and nothing that cannot be read. -/
structure Recorded (calls : List Call) (catalog : Catalog) : Prop where
  filedInstances : Filed Instance.codec (·.guid) catalog.instances
  filedEntities : Filed Entry.codec (·.guid) catalog.entities
  instances : ∀ g, catalog.instance? g = .ok (lastInstance g calls)
  entities : ∀ g, catalog.entity? g = .ok (lastEntry g calls)

theorem recorded_empty : Recorded [] empty :=
  ⟨filed_empty, filed_empty, fun _ => rfl, fun _ => rfl⟩

/-- A call leaves the table that it is not about as it is, and all records under other guids. -/
theorem Recorded.step (h : Recorded calls catalog) (hcall : call.Encodable) :
    Recorded (calls ++ [call]) (call.change catalog) := by
  cases call with
  | recordInstance i =>
    have hrestores := Instance.restores_codec hcall.1 hcall.2
    refine ⟨h.filedInstances.insert hrestores, h.filedEntities, fun g => ?_, fun g => ?_⟩
    · rw [lastInstance_append, Call.instanceUnder]
      split
      · rename_i hguid
        subst hguid
        exact instance?_recordInstance_self hrestores
      · rename_i hguid
        exact (instance?_recordInstance_of_ne (Ne.symm hguid)).trans (h.instances g)
    · rw [lastEntry_append]
      exact h.entities g
  | recordEntity entry =>
    refine ⟨h.filedInstances, h.filedEntities.insert entry.restores_codec, fun g => ?_, fun g => ?_⟩
    · rw [lastInstance_append]
      exact h.instances g
    · rw [lastEntry_append, Call.entryUnder]
      split
      · rename_i hguid
        subst hguid
        exact entity?_recordEntity_self catalog entry
      · rename_i hguid
        exact (entity?_recordEntity_of_ne catalog (Ne.symm hguid)).trans (h.entities g)
  | forgetEntity guid =>
    refine ⟨h.filedInstances, h.filedEntities.erase guid, fun g => ?_, fun g => ?_⟩
    · rw [lastInstance_append]
      exact h.instances g
    · rw [lastEntry_append, Call.entryUnder]
      split
      · rename_i hguid
        subst hguid
        exact entity?_forgetEntity_self catalog guid
      · rename_i hguid
        exact (entity?_forgetEntity_of_ne catalog (Ne.symm hguid)).trans (h.entities g)
  | reopen =>
    refine ⟨h.filedInstances, h.filedEntities, fun g => ?_, fun g => ?_⟩
    · rw [lastInstance_append]
      exact h.instances g
    · rw [lastEntry_append]
      exact h.entities g

theorem Recorded.exists_listInstances (h : Recorded calls catalog) :
    ∃ listed, catalog.listInstances = .ok listed ∧
      listed.Pairwise (fun a b => compare a.guid b.guid = .lt) ∧
      ∀ i, i ∈ listed ↔ lastInstance i.guid calls = some i := by
  obtain ⟨listed, hlisted, hsorted, hmem⟩ := h.filedInstances.exists_found
  refine ⟨listed, hlisted, hsorted, fun i => ?_⟩
  have hfind : find Instance.codec catalog.instances i.guid = _ := h.instances i.guid
  rw [hmem i, hfind, Except.ok.injEq]

theorem Recorded.exists_listEntities (h : Recorded calls catalog) :
    ∃ listed, catalog.listEntities = .ok listed ∧
      listed.Pairwise (fun a b => compare a.guid b.guid = .lt) ∧
      ∀ entry, entry ∈ listed ↔ lastEntry entry.guid calls = some entry := by
  obtain ⟨listed, hlisted, hsorted, hmem⟩ := h.filedEntities.exists_found
  refine ⟨listed, hlisted, hsorted, fun entry => ?_⟩
  have hfind : find Entry.codec catalog.entities entry.guid = _ := h.entities entry.guid
  rw [hmem entry, hfind, Except.ok.injEq]

end Catalog

/-! ### Opening a catalog anew -/

namespace Vault

variable {vault : Vault} {settings : Settings} {disk opened : Disk} {b : Address} {id : Nat}
  {catalog : Catalog}

/-- The catalog of a store with these settings is found on a disk. -/
structure Findable (b : Address) (id : Nat) (catalog : Catalog) (settings : Settings)
    (disk : Disk) : Prop where
  enabled : settings.catalog = true
  admissible : Admissible settings.catalogPath
  reaches : disk.Reaches settings.dataDir b
  node : disk.node? (catalogAddress b) = some (.database id)
  content : disk.catalogs[id]? = some catalog

/-- A store has a catalog, and keeps it below its root. -/
structure Catalogued (b : Address) (id : Nat) (catalog : Catalog) (vault : Vault) : Prop
    extends Findable b id catalog vault.settings vault.disk where
  own : vault.catalog = some id

theorem Catalogued.records_eq (h : vault.Catalogued b id catalog) :
    vault.records? = some catalog := by
  rw [records?, h.own, Option.map_some, Disk.catalog, h.content, Option.getD_some]

theorem Catalogued.modifyCatalog (h : vault.Catalogued b id catalog) (change : Catalog → Catalog) :
    Yields (modifyCatalog change) vault (fun _ after => after.Catalogued b id (change catalog))
      fun _ _ => False := by
  obtain ⟨hlt, -⟩ := List.getElem?_eq_some_iff.1 h.content
  have hcontent : vault.disk.catalog id = catalog := by
    rw [Disk.catalog, h.content, Option.getD_some]
  rw [Vault.modifyCatalog, yields_modify]
  simp only [h.own, hcontent]
  refine ⟨⟨h.enabled, h.admissible, h.reaches, h.node, ?_⟩, rfl⟩
  exact List.getElem?_set_self hlt

-- What it makes is known from what it yields, so that it need not be looked into.
attribute [local irreducible] createAll

/-- Opening a store over a root that has a catalog finds this one. -/
theorem Findable.open_yields (h : Findable b id catalog settings disk) (hfree : id ∉ disk.held) :
    Yields (Vault.open settings) disk (fun vault _ => vault.Catalogued b id catalog)
      fun _ _ => False := by
  unfold Vault.open
  rw [if_pos h.enabled]
  simp only [yields_bind, yields_adaptExcept, yields_get, yields_pure]
  apply (createParent_of_reaches plain_catalogName h.admissible h.reaches).mono ?_
    fun _ _ hfalse => hfalse
  rintro - grown ⟨hgrows, hreaches⟩
  have hnode : grown.node? (catalogAddress b) = some (.database id) := hgrows.node_eq h.node
  have hresolve : grown.resolve settings.catalogPath = .ok (catalogAddress b) :=
    (resolve_join_eq_ok_iff plain_catalogName).2 ⟨h.admissible, b, hreaches, rfl⟩
  have hfree' : id ∉ grown.held := hgrows.held ▸ hfree
  simp only [openCatalog, yields_bind, yields_get, hresolve, Except.mapError, yields_ofExcept_ok,
    hnode, if_neg hfree']
  exact ⟨⟨h.enabled, h.admissible, hreaches, hnode, hgrows.catalogs ▸ h.content⟩, rfl⟩

/-- A catalog that was opened stands below the root that was asked for. -/
private theorem openCatalog_finds (root : String) (disk : Disk) :
    Yields (openCatalog (Path.join root "catalog.redb")) disk
      (fun id after => Admissible (Path.join root "catalog.redb") ∧
        ∃ b, after.Reaches root b ∧ after.node? (catalogAddress b) = some (.database id))
      fun _ _ => True := by
  simp only [openCatalog, yields_bind, yields_get]
  refine yields_ofExcept (fun address haddress => ?_) fun _ _ => trivial
  obtain ⟨hadmissible, b, hreaches, rfl⟩ :=
    (resolve_join_eq_ok_iff plain_catalogName).1 (mapError_eq_ok_iff.1 haddress)
  -- the new catalog takes the place of no directory on the way to it
  have hcreated (catalogs : List Catalog) (id : Nat)
      (hnew : ¬ disk.HasDirectory (catalogAddress b)) :
      (({ disk with catalogs }.put (catalogAddress b) (.database id)).hold id).Reaches root b ∧
        (({ disk with catalogs }.put (catalogAddress b) (.database id)).hold id).node?
          (catalogAddress b) = some (.database id) := by
    refine ⟨reaches_iff_way.2 ((reaches_iff_way.1 hreaches).mono fun x hx => ?_),
      node?_put_self { disk with catalogs } _ (isPermanent_catalogAddress b)⟩
    have hne : x ≠ catalogAddress b := by
      rintro rfl
      exact hnew hx
    exact (node?_put_of_ne { disk with catalogs } _ hne).trans hx
  split
  · rename_i hnode
    refine ⟨hadmissible, b, hcreated _ _ fun hdirectory => ?_⟩
    cases hnode.symm.trans hdirectory
  · trivial
  · rename_i hnode
    split
    · refine ⟨hadmissible, b, hcreated _ _ fun hdirectory => ?_⟩
      cases hnode.symm.trans hdirectory
    · trivial
  · rename_i hnode
    split
    · trivial
    · exact ⟨hadmissible, b, hreaches, hnode⟩

/-- A store that was opened and found a catalog finds it again. -/
theorem catalogued_of_open (hopen : Vault.open settings disk = .ok vault opened)
    (hid : vault.catalog = some id) (hcontent : vault.disk.catalogs[id]? = some catalog) :
    ∃ b, vault.Catalogued b id catalog := by
  have hyields : Yields (Vault.open settings) disk
      (fun vault after => vault.disk = after ∧ ∀ id, vault.catalog = some id →
        vault.settings.catalog = true ∧ Admissible vault.settings.catalogPath ∧
          ∃ b, after.Reaches vault.settings.dataDir b ∧
            after.node? (catalogAddress b) = some (.database id)) fun _ _ => True := by
    unfold Vault.open
    split
    · rename_i henabled
      simp only [yields_bind, yields_adaptExcept, yields_get, yields_pure]
      apply (moves_createAll _ disk).mono ?_ fun _ _ _ => trivial
      rintro - grown -
      apply (openCatalog_finds settings.dataDir grown).mono ?_ fun _ _ _ => trivial
      rintro id after ⟨hadmissible, hfound⟩
      refine ⟨trivial, fun _ hid => ?_⟩
      cases hid
      exact ⟨henabled, hadmissible, hfound⟩
    · refine ⟨rfl, fun _ hid => ?_⟩
      cases hid
  obtain ⟨rfl, hfound⟩ := (yields_iff_of_ok hopen).1 hyields
  obtain ⟨henabled, hadmissible, b, hreaches, hnode⟩ := hfound id hid
  exact ⟨b, ⟨henabled, hadmissible, hreaches, hnode, hcontent⟩, hid⟩

theorem Catalogued.reopen (h : vault.Catalogued b id catalog) :
    Yields Vault.reopen vault (fun _ after => after.Catalogued b id catalog)
      fun _ _ => False := by
  have hclosed : Findable b id catalog vault.settings vault.close := by
    rw [Vault.close, h.own]
    exact ⟨h.enabled, h.admissible, h.reaches, h.node, h.content⟩
  have hfree : id ∉ vault.close.held := by
    rw [Vault.close, h.own]
    simp [release]
  obtain ⟨next, _, hopen, hnext⟩ := (hclosed.open_yields hfree).exists_ok
  rw [Yields, Vault.reopen, hopen]
  exact hnext

end Vault

/-- A manifest is read back for its own guid if it counts no more rows than a manifest may declare,
and never otherwise. -/
theorem Manifest.decode_encode_iff {manifest : Manifest}
    (h : manifest.references.length < 2 ^ 64) (g : Guid) :
    decode manifest.encode g = .ok manifest ↔
      manifest.guid = g ∧ manifest.rowCount.toNat ≤ maxRows := by
  have hread := (restores_codec h).read_encode
  rw [decode, encode, Header.strip_append]
  simp only [bind, Except.bind, hread]
  by_cases hguid : manifest.guid = g
  · by_cases hcount : maxRows < manifest.rowCount.toNat
    · simp [hguid, hcount, throw, throwThe, MonadExceptOf.throw]
    · simp [hguid, hcount, pure, Except.pure, Nat.le_of_not_lt]
  · simp [hguid, throw, throwThe, MonadExceptOf.throw]

namespace Catalog

open Vault (Catalogued)

variable {settings : Settings} {disk opened : Disk} {vault : Vault} {b : Address} {id : Nat}
  {calls done : List Call} {call : Call} {catalog : Catalog}

theorem Call.perform_yields (h : vault.Catalogued b id catalog) (call : Call) :
    Yields call.perform vault (fun _ after => after.Catalogued b id (call.change catalog))
      fun _ _ => False := by
  cases call with
  | recordInstance i => exact h.modifyCatalog _
  | recordEntity entry => exact h.modifyCatalog _
  | forgetEntity guid => exact h.modifyCatalog _
  | reopen => exact h.reopen

/-- Calls never fail, and leave on record what they are to leave. -/
theorem perform_all (h : vault.Catalogued b id catalog) (hrecorded : Recorded done catalog)
    (hcalls : ∀ call ∈ calls, call.Encodable) :
    Yields (calls.forM Call.perform) vault
      (fun _ after => ∃ now, after.Catalogued b id now ∧ Recorded (done ++ calls) now)
      fun _ _ => False := by
  induction calls generalizing vault catalog done with
  | nil => exact ⟨catalog, h, by rwa [List.append_nil]⟩
  | cons call calls ih =>
    rw [List.forM_eq_forM, List.forM_cons, yields_bind]
    apply (Call.perform_yields h call).mono ?_ fun _ _ hfalse => hfalse
    rintro - after hafter
    have hstep := hrecorded.step (hcalls call List.mem_cons_self)
    rw [List.append_cons]
    exact ih hafter hstep fun other hother => hcalls other (List.mem_cons_of_mem call hother)

/-- A store was opened over an empty catalog. Whatever calls are made that record nothing too long
to be written down, they succeed, and under each guid there are the instance that was recorded last
and the entry that was recorded last unless the entity was forgotten since. All of them are listed,
in the order of guids. A manifest is read back for its own guid if it counts no more rows than a
manifest may declare, and never otherwise. -/
theorem calls_recorded (hopen : Vault.open settings disk = .ok vault opened)
    (hid : vault.catalog = some id) (hempty : vault.disk.catalogs[id]? = some empty)
    (hcalls : ∀ call ∈ calls, call.Encodable) :
    (∃ after catalog, calls.forM Call.perform vault = .ok () after ∧
      after.records? = some catalog ∧
      (∀ g, catalog.instance? g = .ok (lastInstance g calls)) ∧
      (∀ g, catalog.entity? g = .ok (lastEntry g calls)) ∧
      (∃ listed, catalog.listInstances = .ok listed ∧
        listed.Pairwise (fun a b => compare a.guid b.guid = .lt) ∧
        ∀ i, i ∈ listed ↔ lastInstance i.guid calls = some i) ∧
      ∃ listed, catalog.listEntities = .ok listed ∧
        listed.Pairwise (fun a b => compare a.guid b.guid = .lt) ∧
        ∀ entry, entry ∈ listed ↔ lastEntry entry.guid calls = some entry) ∧
    ∀ (manifest : Manifest) (g : Guid), manifest.references.length < 2 ^ 64 →
      (Manifest.decode manifest.encode g = .ok manifest ↔
        manifest.guid = g ∧ manifest.rowCount.toNat ≤ 2 ^ 32) := by
  refine ⟨?_, fun manifest g h => ?_⟩
  · obtain ⟨b, hcatalogued⟩ := Vault.catalogued_of_open hopen hid hempty
    obtain ⟨_, after, hafter, catalog, hkept, hrecorded⟩ :=
      (perform_all hcatalogued recorded_empty hcalls).exists_ok
    exact ⟨after, catalog, hafter, hkept.records_eq, hrecorded.instances, hrecorded.entities,
      hrecorded.exists_listInstances, hrecorded.exists_listEntities⟩
  · exact Manifest.decode_encode_iff h g

/-- An instance that is recorded twice and an entity that is forgotten, with a catalog that is
opened anew in between. -/
theorem calls_recorded_reopened :
    let first : Instance := ⟨Guid.filled 1, SortedMap.empty, SortedMap.empty, ⟨"", []⟩⟩
    let second : Instance := ⟨Guid.filled 1, SortedMap.empty, SortedMap.empty, ⟨"Ωmega", [0, 255]⟩⟩
    let kept : Entry := ⟨Guid.filled 2, .vertexSet, 18446744073709551615, some (Guid.filled 1)⟩
    let lost : Entry := ⟨Guid.filled 3, .edgeBundle, 0, none⟩
    let calls : List Call := [.recordInstance first, .recordEntity lost, .recordEntity kept,
      .reopen, .forgetEntity (Guid.filled 3), .recordInstance second]
    ∃ vault opened,
      Vault.open ⟨"data", "exchange", .reject, false, true⟩ Disk.empty = .ok vault opened ∧
      vault.catalog = some 0 ∧ vault.disk.catalogs[0]? = some empty ∧
      (∀ call ∈ calls, call.Encodable) ∧
      ∃ after catalog, calls.forM Call.perform vault = .ok () after ∧
        after.records? = some catalog ∧ catalog.instance? (Guid.filled 1) = .ok (some second) ∧
        catalog.entity? (Guid.filled 2) = .ok (some kept) ∧
        catalog.entity? (Guid.filled 3) = .ok none := by
  intro first second kept lost calls
  have hfirst : first.Measured := by constructor <;> decide
  have hsecond : second.Measured := by constructor <;> decide
  have hcalls : ∀ call ∈ calls, call.Encodable := by
    simp only [calls, List.forall_mem_cons]
    exact ⟨⟨hfirst, by decide⟩, trivial, trivial, trivial, trivial, ⟨hsecond, by decide⟩, nofun⟩
  obtain ⟨vault, opened, hopen, hid, hempty⟩ : ∃ vault opened,
      Vault.open ⟨"data", "exchange", .reject, false, true⟩ Disk.empty = .ok vault opened ∧
      vault.catalog = some 0 ∧ vault.disk.catalogs[0]? = some empty := ⟨_, _, rfl, rfl, rfl⟩
  obtain ⟨⟨after, catalog, hafter, hrecords, hinstances, hentities, -⟩, -⟩ :=
    calls_recorded hopen hid hempty hcalls
  exact ⟨vault, opened, hopen, hid, hempty, hcalls, after, catalog, hafter, hrecords, hinstances _,
    hentities _, hentities _⟩

end Catalog

end GraphVault
