import GraphVault.Proofs.GivingUp
import GraphVault.Proofs.KeptCopies
import GraphVault.Proofs.Persisting
import GraphVault.Proofs.PositionalIntegrity

/-!
# Loops of references

References lead from what is no vertex set to vertex sets, and from these nowhere. As long as no
guid stands for a vertex set at one time and for something else at another, the copies that a store
writes do not refer to each other in a circle, and no work on them runs in one
(`Session.history_loopless`). Where a column becomes the vertex set of what was its own one, they do
(`Session.History.closes_loop`).
-/

namespace GraphVault

-- What these do is known from what they yield, so that they need not be looked into.
attribute [local irreducible] EntityDirectory.read EntityDirectory.write EntityDirectory.remove
  EntityDirectory.contains

open Disk EntityDirectory

/-- An entity that goes with a choice of the guids that stand for vertex sets. -/
structure Entity.Suits (sets : Guid → Prop) (guid : Guid) (entity : Entity) : Prop where
  kind : entity.kind = .vertexSet ↔ sets guid
  references : ∀ r ∈ entity.references, sets r

/-- A copy that goes with a choice of the guids that stand for vertex sets. -/
structure Stored.Suits (sets : Guid → Prop) (guid : Guid) (stored : Stored) : Prop where
  filed : stored.manifest.guid = guid
  kind : stored.manifest.kind = .vertexSet ↔ sets guid
  count : stored.manifest.references.length ≤ 2
  references : ∀ r ∈ stored.manifest.references.map (·.guid), sets r
  leaf : sets guid → stored.manifest.references = []

variable {sets : Guid → Prop} {roots : String → Prop} {guid : Guid} {entity : Entity}
  {stored : Stored}

theorem Entity.Suits.not_sets (h : entity.Suits sets guid) {r : Guid} (hr : r ∈ entity.references) :
    ¬ sets guid := by
  intro hset
  cases entity with
  | vertexSet set => exact List.not_mem_nil hr
  | edgeBundle bundle => cases h.kind.2 hset
  | column type cells => cases h.kind.2 hset

theorem Copies.suits (h : Copies guid entity stored) (hentity : entity.Suits sets guid) :
    stored.Suits sets guid := by
  constructor
  case filed => exact h.filed
  case kind => rw [h.kind, hentity.kind]
  case count => exact h.references.1
  case references => exact fun r hr => hentity.references r ((h.references.2 r).1 hr)
  case leaf =>
    intro hset
    rw [← List.map_eq_nil_iff, List.eq_nil_iff_forall_not_mem]
    exact fun r hr => hentity.not_sets ((h.references.2 r).1 hr) hset

theorem Stored.Suits.not_sets (h : stored.Suits sets guid) {reference : Reference}
    (hr : reference ∈ stored.manifest.references) : ¬ sets guid := by
  intro hset
  rw [h.leaf hset] at hr
  exact List.not_mem_nil hr

/-- What is read from a copy that suits, suits. -/
theorem Stored.Suits.decoded (h : stored.Suits sets guid)
    (hentity : Described stored.manifest entity) : entity.Suits sets guid := by
  refine ⟨by rw [hentity.kind, h.kind], fun r hr => h.references r (hentity.references r hr)⟩

namespace Disk

variable {disk after : Disk}

/-- All complete copies below the roots suit. -/
def Layered (sets : Guid → Prop) (roots : String → Prop) (disk : Disk) : Prop :=
  disk.KeptBelow (Stored.Suits sets) roots

/-- The manifest of a complete copy lists a guid among its references. -/
def Lists (disk : Disk) (root : String) (guid r : Guid) : Prop :=
  EntityDirectory.contains disk root guid ∧ ∃ bytes payload manifest,
    disk.read (Path.join (path root guid) manifestFile) = .ok bytes ∧
    Header.strip bytes = .ok payload ∧ Manifest.codec.read payload = .ok manifest ∧
    r ∈ manifest.references.map (·.guid)

/-- What is read suits, and what cannot be read is no loop. -/
theorem Layered.read (h : disk.Layered sets roots) {root : String} (hroot : roots root)
    (guid : Guid) :
    Computes Failure.Loopless (Stored.Suits sets guid) (EntityDirectory.read disk root guid) := by
  cases hcontains : EntityDirectory.contains disk root guid with
  | false =>
    rw [read_of_not_contains hcontains]
    exact nofun
  | true =>
    obtain ⟨stored, hsuits, hholds⟩ := KeptBelow.exists_copy h hroot hcontains
    have hcount := hsuits.count
    rcases (read_of_holds hsuits.filed (by omega) hcontains hholds).2 with hread | ⟨fault, hread⟩
    · rw [hread]
      exact hsuits
    · rw [hread]
      exact nofun

/-- What is listed for a guid are the references of the copy that is kept there. -/
theorem KeptBelow.exists_of_lists {suits : Guid → Stored → Prop} (h : disk.KeptBelow suits roots)
    (hcount : ∀ g stored, suits g stored → stored.manifest.references.length ≤ 2) {root : String}
    (hroot : roots root) {r : Guid} (hlists : disk.Lists root guid r) :
    ∃ stored, suits guid stored ∧ r ∈ stored.manifest.references.map (·.guid) := by
  obtain ⟨hcontains, bytes, payload, manifest, hread, hstrip, hmanifest, hr⟩ := hlists
  obtain ⟨stored, hsuits, hholds⟩ := h.exists_copy hroot hcontains
  have hlength := hcount guid stored hsuits
  have hrestores := (Manifest.restores_codec (show stored.manifest.references.length < 2 ^ 64 by
    omega)).read_encode
  have hfile : disk.read (Path.join (path root guid) manifestFile)
      = .ok stored.manifest.encode := by
    rw [Disk.read, (find_of_holds hcontains hholds).1]
    rfl
  rw [hfile] at hread
  cases hread
  rw [Manifest.encode, Header.strip_append] at hstrip
  cases hstrip
  rw [hrestores] at hmanifest
  cases hmanifest
  exact ⟨stored, hsuits, hr⟩

/-- References lead from one layer to the other. -/
theorem Layered.of_lists (h : disk.Layered sets roots) {root : String} (hroot : roots root)
    {r : Guid} (hlists : disk.Lists root guid r) : ¬ sets guid ∧ sets r := by
  obtain ⟨stored, hsuits, hr⟩ :=
    KeptBelow.exists_of_lists h (fun _ _ hsuits => hsuits.count) hroot hlists
  obtain ⟨reference, hreference, -⟩ := List.mem_map.1 hr
  exact ⟨hsuits.not_sets hreference, hsuits.references r hr⟩

/-- Below the roots no copies refer to each other in a circle. -/
theorem Layered.acyclic (h : disk.Layered sets roots) {root : String} (hroot : roots root)
    (guid : Guid) : ¬ Relation.TransGen (disk.Lists root) guid guid := by
  have hends {r : Guid} (hpath : Relation.TransGen (disk.Lists root) guid r) :
      ¬ sets guid ∧ sets r := by
    induction hpath with
    | single hlists => exact h.of_lists hroot hlists
    | tail _ hlists ih => exact ⟨ih.1, (h.of_lists hroot hlists).2⟩
  exact fun hpath => (hends hpath).1 (hends hpath).2

/-- A suitable copy is written, below whatever root. -/
theorem Layered.write_yields (h : disk.Layered sets roots) (root : String)
    (hsuits : stored.Suits sets guid) :
    Yields (EntityDirectory.write root stored) disk (fun _ after => after.Layered sets roots)
      fun failure after => after.Layered sets roots ∧ failure.Loopless := by
  apply ((KeptBelow.write_yields h root hsuits.filed hsuits).and
    (EntityDirectory.write_yields root stored disk)).mono
  · exact fun _ _ hafter => hafter.1
  · rintro _ _ ⟨hafter, ⟨fault, rfl⟩, -⟩
    exact ⟨hafter, nofun⟩

theorem Layered.remove_yields (h : disk.Layered sets roots) (root : String) (guid : Guid) :
    Yields (EntityDirectory.remove root guid) disk (fun _ after => after.Layered sets roots)
      fun failure after => after.Layered sets roots ∧ failure.Loopless := by
  apply ((KeptBelow.remove_yields h root guid).and
    (EntityDirectory.remove_yields root guid disk)).mono
  · exact fun _ _ hafter => hafter.1
  · rintro _ _ ⟨hafter, ⟨fault, rfl⟩, -⟩
    exact ⟨hafter, nofun⟩

theorem Layered.open_yields (h : disk.Layered sets roots) (settings : Settings) :
    Yields (Vault.open settings) disk
      (fun vault after => vault = ⟨settings, SortedMap.empty, vault.catalog, after⟩ ∧
        after.Layered sets roots)
      fun failure after => after.Layered sets roots ∧ failure.Loopless := by
  apply (KeptBelow.open_yields h settings).mono
  · exact fun _ _ hafter => ⟨hafter.1, hafter.2.1⟩
  · exact fun _ _ hafter => ⟨hafter.1, hafter.2.2 _⟩

theorem Layered.of_nodes (h : disk.Layered sets roots) (hnodes : after.nodes = disk.nodes) :
    after.Layered sets roots := KeptBelow.of_nodes h hnodes

end Disk

/-! ### The work of a store -/

namespace Vault

/-- A store whose entities and copies suit. -/
structure Layered (sets : Guid → Prop) (roots : String → Prop) (vault : Vault) : Prop where
  dataDir : roots vault.settings.dataDir
  unorderedDir : roots vault.settings.unorderedDir
  memory : ∀ guid entity, vault.get? guid = some entity → entity.Suits sets guid
  disk : vault.disk.Layered sets roots

/-- Work after which everything suits, and that does not run in circles. -/
abbrev KeepsLayered {α : Type} (sets : Guid → Prop) (roots : String → Prop) (good : α → Prop)
    (work : VaultM α) : Prop := KeepsLoopless (Layered sets roots) good work

variable {vault : Vault}

theorem Layered.insert (h : vault.Layered sets roots) (hentity : entity.Suits sets guid) :
    Layered sets roots { vault with entities := vault.entities.insert guid entity } := by
  refine ⟨h.dataDir, h.unorderedDir, fun g e he => ?_, h.disk⟩
  have hget : (vault.entities.insert guid entity).get? g = some e := he
  by_cases heq : g = guid
  · subst heq
    rw [SortedMap.get?_insert_self, Option.some.injEq] at hget
    exact hget ▸ hentity
  · rw [SortedMap.get?_insert_of_ne _ _ heq] at hget
    exact h.memory g e hget

theorem keeps_layered_require (guid : Guid) :
    KeepsLayered sets roots (Entity.Suits sets guid) (require guid) := by
  refine .bind_get fun vault h => ?_
  split
  · rename_i entity hentity
    exact ⟨h, h.memory guid entity hentity⟩
  · exact ⟨h, nofun⟩

theorem keeps_layered_register (hentity : entity.Suits sets guid) :
    KeepsLayered sets roots (Entity.Suits sets guid) (register guid entity) := by
  refine .bind_get fun vault h => ?_
  cases hget : vault.get? guid with
  | none => exact ⟨h.insert hentity, hentity⟩
  | some registered =>
    dsimp only
    split
    · exact ⟨h, h.memory guid registered hget⟩
    · split
      · exact ⟨h, by simp [Failure.Loopless]⟩
      · exact ⟨h.insert hentity, hentity⟩

theorem keeps_layered_remove (guid : Guid) :
    KeepsLayered sets roots (fun _ => True) (remove guid) := by
  refine .bind_get fun vault h => ⟨⟨h.dataDir, h.unorderedDir, fun g e he => ?_, h.disk⟩, trivial⟩
  have hget : (vault.entities.erase guid).get? g = some e := he
  by_cases heq : g = guid
  · subst heq
    rw [SortedMap.get?_erase_self] at hget
    cases hget
  · rw [SortedMap.get?_erase_of_ne _ heq] at hget
    exact h.memory g e hget

/-! ### Loading -/

/-- What is found as a vertex set is under a guid of vertex sets. -/
theorem keeps_layered_resolveWith {find : Guid → VaultM Entity}
    (h : KeepsLayered sets roots (Entity.Suits sets guid) (find guid)) :
    KeepsLayered sets roots (fun _ => sets guid) (resolveWith find guid) := by
  refine h.bind fun entity hentity => ?_
  cases entity with
  | vertexSet set => exact .pure (hentity.kind.1 rfl)
  | edgeBundle bundle => exact .throw nofun
  | column type cells => exact .throw nofun

theorem keeps_layered_putWith {find : Guid → VaultM Entity}
    (hkind : entity.kind = .vertexSet ↔ sets guid)
    (h : ∀ r ∈ entity.references, KeepsLayered sets roots (Entity.Suits sets r) (find r)) :
    KeepsLayered sets roots (Entity.Suits sets guid) (putWith find guid entity) :=
  (Entity.keeps_validate (fun r hr => keeps_layered_resolveWith (h r hr)) guid).bind
    fun _ hreferences => keeps_layered_register ⟨hkind, hreferences⟩

theorem keeps_layered_findWith {load : Guid → VaultM Entity}
    (h : KeepsLayered sets roots (Entity.Suits sets guid) (load guid)) :
    KeepsLayered sets roots (Entity.Suits sets guid) (findWith load guid) := by
  refine .bind_get fun vault hvault => ?_
  split
  · rename_i entity hentity
    exact ⟨hvault, hvault.memory guid entity hentity⟩
  · split
    · exact h.yields vault hvault
    · exact ⟨hvault, nofun⟩

/-- A copy is loaded once what it refers to can be found. -/
private theorem keeps_layered_loadWithin_succ {fuel : Nat}
    (h : ¬ sets guid → ∀ r, sets r →
      KeepsLayered sets roots (Entity.Suits sets r) (loadWithin fuel r)) :
    KeepsLayered sets roots (Entity.Suits sets guid) (loadWithin (fuel + 1) guid) := by
  refine .bind_get fun vault hvault => ?_
  refine Keeps.yields (.bind (hvault.disk.read hvault.dataDir guid).keeps fun stored hstored => ?_)
    vault hvault
  have hreferences : KeepsLayered sets roots (fun _ => True)
      (stored.manifest.references.forM fun reference => do
        let _ ← findWith (loadWithin fuel) reference.guid) := by
    refine .forM fun reference hreference => ?_
    have hset := hstored.references _ (List.mem_map_of_mem hreference)
    have hfind := keeps_layered_findWith (h (hstored.not_sets hreference) _ hset)
    exact hfind.bind fun _ _ => .pure trivial
  have hvertexSet (r : Guid) : KeepsLayered sets roots (fun _ => True) (vertexSet r) :=
    (keeps_layered_resolveWith (keeps_layered_require r)).mono (fun _ _ => trivial) fun _ h => h
  refine hreferences.bind fun _ _ => ?_
  refine (Ordered.keeps_decode fun r _ => hvertexSet r).bind fun entity hentity => ?_
  have hsuits := hstored.decoded hentity
  refine keeps_layered_putWith hsuits.kind fun r hr => keeps_layered_findWith ?_
  exact h (hsuits.not_sets hr) r (hsuits.references r hr)

/-- Two steps are deep enough. -/
theorem keeps_layered_loadWithin (fuel : Nat) (guid : Guid) :
    KeepsLayered sets roots (Entity.Suits sets guid) (loadWithin (fuel + 2) guid) := by
  apply keeps_layered_loadWithin_succ
  intro _ r hr
  exact keeps_layered_loadWithin_succ fun hnot => absurd hr hnot

theorem keeps_layered_load (guid : Guid) :
    KeepsLayered sets roots (Entity.Suits sets guid) (load guid) :=
  keeps_load_of_within (by simp [Failure.Loopless]) fun fuel => keeps_layered_loadWithin fuel guid

theorem keeps_layered_getOrLoad (guid : Guid) :
    KeepsLayered sets roots (Entity.Suits sets guid) (getOrLoad guid) :=
  keeps_layered_findWith (keeps_layered_load guid)

theorem keeps_layered_resolve (guid : Guid) :
    KeepsLayered sets roots (fun _ => sets guid) (resolve guid) :=
  keeps_layered_resolveWith (keeps_layered_getOrLoad guid)

private theorem keeps_layered_resolving (guid : Guid) :
    KeepsLayered sets roots (fun _ => True) (resolve guid) :=
  (keeps_layered_resolve guid).mono (fun _ _ => trivial) fun _ h => h

theorem keeps_layered_put (hkind : entity.kind = .vertexSet ↔ sets guid) :
    KeepsLayered sets roots (Entity.Suits sets guid) (put guid entity) :=
  keeps_layered_putWith hkind fun r _ => keeps_layered_getOrLoad r

/-! ### Writing -/

private theorem keeps_layered_onDisk {α : Type} {work : DiskM α}
    (hwork : ∀ disk, disk.Layered sets roots →
      Yields work disk (fun _ after => after.Layered sets roots)
        fun failure after => after.Layered sets roots ∧ failure.Loopless) :
    KeepsLayered sets roots (fun _ => True) (onDisk work) := by
  constructor
  intro vault h
  rw [onDisk_yields_iff]
  apply (hwork vault.disk h.disk).mono
  · exact fun _ disk hdisk => ⟨⟨h.dataDir, h.unorderedDir, h.memory, hdisk⟩, trivial⟩
  · exact fun _ disk hfailure =>
      ⟨⟨h.dataDir, h.unorderedDir, h.memory, hfailure.1⟩, hfailure.2⟩

theorem keeps_layered_write (root : String) (hstored : stored.Suits sets guid) :
    KeepsLayered sets roots (fun _ => True) (write root stored) :=
  (keeps_layered_onDisk fun _ hdisk => hdisk.write_yields root hstored).bind fun _ _ =>
    .pure trivial

theorem keeps_layered_modifyCatalog (change : Catalog → Catalog) :
    KeepsLayered sets roots (fun _ => True) (modifyCatalog change) := by
  constructor
  intro vault h
  rw [modifyCatalog, yields_modify]
  refine ⟨?_, trivial⟩
  split
  · exact h
  · exact ⟨h.dataDir, h.unorderedDir, h.memory, h.disk.of_nodes rfl⟩

theorem keeps_layered_record (guid : Guid) (entity : Entity) (producer : Option Guid) :
    KeepsLayered sets roots (fun _ => True) (record guid entity producer) :=
  keeps_record_of_modifyCatalog (fun _ => keeps_layered_modifyCatalog _) producer

private theorem keeps_layered_persistWithin_succ {fuel : Nat}
    (h : ¬ sets guid → ∀ r, sets r →
      KeepsLayered sets roots (fun _ => True) (persistWithin fuel r none))
    (producer : Option Guid) :
    KeepsLayered sets roots (fun _ => True) (persistWithin (fuel + 1) guid producer) := by
  refine (keeps_layered_require guid).bind fun entity hentity => ?_
  have hreferences : KeepsLayered sets roots (fun _ => True)
      (entity.references.forM fun reference => do
        if !(← get).hasPersisted reference then
          let _ ← persistWithin fuel reference none) := by
    refine .forM fun r hr => .bind_get fun vault hvault => ?_
    split
    · have hpersist := h (hentity.not_sets hr) r (hentity.references r hr)
      exact (hpersist.bind fun _ _ => .pure trivial).yields vault hvault
    · exact ⟨hvault, trivial⟩
  refine hreferences.bind fun _ _ => ?_
  refine (Ordered.keeps_encode (fun r _ => keeps_layered_resolving r) guid).bind fun stored hstored => ?_
  refine .bind_get fun vault hvault => Keeps.yields ?_ vault hvault
  refine (keeps_layered_write _ (hstored.1.suits hentity)).bind fun _ _ => ?_
  exact (keeps_layered_record guid entity producer).bind fun _ _ => .pure trivial

theorem keeps_layered_persist (guid : Guid) :
    KeepsLayered sets roots (fun _ => True) (persist guid) := by
  refine keeps_persistFrom_of_within (by simp [Failure.Loopless]) fun fuel => ?_
  refine keeps_layered_persistWithin_succ (fun _ r hr => ?_) none
  exact keeps_layered_persistWithin_succ (fun hnot => absurd hr hnot) none

theorem keeps_layered_purge (guid : Guid) :
    KeepsLayered sets roots (fun _ => True) (purge guid) := by
  have hremove (root : String) :
      KeepsLayered sets roots (fun _ => True) (onDisk (EntityDirectory.remove root guid)) :=
    keeps_layered_onDisk fun _ hdisk => hdisk.remove_yields root guid
  refine (keeps_layered_remove guid).bind fun _ _ => .bind_get fun vault hvault => ?_
  refine Keeps.yields ((hremove _).bind fun _ _ => ?_) vault hvault
  exact (keeps_layered_modifyCatalog _).bind fun _ _ => .pure trivial

/-! ### Exchange -/

theorem keeps_layered_exportUnordered (guid : Guid) :
    KeepsLayered sets roots (fun _ => True) (exportUnordered guid) := by
  refine (keeps_layered_getOrLoad guid).bind fun entity hentity => ?_
  refine (Unordered.keeps_encode (fun r _ => keeps_layered_resolving r) guid).bind fun stored hstored => ?_
  refine .bind_get fun vault hvault => Keeps.yields ?_ vault hvault
  exact keeps_layered_write _ (hstored.suits hentity)

private theorem keeps_layered_importWithin_succ {fuel : Nat}
    (h : ¬ sets guid → ∀ r, sets r →
      KeepsLayered sets roots (Entity.Suits sets r) (importWithin fuel r)) :
    KeepsLayered sets roots (Entity.Suits sets guid) (importWithin (fuel + 1) guid) := by
  refine .bind_get fun vault hvault => ?_
  refine Keeps.yields (.bind (hvault.disk.read hvault.unorderedDir guid).keeps
    fun stored hstored => ?_) vault hvault
  refine .bind (.forM fun reference hreference => .bind_get fun now hnow => ?_) fun _ _ => ?_
  · have hset := hstored.references _ (List.mem_map_of_mem hreference)
    have himport := h (hstored.not_sets hreference) _ hset
    dsimp only
    split
    · exact (himport.bind fun _ _ => .pure trivial).yields now hnow
    · exact ⟨hnow, trivial⟩
  · refine (Unordered.keeps_decode fun r _ => keeps_layered_resolving r).bind fun entity hentity => ?_
    exact keeps_layered_put (hstored.decoded hentity).kind

theorem keeps_layered_importUnordered (guid : Guid) :
    KeepsLayered sets roots (Entity.Suits sets guid) (importUnordered guid) := by
  refine .bind_get fun vault hvault => ?_
  cases hcontains : EntityDirectory.contains vault.disk vault.settings.unorderedDir guid with
  | false =>
    rw [depth, importWithin]
    simp only [yields_bind, yields_get, EntityDirectory.read_of_not_contains hcontains,
      yields_ofExcept_error]
    exact ⟨hvault, by simp [Failure.Loopless]⟩
  | true =>
    obtain ⟨fuel, hdepth⟩ := depth_of_contains hcontains
    rw [hdepth]
    refine Keeps.yields (keeps_layered_importWithin_succ fun _ r hr => ?_) vault hvault
    exact keeps_layered_importWithin_succ fun hnot => absurd hr hnot

end Vault

/-! ### Persisted columns -/

namespace Disk

variable {disk after : Disk} {root : String} {b : Address} {r : Guid}

theorem Wrote.lists (h : Wrote root b guid stored disk after)
    (hcount : stored.manifest.references.length < 2 ^ 64)
    (hr : r ∈ stored.manifest.references.map (·.guid)) : after.Lists root guid r := by
  have hholds : ∀ b', base root = .ok b' → after.Holds b' guid stored := by
    intro b' hb'
    have hbase : base root = .ok b := h.usable.way.walk_eq
    rw [hb', Except.ok.injEq] at hbase
    exact hbase ▸ h.holds
  have hrestores := (Manifest.restores_codec hcount).read_encode
  refine ⟨h.contains, _, _, stored.manifest, ?_, Header.strip_append _, hrestores, hr⟩
  rw [Disk.read, (find_of_holds h.contains hholds).1]
  rfl

theorem Spares.lists (h : Spares b guid disk after) (husable : UsableRoot root b disk)
    (hlists : disk.Lists root guid r) : after.Lists root guid r := by
  obtain ⟨hcontains, bytes, payload, manifest, hread, hrest⟩ := hlists
  refine ⟨h.contains husable hcontains, bytes, payload, manifest, ?_, hrest⟩
  cases hfind : disk.find (Path.join (path root guid) manifestFile) with
  | error fault =>
    rw [Disk.read, hfind] at hread
    cases hread
  | ok node =>
    rw [Disk.read, h.find husable plain_manifestFile hfind]
    rw [Disk.read, hfind] at hread
    exact hread

theorem exists_of_contains (husable : UsableRoot root b disk)
    (h : EntityDirectory.contains disk root guid) : disk.contains (path root guid) := by
  obtain ⟨-, b', hreaches, hdirectory, -⟩ := contains_iff.1 h
  exact contains_path_of_reaches (husable.admissible_path guid) hreaches hdirectory

end Disk

namespace Vault

variable {vault : Vault} {root : String} {b : Address} {type : ColumnType}
  {cells : Attribute type.Cell}

/-- A column and its vertex set are persisted, and the copy of the column refers to the other. -/
theorem persist_lists {set : VertexSet} (hroot : vault.settings.dataDir = root)
    (husable : UsableRoot root b vault.disk)
    (hcolumn : vault.get? guid = some (.column type cells)) (hnew : ¬ Marked b guid vault.disk)
    (hset : vault.get? cells.vertexSet = some (.vertexSet set))
    (hnewSet : ¬ Marked b cells.vertexSet vault.disk) :
    Yields (persist guid) vault
      (fun _ after => after.entities = vault.entities ∧ after.settings = vault.settings ∧
        after.catalog = vault.catalog ∧ UsableRoot root b after.disk ∧
        after.hasPersisted cells.vertexSet ∧ after.disk.Lists root guid cells.vertexSet)
      fun _ _ => vault.catalog ≠ none := by
  have hne : cells.vertexSet ≠ guid := by
    intro heq
    rw [heq, hcolumn] at hset
    cases hset
  apply (persist_column_of_not_marked hroot husable hcolumn hnew hset hnewSet).mono ?_
    fun _ _ hcatalog => hcatalog
  rintro _ after ⟨between, hbetween, hafter⟩
  have hsettings : after.settings = vault.settings := hafter.settings.trans hbetween.settings
  refine ⟨hafter.entities.trans hbetween.entities, hsettings,
    hafter.catalog.trans hbetween.catalog, hafter.wrote.usable, ?_,
    hafter.wrote.lists (by simp [columnCopy]) (by simp [columnCopy])⟩
  rw [hasPersisted, hsettings, hroot]
  exact (hafter.wrote.spares _ hne).contains hbetween.wrote.usable hbetween.wrote.contains

theorem lists_close {r : Guid} (husable : UsableRoot root b vault.disk)
    (h : vault.disk.Lists root guid r) : vault.close.Lists root guid r :=
  (spares_of_nodes vault.nodes_close).lists husable h

end Vault

/-! ### Histories -/

namespace Session

variable {registry : Registry} {requests : List Request} {session : Session} {request : Request}

/-- Stores are opened over certain roots, and vertex sets are put under the guids of vertex sets and
nowhere else. -/
def Sorted (sets : Guid → Prop) (roots : String → Prop) (_ : Session) : Request → Prop
  | .open settings => roots settings.dataDir ∧ roots settings.unorderedDir
  | .put guid entity => entity.kind = .vertexSet ↔ sets guid
  | .execute _ | .run _ => False
  | _ => True

/-- A store whose entities and copies suit, or a disk whose copies do. -/
private def Layered (sets : Guid → Prop) (roots : String → Prop) : Session → Prop
  | opened vault => vault.Layered sets roots
  | closed disk => disk.Layered sets roots

private theorem Layered.disk (h : session.Layered sets roots) :
    session.disk.Layered sets roots := by
  cases session with
  | closed disk => exact h
  | opened vault =>
    exact Disk.Layered.of_nodes (Vault.Layered.disk h) vault.nodes_close

private theorem keeps_layered_work (hrequest : Sorted sets roots session request) :
    Vault.KeepsLayered sets roots (fun _ => True) (request.work registry) := by
  cases request with
  | «open» settings => exact .pure trivial
  | close => exact .pure trivial
  | get guid => exact .pure trivial
  | put guid entity =>
    exact (Vault.keeps_layered_put hrequest).bind fun _ _ => .pure trivial
  | remove guid => exact (Vault.keeps_layered_remove guid).bind fun _ _ => .pure trivial
  | purge guid => exact (Vault.keeps_layered_purge guid).bind fun _ _ => .pure trivial
  | persist guid => exact (Vault.keeps_layered_persist guid).bind fun _ _ => .pure trivial
  | load guid => exact (Vault.keeps_layered_load guid).bind fun _ _ => .pure trivial
  | getOrLoad guid => exact (Vault.keeps_layered_getOrLoad guid).bind fun _ _ => .pure trivial
  | exportUnordered guid =>
    exact (Vault.keeps_layered_exportUnordered guid).bind fun _ _ => .pure trivial
  | importUnordered guid =>
    exact (Vault.keeps_layered_importUnordered guid).bind fun _ _ => .pure trivial
  | execute i => exact hrequest.elim
  | run dag => exact hrequest.elim

private theorem next_layered (h : session.Layered sets roots)
    (hrequest : Sorted sets roots session request) :
    (session.next registry request).2.Layered sets roots ∧
      (session.next registry request).1 ≠ .error (.aborted .referenceLoop) := by
  apply next_of_cases fun answer => answer.2.Layered sets roots ∧
    answer.1 ≠ .error (.aborted .referenceLoop)
  case hopen =>
    rintro settings rfl
    apply (h.disk.open_yields settings).mono
    · rintro vault disk ⟨hvault, hdisk⟩
      rw [hvault]
      exact ⟨⟨hrequest.1, hrequest.2, nofun, hdisk⟩, nofun⟩
    · rintro failure disk ⟨hdisk, hloopless⟩
      refine ⟨hdisk, fun hloop => ?_⟩
      cases hloop
      exact hloopless rfl
  case hclose => exact fun _ => ⟨h.disk, nofun⟩
  case hclosed =>
    rintro disk rfl
    exact ⟨h, nofun⟩
  case hwork =>
    rintro vault rfl - -
    apply ((keeps_layered_work hrequest).yields vault h).mono
    · exact fun _ after hafter => ⟨hafter.1, nofun⟩
    · rintro failure after ⟨hafter, hloopless⟩
      refine ⟨hafter, fun hloop => ?_⟩
      cases hloop
      exact hloopless rfl

/-- Where no copies are at the start and guids stand for vertex sets always or never, the copies of
entities never refer to each other in a circle, and no request fails for that they do. -/
theorem history_loopless {disk : Disk}
    (hstart : ∀ root b guid, roots root → base root = .ok b → ¬ Marked b guid disk)
    (hhistory : History registry (Sorted sets roots) (closed disk) requests session) :
    (∀ root, roots root → ∀ guid, ¬ Relation.TransGen (session.disk.Lists root) guid guid) ∧
      ∀ request, Sorted sets roots session request →
        (session.next registry request).1 ≠ .error (.aborted .referenceLoop) := by
  have hlayered : session.Layered sets roots := by
    apply hhistory.invariant (Layered sets roots)
    · exact fun root b hroot hb guid hmarked => absurd hmarked (hstart root b guid hroot hb)
    · exact fun _ _ h hrequest => (next_layered h hrequest).1
  exact ⟨fun root hroot => hlayered.disk.acyclic hroot,
    fun _ hrequest => (next_layered hlayered hrequest).2⟩

/-- A column over a vertex set, both persisted. -/
theorem history_loopless_column :
    let sets : Guid → Prop := (· = Guid.filled 1)
    let roots : String → Prop := fun root => root = "ordered" ∨ root = "unordered"
    let cells : Attribute ColumnType.double.Cell := ⟨[⟨1⟩], [true], Guid.filled 1⟩
    let requests : List Request := [.open ⟨"ordered", "unordered", .reject, false, false⟩,
      .put (Guid.filled 1) (.vertexSet ⟨[7]⟩), .put (Guid.filled 2) (.column .double cells),
      .persist (Guid.filled 2)]
    ∃ session, History Registry.empty (Sorted sets roots) (closed Disk.empty) requests session ∧
      session.disk.Lists "ordered" (Guid.filled 2) (Guid.filled 1) ∧
      (∀ root, roots root → ∀ guid, ¬ Relation.TransGen (session.disk.Lists root) guid guid) ∧
      ∀ request, Sorted sets roots session request →
        (session.next Registry.empty request).1 ≠ .error (.aborted .referenceLoop) := by
  intro sets roots cells requests
  have hstart : History Registry.empty (Sorted sets roots) (closed Disk.empty) []
    (closed Disk.empty) := .start
  have husable : UsableRoot "ordered" ["ordered"] Disk.empty :=
    usableRoot_empty (by decide)
  let first : Vault := ⟨⟨"ordered", "unordered", .reject, false, false⟩,
    (SortedMap.empty.insert (Guid.filled 1) (.vertexSet ⟨[7]⟩)).insert (Guid.filled 2)
      (.column .double cells), none, Disk.empty⟩
  have hopen : Sorted sets roots (closed Disk.empty)
    (.open ⟨"ordered", "unordered", .reject, false, false⟩) := ⟨.inl rfl, .inr rfl⟩
  have hset (session : Session) :
      Sorted sets roots session (.put (Guid.filled 1) (.vertexSet ⟨[7]⟩)) :=
    ⟨fun _ => rfl, fun _ => rfl⟩
  have hcolumn (session : Session) :
      Sorted sets roots session (.put (Guid.filled 2) (.column .double cells)) :=
    ⟨nofun, by decide⟩
  have hput : History Registry.empty (Sorted sets roots) (closed Disk.empty) (requests.take 3)
    (opened first) := ((hstart.step hopen).step (hset _)).step (hcolumn _)
  have hpersist := Vault.persist_lists (show first.settings.dataDir = "ordered" from rfl) husable
    (show first.get? (Guid.filled 2) = some (.column .double cells) from rfl)
    (not_marked_empty _ _)
    (show first.get? cells.vertexSet = some (.vertexSet ⟨[7]⟩) from rfl)
    (not_marked_empty _ _)
  obtain ⟨after, hafter, -, -, -, husable', -, hlists⟩ :=
    hput.step_of_yields (.persist (Guid.filled 2)) trivial trivial rfl
      (hpersist.mono (fun _ _ h => h) fun _ _ hfailed => hfailed rfl)
  exact ⟨_, hafter, Vault.lists_close husable' hlists,
    history_loopless (fun _ b guid _ _ => not_marked_empty b guid) hafter⟩

end Session

/-! ### Guids that change what they stand for -/

namespace Vault

variable {vault : Vault} {root : String} {b : Address} {type : ColumnType}
  {cells : Attribute type.Cell}

/-- A column is persisted over a copy that refers to it, and there is a loop. -/
theorem persist_closes_loop (hroot : vault.settings.dataDir = root)
    (husable : UsableRoot root b vault.disk)
    (hcolumn : vault.get? guid = some (.column type cells)) (hnew : ¬ Marked b guid vault.disk)
    (hlists : vault.disk.Lists root cells.vertexSet guid) :
    Yields (persist guid) vault
      (fun _ after => Relation.TransGen (after.close.Lists root) guid guid)
      fun _ _ => vault.catalog ≠ none := by
  have hset : vault.hasPersisted cells.vertexSet := by
    rw [hasPersisted, hroot]
    exact hlists.1
  have hne : cells.vertexSet ≠ guid := by
    intro heq
    exact hnew (marked_of_contains husable (heq ▸ hlists.1))
  apply (persist_column_of_hasPersisted hroot husable hcolumn hnew hset).mono ?_
    fun _ _ hcatalog => hcatalog
  intro _ after hafter
  have hself : after.disk.Lists root guid cells.vertexSet :=
    hafter.wrote.lists (by simp [columnCopy]) (by simp [columnCopy])
  have hback := (hafter.wrote.spares _ hne).lists husable hlists
  exact .tail (.single (lists_close hafter.wrote.usable hself))
    (lists_close hafter.wrote.usable hback)

/-- What is complete is purged, and the copies of other entities stay. -/
structure Purged (root : String) (b : Address) (guid : Guid) (vault after : Vault) : Prop where
  entities : after.entities = vault.entities.erase guid
  settings : after.settings = vault.settings
  catalog : after.catalog = vault.catalog
  usable : UsableRoot root b after.disk
  gone : ¬ Marked b guid after.disk
  spares : ∀ x, x ≠ guid → Spares b x vault.disk after.disk

theorem purge_purges (hroot : vault.settings.dataDir = root)
    (husable : UsableRoot root b vault.disk) (hpersisted : vault.hasPersisted guid) :
    Yields (purge guid) vault (fun _ after => Purged root b guid vault after)
      fun _ _ => False := by
  rw [hasPersisted, hroot] at hpersisted
  have hexists := exists_of_contains husable hpersisted
  simp only [purge, remove, yields_bind, yields_get, yields_set, yields_pure, hroot]
  rw [onDisk_yields_iff]
  apply (remove_of_exists husable guid (fun _ hx => hx ∘ inside_of_above) hexists).mono ?_ fun _ _ hfalse => hfalse
  intro _ disk hremoved
  apply (modifyCatalog_alike _ _).mono ?_ fun _ _ hfalse => hfalse
  intro _ after hafter
  have hnode (a : Address) : after.disk.node? a = disk.node? a := by
    rw [node?, node?, hafter.nodes]
  constructor
  case entities => exact hafter.entities
  case settings => exact hafter.settings
  case catalog => exact hafter.catalog
  case usable =>
    apply Site.usable_of_nodes ?_ hafter.nodes
    exact husable.of_agreesOff hremoved.agrees (fun _ hx => hx ∘ inside_of_above)
      (hremoved.passable (husable.entities guid)) (.inl rfl)
  case gone =>
    rintro ⟨node, hmarker, -⟩
    rw [hnode, hremoved.node [marker] (by simp)] at hmarker
    cases hmarker
  case spares =>
    exact fun x hne => (spares_agreesOff hremoved.agrees hne).trans (spares_of_nodes hafter.nodes)

/-- A copy refers to a guid that stands for nothing any more. -/
structure Orphaned (root : String) (b : Address) (guid r : Guid) (vault : Vault) : Prop where
  dataDir : vault.settings.dataDir = root
  usable : UsableRoot root b vault.disk
  catalog : vault.catalog = none
  free : vault.get? r = none
  gone : ¬ Marked b r vault.disk
  lists : vault.disk.Lists root guid r

end Vault

namespace Session

variable {registry : Registry} {start : Session} {requests : List Request} {vault : Vault}
  {root : String} {b : Address} {type : ColumnType} {cells : Attribute type.Cell}
  {set : VertexSet} {guid r : Guid}

/-- The vertex set of a persisted column is purged. -/
theorem History.orphaned (h : History registry (fun _ _ => True) start requests (opened vault))
    (hroot : vault.settings.dataDir = root) (husable : UsableRoot root b vault.disk)
    (hcatalog : vault.catalog = none) (hnew : ∀ x, ¬ Marked b x vault.disk)
    (hset : vault.get? cells.vertexSet = some (.vertexSet set))
    (hcolumn : vault.get? guid = some (.column type cells)) :
    ∃ after, History registry (fun _ _ => True) start
        (requests ++ [.persist guid] ++ [.purge cells.vertexSet]) (opened after) ∧
      after.Orphaned root b guid cells.vertexSet := by
  have hne : guid ≠ cells.vertexSet := by
    intro heq
    rw [← heq, hcolumn] at hset
    cases hset
  have hpersist := Vault.persist_lists hroot husable hcolumn (hnew _) hset (hnew _)
  obtain ⟨persisted, hpersisted, -, hsettings, hcatalog', husable', hthere, hlists⟩ :=
    h.step_of_yields (.persist guid) trivial trivial rfl
      (hpersist.mono (fun _ _ h => h) fun _ _ hfailed => hfailed hcatalog)
  obtain ⟨after, hafter, hpurged⟩ :=
    hpersisted.step_of_yields (.purge cells.vertexSet) trivial trivial rfl
      (Vault.purge_purges (hsettings ▸ hroot) husable' hthere)
  refine ⟨after, hafter, ?_⟩
  constructor
  case dataDir => rw [hpurged.settings, hsettings, hroot]
  case usable => exact hpurged.usable
  case catalog => rw [hpurged.catalog, hcatalog', hcatalog]
  case free =>
    rw [Vault.get?, hpurged.entities]
    exact SortedMap.get?_erase_self _ _
  case gone => exact hpurged.gone
  case lists => exact (hpurged.spares _ hne).lists husable' hlists

/-- The owner of the copy becomes a vertex set, and a column over it takes the free guid. -/
theorem History.exchanged (h : History registry (fun _ _ => True) start requests (opened vault))
    (hfree : vault.get? r = none) (hne : r ≠ cells.vertexSet) (hdistinct : set.mapping.Nodup)
    (haligned : cells.Aligned set.size) :
    ∃ after, History registry (fun _ _ => True) start
        (requests ++ [.remove cells.vertexSet] ++ [.put cells.vertexSet (.vertexSet set)] ++
          [.put r (.column type cells)]) (opened after) ∧
      after.get? r = some (.column type cells) ∧ after.disk = vault.disk ∧
      after.settings = vault.settings ∧ after.catalog = vault.catalog := by
  let removed : Vault := { vault with entities := vault.entities.erase cells.vertexSet }
  let filled : Vault := removed.insert cells.vertexSet (.vertexSet set)
  have hremoved : removed.get? cells.vertexSet = none := SortedMap.get?_erase_self _ _
  have hfilled : filled.get? r = none := by
    rw [Vault.get?_insert_of_ne _ _ hne, Vault.get?, SortedMap.get?_erase_of_ne _ hne]
    exact hfree
  have hset : (Entity.vertexSet set).Fits removed.registered := hdistinct
  have hcolumn : (Entity.column type cells).Fits filled.registered :=
    ⟨set, Vault.registered_eq_ok_iff.2 (Vault.get?_insert_self _ _ _), haligned⟩
  have hwork : Yields (Vault.remove cells.vertexSet) vault (fun _ after => after = removed)
    fun _ _ => False := rfl
  obtain ⟨_, hfirst, rfl⟩ :=
    h.step_of_yields (.remove cells.vertexSet) trivial trivial rfl hwork
  obtain ⟨_, hsecond, rfl⟩ :=
    hfirst.step_of_yields (.put cells.vertexSet (.vertexSet set)) trivial trivial rfl
      (Vault.put_of_fits hremoved hset)
  obtain ⟨_, hthird, rfl⟩ :=
    hsecond.step_of_yields (.put r (.column type cells)) trivial trivial rfl
      (Vault.put_of_fits hfilled hcolumn)
  exact ⟨_, hthird, Vault.get?_insert_self _ _ _, rfl, rfl, rfl⟩

/-- A column over what was a column takes the place of the vertex set of that. -/
theorem History.closes_loop (h : History registry (fun _ _ => True) start requests (opened vault))
    (horphaned : vault.Orphaned root b cells.vertexSet r) (hdistinct : set.mapping.Nodup)
    (haligned : cells.Aligned set.size) :
    ∃ after, History registry (fun _ _ => True) start
        (requests ++ [.remove cells.vertexSet] ++ [.put cells.vertexSet (.vertexSet set)] ++
          [.put r (.column type cells)] ++ [.persist r]) (opened after) ∧
      Relation.TransGen (after.close.Lists root) r r := by
  have hne : r ≠ cells.vertexSet := by
    intro heq
    exact horphaned.gone (marked_of_contains horphaned.usable (heq ▸ horphaned.lists.1))
  obtain ⟨exchanged, hexchanged, hcolumn, hdisk, hsettings, hcatalog⟩ :=
    h.exchanged horphaned.free hne hdistinct haligned
  have hpersist := Vault.persist_closes_loop (hsettings ▸ horphaned.dataDir)
    (hdisk ▸ horphaned.usable) hcolumn (hdisk ▸ horphaned.gone) (hdisk ▸ horphaned.lists)
  rw [horphaned.catalog] at hcatalog
  exact hexchanged.step_of_yields (.persist r) trivial trivial rfl
    (hpersist.mono (fun _ _ h => h) fun _ _ hfailed => hfailed hcatalog)

/-- A column is persisted, its vertex set is purged, and the two change what they are. -/
theorem history_loop_exchanged :
    let settings : Settings := ⟨"ordered", "unordered", .reject, false, false⟩
    let set : VertexSet := ⟨[7]⟩
    let cells (guid : Guid) : Attribute ColumnType.double.Cell := ⟨[⟨1⟩], [true], guid⟩
    let requests : List Request := [.open settings, .put (Guid.filled 1) (.vertexSet set),
      .put (Guid.filled 2) (.column .double (cells (Guid.filled 1))), .persist (Guid.filled 2),
      .purge (Guid.filled 1), .remove (Guid.filled 2), .put (Guid.filled 2) (.vertexSet set),
      .put (Guid.filled 1) (.column .double (cells (Guid.filled 2))), .persist (Guid.filled 1)]
    ∃ session, History Registry.empty (fun _ _ => True) (closed Disk.empty) requests session ∧
      Relation.TransGen (session.disk.Lists "ordered") (Guid.filled 1) (Guid.filled 1) := by
  intro settings set cells requests
  have hstart : History Registry.empty (fun _ _ => True) (closed Disk.empty) []
    (closed Disk.empty) := .start
  have husable : UsableRoot "ordered" ["ordered"] Disk.empty :=
    usableRoot_empty (by decide)
  have hdistinct : set.mapping.Nodup := by decide
  have haligned (guid : Guid) : (cells guid).Aligned set.size := ⟨rfl, rfl⟩
  let first : Vault := ⟨settings, (SortedMap.empty.insert (Guid.filled 1) (.vertexSet set)).insert
    (Guid.filled 2) (.column .double (cells (Guid.filled 1))), none, Disk.empty⟩
  have hput : History Registry.empty (fun _ _ => True) (closed Disk.empty) _ (opened first) :=
    hstart.foldl (requests.take 3)
  have hset : first.get? (cells (Guid.filled 1)).vertexSet = some (.vertexSet set) := rfl
  have hcolumn : first.get? (Guid.filled 2) = some (.column .double (cells (Guid.filled 1))) := rfl
  obtain ⟨between, hbetween, horphaned⟩ :=
    hput.orphaned rfl husable rfl (not_marked_empty _) hset hcolumn
  obtain ⟨last, hlast, hloop⟩ := hbetween.closes_loop horphaned hdistinct (haligned (Guid.filled 2))
  exact ⟨_, hlast, hloop⟩

end Session

end GraphVault
