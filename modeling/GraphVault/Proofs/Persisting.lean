import GraphVault.Proofs.Gathering

/-!
# Persisting

A store that persists an entity trusts what it has in memory and the copies that it finds on disk.
Where these go together, they still do once the entity is written, and its copy is there along with
those of the vertex sets that it refers to (`Vault.persist_yields`).
-/

namespace GraphVault

open Disk EntityDirectory

namespace Vault

-- What these do is known from what they yield, so that they need not be looked into.
attribute [local irreducible] EntityDirectory.read EntityDirectory.write EntityDirectory.contains

variable {vault now after : Vault} {root : String} {b : Address} {guid r : Guid} {entity : Entity}
  {set : VertexSet} {stored : Stored}

/-! ### Writing one copy -/

/-- Two stores are alike but for what their catalogs hold. -/
structure Alike (vault after : Vault) : Prop where
  entities : after.entities = vault.entities
  settings : after.settings = vault.settings
  catalog : after.catalog = vault.catalog
  nodes : after.disk.nodes = vault.disk.nodes

theorem modifyCatalog_alike (change : Catalog → Catalog) (vault : Vault) :
    Yields (modifyCatalog change) vault (fun _ after => vault.Alike after) fun _ _ => False := by
  rw [modifyCatalog, yields_modify]
  split <;> exact ⟨rfl, rfl, rfl, rfl⟩

theorem record_alike (guid : Guid) (entity : Entity) (producer : Option Guid) (vault : Vault) :
    Yields (record guid entity producer) vault (fun _ after => vault.Alike after)
      fun _ _ => vault.catalog ≠ none := by
  simp only [record, yields_bind, yields_get]
  cases hcatalog : vault.catalog with
  | none =>
    simp only [records?, hcatalog, Option.map_none]
    exact ⟨rfl, rfl, rfl, rfl⟩
  | some id =>
    have hrecord (entry : Catalog.Entry) :
        Yields (modifyCatalog (·.recordEntity entry)) vault (fun _ after => vault.Alike after)
          fun _ _ => some id ≠ none :=
      (modifyCatalog_alike _ vault).mono (fun _ _ h => h) fun _ _ hfalse => hfalse.elim
    simp only [records?, hcatalog, Option.map_some]
    cases producer with
    | some producer => exact hrecord _
    | none =>
      simp only [yields_bind]
      exact yields_ofExcept (fun _ _ => hrecord _) fun _ _ => Option.some_ne_none id

/-- A copy has been written below the root of the data, and perhaps recorded. -/
structure Published (root : String) (b : Address) (guid : Guid) (stored : Stored)
    (vault after : Vault) : Prop where
  entities : after.entities = vault.entities
  settings : after.settings = vault.settings
  catalog : after.catalog = vault.catalog
  wrote : Wrote root b guid stored vault.disk after.disk

/-- The copy of a vertex set. -/
def setCopy (guid : Guid) (set : VertexSet) : Stored :=
  ⟨⟨guid, .vertexSet, UInt64.ofNat set.size, []⟩, RowFile.encode RowFile.vertexRow set.mapping⟩

theorem write_and_record (hroot : vault.settings.dataDir = root)
    (husable : UsableRoot root b vault.disk) (hguid : stored.manifest.guid = guid)
    (hnew : ¬ Marked b guid vault.disk)
    (producer : Option Guid) :
    Yields (do
        let path ← write (← get).settings.dataDir stored
        record guid entity producer
        return path) vault
      (fun _ after => Published root b guid stored vault after)
      fun _ _ => vault.catalog ≠ none := by
  simp only [yields_bind, yields_get, hroot, write, onDisk_yields_iff, yields_pure]
  apply (write_wrote husable hguid hnew).mono ?_ fun _ _ hfalse => hfalse.elim
  intro _ disk hdisk
  apply (record_alike guid entity producer { vault with disk }).mono ?_ fun _ _ h => h
  intro _ after hafter
  exact ⟨hafter.entities, hafter.settings, hafter.catalog, hdisk.of_nodes hafter.nodes⟩

theorem decode_setCopy {resolve : Guid → Except Failure VertexSet} (hnodup : set.mapping.Nodup)
    (hsize : set.size < 2 ^ 63) :
    Ordered.decode (setCopy guid set) resolve = .ok (.vertexSet set) := by
  obtain ⟨stored, hencode, hdecode, -⟩ := Ordered.exists_encode_decode guid
    (show (Entity.vertexSet set).Fits resolve from hnodup) hsize nofun
  cases hencode
  exact hdecode

theorem require_of_registered (h : vault.get? guid = some entity) :
    Yields (require guid) vault (fun found after => found = entity ∧ after = vault)
      fun _ _ => False := by
  simp only [require, yields_bind, yields_get, h]
  exact ⟨rfl, rfl⟩

/-- A vertex set is written without looking at anything else. -/
theorem persist_vertexSet (hroot : vault.settings.dataDir = root)
    (husable : UsableRoot root b vault.disk) (hget : vault.get? guid = some (.vertexSet set))
    (hnew : ¬ Marked b guid vault.disk) (fuel : Nat) (producer : Option Guid) :
    Yields (persistWithin (fuel + 1) guid producer) vault
      (fun _ after => Published root b guid (setCopy guid set) vault after)
      fun _ _ => vault.catalog ≠ none := by
  rw [persistWithin, yields_bind]
  apply (require_of_registered hget).mono ?_ fun _ _ hfalse => hfalse.elim
  rintro found after ⟨rfl, rfl⟩
  exact write_and_record hroot husable rfl hnew producer

/-- Writes a reference if it is not written yet. -/
def persistReference (fuel : Nat) (r : Guid) : VaultM PUnit := do
  if !(← get).hasPersisted r then
    let _ ← persistWithin fuel r none

theorem persistReference_of_not_marked (hroot : vault.settings.dataDir = root)
    (husable : UsableRoot root b vault.disk) (hget : vault.get? r = some (.vertexSet set))
    (hnew : ¬ Marked b r vault.disk) (fuel : Nat) :
    Yields (persistReference (fuel + 1) r) vault
      (fun _ after => Published root b r (setCopy r set) vault after)
      fun _ _ => vault.catalog ≠ none := by
  have hnot : vault.hasPersisted r = false := by
    rw [Bool.eq_false_iff, hasPersisted, hroot]
    exact fun hcontains => hnew (marked_of_contains husable hcontains)
  simp only [persistReference, yields_bind, yields_get, hnot, Bool.not_false, if_true]
  exact persist_vertexSet hroot husable hget hnew fuel none

/-! ### Writing a column -/

section Column

variable {type : ColumnType} {cells : Attribute type.Cell}

/-- The copy of a column. -/
def columnCopy (guid : Guid) (cells : Attribute type.Cell) : Stored :=
  ⟨⟨guid, .column type, UInt64.ofNat cells.definedCount,
      [⟨cells.vertexSet, UInt64.ofNat cells.size⟩]⟩,
    RowFile.encode (RowFile.cellRow type) (cells.cells.map Ordered.cellRow)⟩

/-- A column is written as it is, after what is done about its vertex set. -/
private theorem persist_column (hcolumn : vault.get? guid = some (.column type cells))
    {ready : Vault → Prop}
    (hreference : Yields (persistReference vault.entities.size cells.vertexSet) vault
      (fun _ between => ready between) fun _ _ => vault.catalog ≠ none)
    (hready : ∀ between, ready between → between.settings.dataDir = root ∧
      UsableRoot root b between.disk ∧ ¬ Marked b guid between.disk ∧
      between.catalog = vault.catalog) :
    Yields (persist guid) vault
      (fun _ after => ∃ between, ready between ∧
        Published root b guid (columnCopy guid cells) between after)
      fun _ _ => vault.catalog ≠ none := by
  have hreferences : Yields ((Entity.column type cells).references.forM
      (persistReference vault.entities.size)) vault (fun _ between => ready between)
      fun _ _ => vault.catalog ≠ none := by
    simpa only [Entity.references, List.forM_eq_forM, List.forM_cons, List.forM_nil, yields_bind,
      yields_pure] using hreference
  rw [persist, persistFrom, yields_bind, yields_get, persistWithin, yields_bind]
  apply (require_of_registered hcolumn).mono ?_ fun _ _ hfalse => hfalse.elim
  rintro found start ⟨rfl, rfl⟩
  rw [yields_bind]
  apply hreferences.mono ?_ fun _ _ hcatalog => hcatalog
  intro _ between hbetween
  obtain ⟨hroot, husable, hnew, hcatalog⟩ := hready between hbetween
  change Yields (columnCopy guid cells |> fun stored => do
    let path ← write (← get).settings.dataDir stored
    record guid (.column type cells) none
    return path) between _ _
  apply (write_and_record hroot husable rfl hnew none).mono
  · exact fun _ after hafter => ⟨between, hbetween, hafter⟩
  · exact fun _ _ hfails => hcatalog ▸ hfails

/-- Whatever copy there is under the guid of the vertex set of a column, the column is written. -/
theorem persist_column_of_hasPersisted (hroot : vault.settings.dataDir = root)
    (husable : UsableRoot root b vault.disk)
    (hcolumn : vault.get? guid = some (.column type cells)) (hnew : ¬ Marked b guid vault.disk)
    (hset : vault.hasPersisted cells.vertexSet) :
    Yields (persist guid) vault
      (fun _ after => Published root b guid (columnCopy guid cells) vault after)
      fun _ _ => vault.catalog ≠ none := by
  have hreference : Yields (persistReference vault.entities.size cells.vertexSet) vault
      (fun _ between => between = vault) fun _ _ => vault.catalog ≠ none := by
    simp only [persistReference, yields_bind, yields_get, hset, Bool.not_true]
    rfl
  have hready : ∀ between, between = vault → between.settings.dataDir = root ∧
      UsableRoot root b between.disk ∧ ¬ Marked b guid between.disk ∧
      between.catalog = vault.catalog := by
    rintro between rfl
    exact ⟨hroot, husable, hnew, rfl⟩
  apply (persist_column hcolumn hreference hready).mono ?_ fun _ _ hcatalog => hcatalog
  rintro _ after ⟨between, rfl, hafter⟩
  exact hafter

/-- Where there is no copy of either, a column is written after its vertex set, of whatever size. -/
theorem persist_column_of_not_marked (hroot : vault.settings.dataDir = root)
    (husable : UsableRoot root b vault.disk)
    (hcolumn : vault.get? guid = some (.column type cells)) (hnew : ¬ Marked b guid vault.disk)
    (hset : vault.get? cells.vertexSet = some (.vertexSet set))
    (hnewSet : ¬ Marked b cells.vertexSet vault.disk) :
    Yields (persist guid) vault
      (fun _ after => ∃ between,
        Published root b cells.vertexSet (setCopy cells.vertexSet set) vault between ∧
          Published root b guid (columnCopy guid cells) between after)
      fun _ _ => vault.catalog ≠ none := by
  have hne : guid ≠ cells.vertexSet := by
    rintro heq
    rw [← heq, hcolumn] at hset
    cases hset
  have hsize : 0 < vault.entities.size :=
    List.length_pos_of_mem (SortedMap.get?_eq_some_iff.1 hcolumn)
  have hreference := persistReference_of_not_marked hroot husable hset hnewSet
    (vault.entities.size - 1)
  rw [Nat.sub_add_cancel hsize] at hreference
  apply persist_column hcolumn hreference
  intro between hbetween
  exact ⟨by rw [hbetween.settings, hroot], hbetween.wrote.usable,
    fun hmarked => hnew (hbetween.wrote.marks guid hne hmarked), hbetween.catalog⟩

end Column

/-! ### Memory and disk going together -/

/-- Vertex sets that are all known. -/
def known (sets : Guid → VertexSet) (guid : Guid) : Except Failure VertexSet := .ok (sets guid)

/-- A store has a copy of an entity that refers to certain vertex sets only, and fits them. -/
def StoresOver (vault : Vault) (refs : List Guid) (sets : Guid → VertexSet) (guid : Guid)
    (found : Entity) : Prop :=
  ∃ stored, EntityDirectory.read vault.disk vault.settings.dataDir guid = .ok stored ∧
    (∀ reference ∈ stored.manifest.references, reference.guid ∈ refs) ∧
    Ordered.decode stored (finals refs sets) = .ok found ∧ found.Fits (finals refs sets)

/-- The entity under a guid fits certain vertex sets. Those that are in memory have the sizes of
these, and those that are not written yet are these. Copies that are there already are copies of
these, and of something that fits them. What is to be written is within the limits of reading. -/
structure Consistent (vault : Vault) (root : String) (b : Address) (guid : Guid) (entity : Entity)
    (sets : Guid → VertexSet) : Prop where
  dataDir : vault.settings.dataDir = root
  usable : UsableRoot root b vault.disk
  registered : vault.get? guid = some entity
  fits : entity.Fits (known sets)
  distinct : ∀ r ∈ entity.references, (sets r).mapping.Nodup
  memory : ∀ r ∈ entity.references, ∀ e, vault.get? r = some e →
    ∃ set, e = .vertexSet set ∧ set.size = (sets r).size
  unwritten : ∀ r ∈ entity.references, ¬ Marked b r vault.disk → ∀ e, vault.get? r = some e →
    e = .vertexSet (sets r)
  written : ∀ r ∈ entity.references, Marked b r vault.disk → vault.Stores r (sets r)
  kept : Marked b guid vault.disk → ∃ found,
    vault.StoresOver entity.references sets guid found
  rowCount : entity.rowCount ≤ 2 ^ 32
  rowFile : ∀ stored, Ordered.encode guid entity (known sets) = .ok stored →
    stored.rows.length ≤ 2 * 1024 ^ 3
  setRowCount : ∀ r ∈ entity.references, (sets r).size ≤ 2 ^ 32
  setRowFile : ∀ r ∈ entity.references, (setCopy r (sets r)).rows.length ≤ 2 * 1024 ^ 3

theorem Stores.spared (h : vault.Stores r set) (hroot : vault.settings.dataDir = root)
    (husable : UsableRoot root b vault.disk) (hspares : Spares b r vault.disk after.disk)
    (hsettings : after.settings.dataDir = root) : after.Stores r set := by
  obtain ⟨stored, hread, hreferences, hdecode⟩ := h
  rw [hroot] at hread
  refine ⟨stored, hsettings ▸ hspares.read husable hread, hreferences, ?_⟩
  apply Ordered.decode_congr hdecode
  rw [hreferences]
  exact nofun

theorem StoresOver.eq {refs : List Guid} {sets : Guid → VertexSet} {entity' : Entity}
    (h : vault.StoresOver refs sets guid entity) (h' : vault.StoresOver refs sets guid entity') :
    entity' = entity := by
  obtain ⟨stored, hread, -, hdecode, -⟩ := h
  obtain ⟨stored', hread', -, hdecode', -⟩ := h'
  rw [hread, Except.ok.injEq] at hread'
  rw [← hread', hdecode, Except.ok.injEq] at hdecode'
  exact hdecode'.symm

theorem StoresOver.spared {refs : List Guid} {sets : Guid → VertexSet}
    (h : vault.StoresOver refs sets guid entity) (hroot : vault.settings.dataDir = root)
    (husable : UsableRoot root b vault.disk) (hspares : Spares b guid vault.disk after.disk)
    (hsettings : after.settings.dataDir = root) : after.StoresOver refs sets guid entity := by
  obtain ⟨stored, hread, hrest⟩ := h
  rw [hroot] at hread
  exact ⟨stored, hsettings ▸ hspares.read husable hread, hrest⟩

namespace Consistent

variable {sets : Guid → VertexSet}

theorem foreign (h : vault.Consistent root b guid entity sets) : guid ∉ entity.references := by
  intro hmem
  obtain ⟨set, rfl, -⟩ := h.memory guid hmem entity h.registered
  exact List.not_mem_nil hmem

theorem ne (h : vault.Consistent root b guid entity sets) (hr : r ∈ entity.references) :
    r ≠ guid := by
  rintro rfl
  exact h.foreign hr

/-- Nothing changes but the disk, and there only what is not spared. -/
private theorem of_spared (h : vault.Consistent root b guid entity sets)
    (hentities : after.entities = vault.entities) (hsettings : after.settings = vault.settings)
    (husable : UsableRoot root b after.disk)
    (hspares : ∀ x, Marked b x vault.disk → Spares b x vault.disk after.disk)
    (hwritten : ∀ r ∈ entity.references, ¬ Marked b r vault.disk → Marked b r after.disk →
      after.Stores r (sets r))
    (hkept : ¬ Marked b guid vault.disk → Marked b guid after.disk → ∃ found,
      after.StoresOver entity.references sets guid found) :
    after.Consistent root b guid entity sets := by
  have hget (x : Guid) : after.get? x = vault.get? x := by rw [get?, hentities, get?]
  have hroot : after.settings.dataDir = root := by rw [hsettings, h.dataDir]
  constructor
  case dataDir => exact hroot
  case usable => exact husable
  case registered => exact (hget guid).trans h.registered
  case fits => exact h.fits
  case distinct => exact h.distinct
  case memory =>
    intro r hr e he
    exact h.memory r hr e ((hget r).symm.trans he)
  case unwritten =>
    intro r hr hnew e he
    apply h.unwritten r hr ?_ e ((hget r).symm.trans he)
    exact fun hmarked => hnew ((hspares r hmarked).marked hmarked)
  case written =>
    intro r hr hmarked
    by_cases hbefore : Marked b r vault.disk
    · exact (h.written r hr hbefore).spared h.dataDir h.usable (hspares r hbefore) hroot
    · exact hwritten r hr hbefore hmarked
  case kept =>
    intro hmarked
    by_cases hbefore : Marked b guid vault.disk
    · obtain ⟨found, hfound⟩ := h.kept hbefore
      exact ⟨found, hfound.spared h.dataDir h.usable (hspares guid hbefore) hroot⟩
    · exact hkept hbefore hmarked
  case rowCount => exact h.rowCount
  case rowFile => exact h.rowFile
  case setRowCount => exact h.setRowCount
  case setRowFile => exact h.setRowFile

theorem of_alike (h : vault.Consistent root b guid entity sets) (halike : vault.Alike after) :
    after.Consistent root b guid entity sets := by
  have hnode (a : Address) : after.disk.node? a = vault.disk.node? a := by
    rw [node?, node?, halike.nodes]
  have hmarked {x : Guid} (hx : Marked b x after.disk) : Marked b x vault.disk := by
    obtain ⟨node, hmarker, hfile⟩ := hx
    exact ⟨node, (hnode _).symm.trans hmarker, hfile⟩
  apply h.of_spared halike.entities halike.settings (Site.usable_of_nodes h.usable halike.nodes)
  · exact fun x _ => spares_of_nodes halike.nodes
  · exact fun r _ hnot hafter => absurd (hmarked hafter) hnot
  · exact fun hnot hafter => absurd (hmarked hafter) hnot

/-- The copy of a vertex set is read as that vertex set. -/
private theorem read_setCopy (h : vault.Consistent root b guid entity sets)
    (hr : r ∈ entity.references) {disk after : Disk}
    (hwrote : Wrote root b r (setCopy r (sets r)) disk after) :
    EntityDirectory.read after root r = .ok (setCopy r (sets r)) := by
  apply hwrote.read rfl (by simp [setCopy])
  exact readable_of_limits (by simp [setCopy]) rfl (h.setRowCount r hr) (h.setRowFile r hr)

/-- Once the copy of a vertex set is written, it goes together with the rest. -/
theorem of_published_set (h : vault.Consistent root b guid entity sets) (hr : r ∈ entity.references)
    (hnew : ¬ Marked b r vault.disk)
    (hpublished : Published root b r (setCopy r (sets r)) vault after) :
    after.Consistent root b guid entity sets ∧ Marked b r after.disk ∧
      ∀ x, Marked b x vault.disk → Marked b x after.disk := by
  have hwrote := hpublished.wrote
  have hspares : ∀ x, Marked b x vault.disk → Spares b x vault.disk after.disk := fun _ hx =>
    hwrote.spares_of_marked hnew hx
  have hread := h.read_setCopy hr hwrote
  have hsize := h.setRowCount r hr
  refine ⟨?_, marked_of_contains hwrote.usable hwrote.contains,
    fun x hx => (hspares x hx).marked hx⟩
  apply h.of_spared hpublished.entities hpublished.settings hwrote.usable hspares
  · intro x hx hnot hmarked
    by_cases heq : x = r
    · subst heq
      refine ⟨setCopy x (sets x), ?_, rfl, decode_setCopy (h.distinct x hx) (by omega)⟩
      rw [hpublished.settings, h.dataDir, hread]
    · exact absurd (hwrote.marks x heq hmarked) hnot
  · intro hnot hmarked
    exact absurd (hwrote.marks guid (h.ne hr).symm hmarked) hnot

/-- The copy of the entity is read as what fits the vertex sets. -/
private theorem exists_copy (h : vault.Consistent root b guid entity sets) :
    ∃ stored, Ordered.encode guid entity (known sets) = .ok stored ∧ stored.manifest.guid = guid ∧
      Readable stored ∧ stored.manifest.references.length ≤ 2 ∧
      (∀ reference ∈ stored.manifest.references, reference.guid ∈ entity.references) ∧
      Ordered.decode stored (finals entity.references sets) = .ok entity.settled ∧
      entity.settled.Fits (finals entity.references sets) := by
  have hcounts : ∀ r ∈ entity.references, ∀ set, known sets r = .ok set → set.size ≤ 2 ^ 32 := by
    intro r hr set hset
    cases hset
    exact h.setRowCount r hr
  have hsized := Entity.sized_of_limits h.fits h.rowCount hcounts h.rowFile
  obtain ⟨stored, hencode, hdecode, hguid, -, hcount⟩ := Ordered.exists_encode_decode guid h.fits
    hsized fun r hr set hset => Nat.lt_of_le_of_lt (hcounts r hr set hset) (by decide)
  obtain ⟨htwo, hreferences⟩ := Ordered.mem_references_of_encode hencode
  have hreadable := readable_of_limits htwo hcount h.rowCount (h.rowFile stored hencode)
  refine ⟨stored, hencode, hguid, hreadable, htwo, hreferences, ?_, ?_⟩
  · exact Ordered.decode_congr hdecode fun reference hr => finals_of_mem (hreferences reference hr)
  · have hfits : entity.Fits (finals entity.references sets) :=
      h.fits.congr fun r hr set hset => ⟨sets r, finals_of_mem hr, by cases hset; rfl⟩
    exact hfits.of_sameContent (Entity.sameContent_symm (Entity.settled_sameContent hfits))

/-- Once the copy of the entity is written, it goes together with the rest. -/
theorem of_published_entity (h : vault.Consistent root b guid entity sets)
    (hnew : ¬ Marked b guid vault.disk)
    (hencode : Ordered.encode guid entity (known sets) = .ok stored)
    (hpublished : Published root b guid stored vault after) :
    after.Consistent root b guid entity sets ∧ Marked b guid after.disk ∧
      (∀ x, Marked b x vault.disk → Marked b x after.disk) ∧
      after.StoresOver entity.references sets guid entity.settled := by
  obtain ⟨found, hfound, hguid, hreadable, htwo, hreferences, hdecode, hfits⟩ := h.exists_copy
  rw [hencode, Except.ok.injEq] at hfound
  subst hfound
  have hwrote := hpublished.wrote
  have hspares : ∀ x, Marked b x vault.disk → Spares b x vault.disk after.disk := fun _ hx =>
    hwrote.spares_of_marked hnew hx
  have hread := hwrote.read hguid (by omega) hreadable
  have hstores : after.StoresOver entity.references sets guid entity.settled := by
    refine ⟨stored, ?_, hreferences, hdecode, hfits⟩
    rw [hpublished.settings, h.dataDir, hread]
  refine ⟨?_, marked_of_contains hwrote.usable hwrote.contains,
    fun x hx => (hspares x hx).marked hx, hstores⟩
  apply h.of_spared hpublished.entities hpublished.settings hwrote.usable hspares
  · intro r hr hnot hmarked
    exact absurd (hwrote.marks r (h.ne hr) hmarked) hnot
  · exact fun _ _ => ⟨entity.settled, hstores⟩

/-- A vertex set may be brought into memory. -/
theorem insert (h : vault.Consistent root b guid entity sets) (hr : r ∈ entity.references) :
    (vault.insert r (.vertexSet (sets r))).Consistent root b guid entity sets := by
  have hget {x : Guid} {e : Entity} (he : (vault.insert r (.vertexSet (sets r))).get? x = some e) :
      x = r ∧ e = .vertexSet (sets x) ∨ vault.get? x = some e := by
    by_cases heq : x = r
    · subst heq
      rw [get?_insert_self, Option.some.injEq] at he
      exact .inl ⟨rfl, he.symm⟩
    · rw [get?_insert_of_ne vault _ heq] at he
      exact .inr he
  constructor
  case dataDir => exact h.dataDir
  case usable => exact h.usable
  case registered => exact (get?_insert_of_ne vault _ (h.ne hr).symm).trans h.registered
  case fits => exact h.fits
  case distinct => exact h.distinct
  case memory =>
    intro x hx e he
    cases hget he with
    | inl hself => exact ⟨sets x, hself.2, rfl⟩
    | inr hbefore => exact h.memory x hx e hbefore
  case unwritten =>
    intro x hx hnew e he
    cases hget he with
    | inl hself => exact hself.2
    | inr hbefore => exact h.unwritten x hx hnew e hbefore
  case written =>
    intro x hx hmarked
    exact (h.written x hx hmarked).congr rfl rfl
  case kept => exact h.kept
  case rowCount => exact h.rowCount
  case rowFile => exact h.rowFile
  case setRowCount => exact h.setRowCount
  case setRowFile => exact h.setRowFile

end Consistent

/-! ### Writing what goes together -/

/-- While an entity is persisted, memory and disk go together, and copies stay. -/
private structure Persisting (vault : Vault) (root : String) (b : Address) (guid : Guid)
    (entity : Entity) (sets : Guid → VertexSet) (now : Vault) : Prop where
  consistent : now.Consistent root b guid entity sets
  settings : now.settings = vault.settings
  marks : ∀ x, Marked b x vault.disk → Marked b x now.disk
  fresh : Marked b guid now.disk → Marked b guid vault.disk
  catalog : now.catalog = vault.catalog
  memory : ∀ x e, vault.get? x = some e → now.get? x = some e

/-- When an entity is persisted, a vertex set may be nowhere, or the catalog's record illegible. -/
private def Excused (vault : Vault) (entity : Entity) : Prop :=
  vault.catalog ≠ none ∨ ∃ r ∈ entity.references, vault.get? r = none

section Persisting

variable {sets : Guid → VertexSet}

private theorem Persisting.trans {between : Vault}
    (h : Persisting vault root b guid entity sets between)
    (h' : Persisting between root b guid entity sets now) :
    Persisting vault root b guid entity sets now :=
  ⟨h'.consistent, h'.settings.trans h.settings, fun x hx => h'.marks x (h.marks x hx),
    fun hx => h.fresh (h'.fresh hx), h'.catalog.trans h.catalog,
    fun x e he => h'.memory x e (h.memory x e he)⟩

private theorem Persisting.excused (h : Persisting vault root b guid entity sets now) :
    Excused now entity → Excused vault entity := by
  rintro (hcatalog | ⟨r, hr, hnone⟩)
  · exact .inl (h.catalog ▸ hcatalog)
  · refine .inr ⟨r, hr, ?_⟩
    cases hget : vault.get? r with
    | none => rfl
    | some e =>
      rw [h.memory r e hget] at hnone
      cases hnone

private theorem Persisting.refl (h : vault.Consistent root b guid entity sets) :
    Persisting vault root b guid entity sets vault :=
  ⟨h, rfl, fun _ hx => hx, fun hx => hx, rfl, fun _ _ he => he⟩

private theorem persistReference_yields (h : vault.Consistent root b guid entity sets)
    (hr : r ∈ entity.references) (fuel : Nat) :
    Yields (persistReference (fuel + 1) r) vault
      (fun _ after => Persisting vault root b guid entity sets after ∧ Marked b r after.disk)
      fun _ _ => Excused vault entity := by
  by_cases hmarked : Marked b r vault.disk
  · rw [persistReference, yields_bind, yields_get]
    simp only [(h.written r hr hmarked).hasPersisted, Bool.not_true]
    exact ⟨.refl h, hmarked⟩
  cases hget : vault.get? r with
  | none =>
    have hnot : vault.hasPersisted r = false := by
      rw [Bool.eq_false_iff, hasPersisted, h.dataDir]
      exact fun hcontains => hmarked (marked_of_contains h.usable hcontains)
    simp only [persistReference, persistWithin, require, yields_bind, yields_get, hnot, hget,
      Bool.not_false, if_true]
    exact .inr ⟨r, hr, hget⟩
  | some e =>
    have hset := h.unwritten r hr hmarked e hget
    subst hset
    apply (persistReference_of_not_marked h.dataDir h.usable hget hmarked fuel).mono ?_
      fun _ _ hcatalog => .inl hcatalog
    intro _ after hafter
    obtain ⟨hconsistent, hself, hmarks⟩ := h.of_published_set hr hmarked hafter
    refine ⟨⟨hconsistent, hafter.settings, hmarks, ?_, hafter.catalog, fun x e he => ?_⟩, hself⟩
    · exact hafter.wrote.marks guid (h.ne hr).symm
    · rw [get?, hafter.entities]
      exact he

private theorem persistReferences_yields (h : vault.Consistent root b guid entity sets)
    {references : List Guid} (hreferences : ∀ r ∈ references, r ∈ entity.references) (fuel : Nat) :
    Yields (references.forM (persistReference (fuel + 1))) vault
      (fun _ after => Persisting vault root b guid entity sets after ∧
        ∀ r ∈ references, Marked b r after.disk) fun _ _ => Excused vault entity := by
  have hround : ∀ r ∈ references, ∀ now, Persisting vault root b guid entity sets now →
      Yields (persistReference (fuel + 1) r) now
        (fun _ after => Persisting vault root b guid entity sets after ∧ Marked b r after.disk ∧
          ∀ x, Marked b x now.disk → Marked b x after.disk)
        fun _ _ => Excused vault entity := by
    intro r hr now hnow
    apply (persistReference_yields hnow.consistent (hreferences r hr) fuel).mono
    · exact fun _ _ hafter => ⟨hnow.trans hafter.1, hafter.2, hafter.1.marks⟩
    · exact fun _ _ hexcused => hnow.excused hexcused
  exact yields_forM_done hround (.refl h)

/-- A vertex set that is written is found, with the size that it has on disk. -/
private theorem resolve_yields (h : vault.Consistent root b guid entity sets)
    (hr : r ∈ entity.references) (hmarked : Marked b r vault.disk) :
    Yields (resolve r) vault
      (fun set after => Persisting vault root b guid entity sets after ∧
        set.size = (sets r).size ∧ after.disk = vault.disk) fun _ _ => False := by
  rw [resolve, resolveWith, yields_bind, getOrLoad]
  cases hget : vault.get? r with
  | some e =>
    obtain ⟨set, rfl, hsize⟩ := h.memory r hr e hget
    apply (findWith_of_registered hget).mono ?_ fun _ _ hfalse => hfalse
    rintro found after ⟨rfl, rfl⟩
    exact ⟨.refl h, hsize, rfl⟩
  | none =>
    have hset : vault.HasSet r (sets r) := .inr ⟨hget, h.written r hr hmarked⟩
    have hfound := findWith_of_hasSet loadsSets_load hset (h.distinct r hr)
    apply hfound.mono ?_ fun _ _ hfalse => hfalse
    rintro found after ⟨rfl, ⟨rfl, -⟩ | ⟨-, rfl⟩⟩
    · exact ⟨.refl h, rfl, rfl⟩
    · refine ⟨⟨h.insert hr, rfl, fun _ hx => hx, fun hx => hx, rfl, fun x e he => ?_⟩, rfl, rfl⟩
      have hne : x ≠ r := by
        rintro rfl
        rw [hget] at he
        cases he
      rw [get?_insert_of_ne vault _ hne, he]

private theorem encode_yields (h : vault.Consistent root b guid entity sets)
    (hmarked : ∀ r ∈ entity.references, Marked b r vault.disk) :
    Yields (Ordered.encode guid entity resolve) vault
      (fun stored after => Persisting vault root b guid entity sets after ∧
        Ordered.encode guid entity (known sets) = .ok stored) fun _ _ => False := by
  cases entity with
  | vertexSet set => exact ⟨.refl h, rfl⟩
  | edgeBundle bundle =>
    have hsource := Entity.mem_references_edgeBundle.2 (.inl (rfl : bundle.sourceSet = _))
    have hdestination := Entity.mem_references_edgeBundle.2 (.inr (rfl : bundle.destinationSet = _))
    simp only [Ordered.encode, Ordered.reference, yields_bind, yields_pure]
    apply (resolve_yields h hsource (hmarked _ hsource)).mono ?_ fun _ _ hfalse => hfalse
    rintro source between ⟨hbetween, hsize, hdisk⟩
    apply (resolve_yields hbetween.consistent hdestination
      (hdisk ▸ hmarked _ hdestination)).mono ?_ fun _ _ hfalse => hfalse
    rintro destination after ⟨hafter, hsize', -⟩
    refine ⟨hbetween.trans hafter, ?_⟩
    rw [hsize, hsize']
    rfl
  | column type cells => exact ⟨.refl h, rfl⟩

/-- The entity itself is written, unless there is a copy of it. -/
private theorem write_yields (h : vault.Consistent root b guid entity sets)
    (hencode : Ordered.encode guid entity (known sets) = .ok stored) :
    Yields (do
        let path ← write (← get).settings.dataDir stored
        record guid entity none
        return path) vault
      (fun _ after => after.Consistent root b guid entity sets ∧ after.settings = vault.settings ∧
        (∀ x, Marked b x vault.disk → Marked b x after.disk) ∧ Marked b guid after.disk ∧
        (¬ Marked b guid vault.disk →
          after.StoresOver entity.references sets guid entity.settled))
      fun _ _ => vault.catalog ≠ none := by
  obtain ⟨found, hfound, hguid, -⟩ := h.exists_copy
  rw [hencode, Except.ok.injEq] at hfound
  subst hfound
  by_cases hmarked : Marked b guid vault.disk
  · obtain ⟨_, _, hread, -⟩ := h.kept hmarked
    have hcontains := contains_of_read hread
    rw [h.dataDir, ← hguid] at hcontains
    simp only [yields_bind, yields_get, h.dataDir, write, onDisk_yields_iff, yields_pure]
    apply (write_of_contains hcontains).mono ?_ fun _ _ hfalse => hfalse.elim
    rintro - disk rfl
    apply (record_alike guid entity none vault).mono ?_ fun _ _ hcatalog => hcatalog
    intro _ after hafter
    have hmarks : ∀ x, Marked b x vault.disk → Marked b x after.disk := fun x hx =>
      (spares_of_nodes hafter.nodes).marked hx
    exact ⟨h.of_alike hafter, hafter.settings, hmarks, hmarks guid hmarked,
      fun hnot => absurd hmarked hnot⟩
  · apply (write_and_record h.dataDir h.usable hguid hmarked none).mono ?_
      fun _ _ hcatalog => hcatalog
    intro _ after hafter
    obtain ⟨hconsistent, hself, hmarks, hstores⟩ := h.of_published_entity hmarked hencode hafter
    exact ⟨hconsistent, hafter.settings, hmarks, hself, fun _ => hstores⟩

/-- Once an entity is persisted, its copy and those of its vertex sets are there, and memory and
disk go together as before. -/
theorem persist_yields (h : vault.Consistent root b guid entity sets) :
    Yields (persist guid) vault
      (fun _ after => after.Consistent root b guid entity sets ∧ after.settings = vault.settings ∧
        (∀ x ∈ guid :: entity.references, Marked b x after.disk) ∧
        (¬ Marked b guid vault.disk →
          after.StoresOver entity.references sets guid entity.settled))
      fun _ _ => vault.catalog ≠ none ∨ ∃ r ∈ entity.references, vault.get? r = none := by
  have hsize : 0 < vault.entities.size :=
    List.length_pos_of_mem (SortedMap.get?_eq_some_iff.1 h.registered)
  have hfuel : vault.entities.size + 1 = vault.entities.size - 1 + 1 + 1 := by omega
  rw [persist, persistFrom, yields_bind, yields_get, hfuel, persistWithin, yields_bind]
  apply (require_of_registered h.registered).mono ?_ fun _ _ hfalse => hfalse.elim
  rintro found start ⟨rfl, rfl⟩
  rw [yields_bind]
  apply (persistReferences_yields h (fun r hr => hr) (start.entities.size - 1)).mono ?_
    fun _ _ hexcused => hexcused
  rintro - ready ⟨hready, hmarked⟩
  rw [yields_bind]
  apply (encode_yields hready.consistent hmarked).mono ?_ fun _ _ hfalse => hfalse.elim
  rintro stored before ⟨hbefore, hencode⟩
  have hall := hready.trans hbefore
  apply (write_yields hall.consistent hencode).mono
  · rintro - after ⟨hafter, hsettings, hmarks, hself, hstores⟩
    refine ⟨hafter, hsettings.trans hall.settings, fun x hx => ?_, fun hnew => ?_⟩
    · cases List.mem_cons.1 hx with
      | inl heq => exact heq ▸ hself
      | inr hx => exact hmarks x (hbefore.marks x (hmarked x hx))
    · exact hstores fun hx => hnew (hall.fresh hx)
  · intro _ _ hcatalog
    exact .inl (hall.catalog ▸ hcatalog)

end Persisting

end Vault

end GraphVault
