import GraphVault.Proofs.Copies
import GraphVault.Proofs.DecoderSoundness

/-!
# What an exchange copy preserves

Two stores may number the external ids of a vertex set differently. An entity that one of them
exports and the other imports looks the same from outside: each external id has the cell that it
had, and the edges connect the external ids that they connected, in the order of their ids
(`Unordered.exists_decode_encode`).
-/

namespace GraphVault

namespace VertexSet

variable {set : VertexSet} {id : Int64} {position : Nat}

/-- In a set of distinct ids every position is the one of its id. -/
theorem placeOf_idAt (hnodup : set.mapping.Nodup) (h : position < set.size) :
    set.placeOf (set.idAt position) = position := by
  have hid := mapping_idAt h
  have hplace := mapping_placeOf (idAt_mem h)
  exact (List.getElem?_inj (placeOf_lt (idAt_mem h)) hnodup).1 (hplace.trans hid.symm)

end VertexSet

theorem Entity.mem_sets_iff {entity : Entity} {guid : Guid} :
    guid ∈ entity.sets ↔ guid ∈ entity.references := by
  cases entity with
  | vertexSet set => rfl
  | edgeBundle bundle => simp [sets, mem_references_edgeBundle]
  | column type cells => simp [sets, mem_references_column]

theorem Entity.length_sets_le (entity : Entity) : entity.sets.length ≤ 2 := by
  cases entity <;> simp [sets]

/-- The edges of a bundle as another store sees them: with the external ids of their ends. -/
def EdgeBundle.externalEdges (bundle : EdgeBundle) (source destination : VertexSet) :
    List EdgeRow :=
  bundle.edges.map (Unordered.rowOf source destination)

namespace Attribute

variable {α : Type} {column : Attribute α} {set : VertexSet}

/-- The cell of an external id, if it is defined. -/
def cellAt (column : Attribute α) (set : VertexSet) (id : Int64) : Option α :=
  (set.positionOf id).bind column.get?

theorem cellAt_eq_some_iff {id : Int64} {value : α} :
    column.cellAt set id = some value ↔
      id ∈ set.mapping ∧ (set.placeOf id, value) ∈ column.cells := by
  by_cases h : id ∈ set.mapping
  · simp [cellAt, VertexSet.positionOf_of_mem h, get?_eq_some_iff, h]
  · simp [cellAt, VertexSet.positionOf_eq_none_iff.2 h, h]

theorem cellAt_eq_some_iff_mem_rows (hnodup : set.mapping.Nodup) (h : column.Aligned set.size)
    {id : Int64} {value : α} :
    column.cellAt set id = some value ↔
      (id, value) ∈ column.cells.map (Unordered.cellRowOf set) := by
  rw [cellAt_eq_some_iff, List.mem_map]
  constructor
  · rintro ⟨hid, hcell⟩
    exact ⟨_, hcell, by rw [Unordered.cellRowOf, VertexSet.idAt_placeOf hid]⟩
  · rintro ⟨⟨position, value'⟩, hcell, heq⟩
    cases heq
    have hlt := h.position_lt hcell
    rw [VertexSet.placeOf_idAt hnodup hlt]
    exact ⟨VertexSet.idAt_mem hlt, hcell⟩

end Attribute

/-- An entity and the one that another store makes of its exchange copy, each over the vertex sets
that its store has. -/
inductive Entity.Reimported (sets sets' : Guid → Except Failure VertexSet) : Entity → Entity → Prop
  | edgeBundle {bundle bundle' : EdgeBundle} {source destination source' destination' : VertexSet}
      (hs : sets bundle.sourceSet = .ok source) (hd : sets bundle.destinationSet = .ok destination)
      (hs' : sets' bundle.sourceSet = .ok source')
      (hd' : sets' bundle.destinationSet = .ok destination')
      (hsource : bundle'.sourceSet = bundle.sourceSet)
      (hdestination : bundle'.destinationSet = bundle.destinationSet)
      (hedges : bundle'.externalEdges source' destination'
        = (bundle.externalEdges source destination).mergeSort fun a b => a.id ≤ b.id) :
      Reimported sets sets' (.edgeBundle bundle) (.edgeBundle bundle')
  | column {type : ColumnType} {cells cells' : Attribute type.Cell} {set set' : VertexSet}
      (hset : sets cells.vertexSet = .ok set) (hset' : sets' cells.vertexSet = .ok set')
      (hover : cells'.vertexSet = cells.vertexSet)
      (hcells : ∀ id, cells'.cellAt set' id = cells.cellAt set id) :
      Reimported sets sets' (.column type cells) (.column type cells')

namespace Entity.Reimported

variable {sets sets' sets'' : Guid → Except Failure VertexSet} {entity entity' : Entity}

theorem references_eq (h : Reimported sets sets' entity entity') :
    entity'.references = entity.references := by
  cases h with
  | edgeBundle _ _ _ _ hsource hdestination _ =>
    simp [references, EdgeBundle.isHomogeneous, hsource, hdestination]
  | column _ _ hover _ => simp only [references, hover]

/-- Only the vertex sets that the entity refers to matter. -/
theorem congr (h : Reimported sets sets' entity entity')
    (heq : ∀ r ∈ entity.references, ∀ set, sets' r = .ok set → sets'' r = .ok set) :
    Reimported sets sets'' entity entity' := by
  cases h with
  | edgeBundle hs hd hs' hd' hsource hdestination hedges =>
    apply Reimported.edgeBundle hs hd ?_ ?_ hsource hdestination hedges
    · exact heq _ (mem_references_edgeBundle.2 (.inl rfl)) _ hs'
    · exact heq _ (mem_references_edgeBundle.2 (.inr rfl)) _ hd'
  | column hset hset' hover hcells =>
    apply Reimported.column hset ?_ hover hcells
    exact heq _ (mem_references_column.2 rfl) _ hset'

end Entity.Reimported

namespace Unordered

section Columns

variable {α : Type} {placeholder : α} {column : Attribute α} {set set' : VertexSet}

private theorem rows_known (h : column.Aligned set.size) (hperm : set'.mapping.Perm set.mapping) :
    ∀ row ∈ column.cells.map (cellRowOf set), row.1 ∈ set'.mapping := by
  intro row hrow
  obtain ⟨cell, hcell, rfl⟩ := List.mem_map.1 hrow
  exact hperm.mem_iff.2 (VertexSet.idAt_mem (h.position_lt hcell))

/-- The rows of a column have positions of their own in every numbering of their ids. -/
private theorem nodup_places (hnodup : set.mapping.Nodup) (h : column.Aligned set.size)
    (hperm : set'.mapping.Perm set.mapping) :
    (((column.cells.map (cellRowOf set)).map (cellOf set')).map (·.1)).Nodup := by
  have hpositions : ((column.cells.map (cellRowOf set)).map (cellOf set')).map (·.1)
      = (column.cells.map (·.1)).map fun position => set'.placeOf (set.idAt position) := by
    simp only [List.map_map]
    rfl
  rw [hpositions]
  apply List.Nodup.map_on ?_ column.nodup_positions
  intro p hp q hq heq
  obtain ⟨cell, hcell, rfl⟩ := List.mem_map.1 hp
  obtain ⟨cell', hcell', rfl⟩ := List.mem_map.1 hq
  have hlt := h.position_lt hcell
  have hlt' := h.position_lt hcell'
  have hid := VertexSet.placeOf_injective (hperm.mem_iff.2 (VertexSet.idAt_mem hlt))
    (hperm.mem_iff.2 (VertexSet.idAt_mem hlt')) heq
  rw [← VertexSet.placeOf_idAt hnodup hlt, hid, VertexSet.placeOf_idAt hnodup hlt']

/-- The column that a store with another numbering makes of the rows. -/
private def reimported (placeholder : α) (column : Attribute α) (set set' : VertexSet) :
    Attribute α :=
  .ofCells placeholder set'.size column.vertexSet
    ((column.cells.map (cellRowOf set)).map (cellOf set'))

private theorem place_rows (placeholder : α) (hnodup : set.mapping.Nodup)
    (h : column.Aligned set.size) (hperm : set'.mapping.Perm set.mapping) (guid : Guid) :
    place guid set' 0 (.blank placeholder set'.size column.vertexSet)
      (column.cells.map (cellRowOf set)) = .ok (reimported placeholder column set set') := by
  rw [place_eq_ok_iff (Attribute.aligned_blank _ _ _), Attribute.cells_blank, List.nil_append]
  exact ⟨rows_known h hperm, nodup_places hnodup h hperm, rfl⟩

private theorem cellAt_reimported (hnodup : set.mapping.Nodup) (h : column.Aligned set.size)
    (hperm : set'.mapping.Perm set.mapping) (id : Int64) :
    (reimported placeholder column set set').cellAt set' id = column.cellAt set id := by
  have hknown := rows_known h hperm
  have hlt : ∀ cell ∈ (column.cells.map (cellRowOf set)).map (cellOf set'), cell.1 < set'.size := by
    intro cell hcell
    obtain ⟨row, hrow, rfl⟩ := List.mem_map.1 hcell
    exact VertexSet.placeOf_lt (hknown row hrow)
  have hcells := Attribute.cells_ofCells_perm placeholder set'.size column.vertexSet hlt
    (nodup_places hnodup h hperm)
  apply Option.ext
  intro value
  rw [Attribute.cellAt_eq_some_iff_mem_rows hnodup h, Attribute.cellAt_eq_some_iff, reimported,
    hcells.mem_iff]
  constructor
  · rintro ⟨hid, hcell⟩
    obtain ⟨⟨id', value'⟩, hrow, heq⟩ := List.mem_map.1 hcell
    simp only [cellOf, Prod.mk.injEq] at heq
    rw [← VertexSet.placeOf_injective (hknown _ hrow) hid heq.1, ← heq.2]
    exact hrow
  · intro hrow
    exact ⟨hknown _ hrow, List.mem_map_of_mem hrow⟩

private theorem reimported_self (hnodup : set.mapping.Nodup) (h : column.Aligned set.size) :
    reimported placeholder column set set = column.settled placeholder := by
  have hcells : (column.cells.map (cellRowOf set)).map (cellOf set) = column.cells := by
    rw [List.map_map]
    refine (List.map_congr_left fun cell hcell => ?_).trans (List.map_id _)
    have hplace := VertexSet.placeOf_idAt hnodup (h.position_lt hcell)
    exact Prod.ext hplace rfl
  rw [reimported, hcells, Attribute.ofCells_cells placeholder h]

end Columns

section Edges

variable {bundle : EdgeBundle} {source destination source' destination' : VertexSet}

/-- The bundle that a store with other numberings makes of the rows. -/
private def rebundled (bundle : EdgeBundle) (source destination source' destination' : VertexSet) :
    EdgeBundle :=
  .ofEdges bundle.sourceSet bundle.destinationSet
    (byId ((bundle.externalEdges source destination).map (edgeOf source' destination')))

private theorem ends_known (h : bundle.Aligned source.size destination.size)
    (hs : source'.mapping.Perm source.mapping)
    (hd : destination'.mapping.Perm destination.mapping) :
    ∀ row ∈ bundle.externalEdges source destination,
      row.source ∈ source'.mapping ∧ row.destination ∈ destination'.mapping := by
  intro row hrow
  obtain ⟨e, he, rfl⟩ := List.mem_map.1 hrow
  obtain ⟨hsource, hdestination⟩ := h.edge_lt he
  exact ⟨hs.mem_iff.2 (VertexSet.idAt_mem hsource), hd.mem_iff.2 (VertexSet.idAt_mem hdestination)⟩

private theorem externalEdges_rebundled (h : bundle.Aligned source.size destination.size)
    (hs : source'.mapping.Perm source.mapping) (hd : destination'.mapping.Perm destination.mapping)
    (hsource : source'.size ≤ 2 ^ 64) (hdestination : destination'.size ≤ 2 ^ 64) :
    (rebundled bundle source destination source' destination').externalEdges source' destination'
      = (bundle.externalEdges source destination).mergeSort fun a b => a.id ≤ b.id := by
  have hknown := ends_known h hs hd
  have hback : ((bundle.externalEdges source destination).map (edgeOf source' destination')).map
      (rowOf source' destination') = bundle.externalEdges source destination := by
    rw [List.map_map]
    refine (List.map_congr_left fun row hrow => ?_).trans (List.map_id _)
    exact rowOf_edgeOf hsource hdestination (hknown row hrow).1 (hknown row hrow).2
  -- rows have the ids of their edges, so that they are sorted alike
  have hsorted := List.map_mergeSort (r := fun a b : Edge => decide (a.id ≤ b.id))
    (s := fun a b : EdgeRow => decide (a.id ≤ b.id)) (f := rowOf source' destination')
    (l := (bundle.externalEdges source destination).map (edgeOf source' destination'))
    fun _ _ _ _ => rfl
  rw [EdgeBundle.externalEdges, rebundled, EdgeBundle.edges_ofEdges, byId, hsorted, hback]

private theorem rebundled_self (h : bundle.Aligned source.size destination.size)
    (hs : source.mapping.Nodup) (hd : destination.mapping.Nodup)
    (hsorted : bundle.ids.Pairwise (· ≤ ·)) :
    rebundled bundle source destination source destination = bundle := by
  have hplaces : (bundle.externalEdges source destination).map (edgeOf source destination)
      = bundle.edges := by
    rw [EdgeBundle.externalEdges, List.map_map]
    refine (List.map_congr_left fun e he => ?_).trans (List.map_id _)
    obtain ⟨hsource, hdestination⟩ := h.edge_lt he
    simp [edgeOf, rowOf, VertexSet.placeOf_idAt hs hsource,
      VertexSet.placeOf_idAt hd hdestination]
  have hself := EdgeBundle.ofEdges_edges h
  have hids : bundle.edges.Pairwise fun a b => a.id ≤ b.id := by
    rw [← hself] at hsorted
    exact List.pairwise_map.1 hsorted
  rw [rebundled, hplaces, byId_of_pairwise hids, hself]

end Edges

variable {guid : Guid} {sets sets' : Guid → Except Failure VertexSet}

private theorem reimport_edgeBundle {bundle : EdgeBundle}
    {source destination source' destination' : VertexSet}
    (hs : sets bundle.sourceSet = .ok source) (hd : sets bundle.destinationSet = .ok destination)
    (hs' : sets' bundle.sourceSet = .ok source')
    (hd' : sets' bundle.destinationSet = .ok destination')
    (hperm : source'.mapping.Perm source.mapping)
    (hperm' : destination'.mapping.Perm destination.mapping) (hsource : source.size < 2 ^ 64)
    (hdestination : destination.size < 2 ^ 64)
    (h : bundle.Aligned source.size destination.size) (hcount : bundle.size < 2 ^ 64)
    {stored : Stored} (hencode : encode guid (.edgeBundle bundle) sets = .ok stored) :
    decode stored sets'
        = .ok (.edgeBundle (rebundled bundle source destination source' destination')) ∧
      (rebundled bundle source destination source' destination').Aligned source'.size
        destination'.size ∧
      Entity.Reimported sets sets' (.edgeBundle bundle)
        (.edgeBundle (rebundled bundle source destination source' destination')) := by
  have hsize : source'.size = source.size := hperm.length_eq
  have hsize' : destination'.size = destination.size := hperm'.length_eq
  have hknown := ends_known h hperm hperm'
  rw [encode_edgeBundle guid hs hd fun e he => h.edge_lt he] at hencode
  cases hencode
  have hlength : (bundle.externalEdges source destination).length < 2 ^ 64 := by
    rw [EdgeBundle.externalEdges, List.length_map, EdgeBundle.length_edges h]
    exact hcount
  have hrows := RowFile.decode_encode hlength (fun row _ => RowFile.restores_edgeRow row) guid
  have hword {n : Nat} (hn : n < 2 ^ 64) : n = (UInt64.ofNat n).toNat :=
    (UInt64.toNat_ofNat_of_lt' hn).symm
  refine ⟨?_, ?_, ?_⟩
  · exact decode_edgeBundle_iff.2 ⟨_, rfl, _, rfl, source', ⟨hs', hsize.trans (hword hsource)⟩,
      destination', ⟨hd', hsize'.trans (hword hdestination)⟩, _, hrows, _,
      edges_eq_ok_iff.2 ⟨hknown, rfl⟩, rfl⟩
  · apply EdgeBundle.aligned_ofEdges
    intro e he
    obtain ⟨row, hrow, rfl⟩ := List.mem_map.1 ((byId_perm _).mem_iff.1 he)
    exact edgeOf_lt (hknown row hrow).1 (hknown row hrow).2
  · exact .edgeBundle hs hd hs' hd' rfl rfl
      (externalEdges_rebundled h hperm hperm' (by omega) (by omega))

private theorem reimport_column {type : ColumnType} {cells : Attribute type.Cell}
    {set set' : VertexSet} (hset : sets cells.vertexSet = .ok set)
    (hset' : sets' cells.vertexSet = .ok set') (hnodup : set.mapping.Nodup)
    (hperm : set'.mapping.Perm set.mapping) (hsize : set.size < 2 ^ 64) (h : cells.Aligned set.size)
    {stored : Stored} (hencode : encode guid (.column type cells) sets = .ok stored)
    (hfile : stored.rows.length < 2 ^ 64) :
    decode stored sets' = .ok (.column type (reimported type.placeholder cells set set')) ∧
      Entity.Reimported sets sets' (.column type cells)
        (.column type (reimported type.placeholder cells set set')) := by
  have hsize' : set'.size = set.size := hperm.length_eq
  rw [encode_column guid hset fun cell hcell => h.position_lt hcell] at hencode
  cases hencode
  have hcount := Attribute.definedCount_le h
  have hlength : (cells.cells.map (cellRowOf set)).length < 2 ^ 64 := by
    rw [List.length_map, Attribute.length_cells h]
    omega
  have hrestores :
      ∀ row ∈ cells.cells.map (cellRowOf set), (RowFile.cellRow type).Restores row := by
    intro row hrow
    exact RowFile.restores_cellRow (Nat.lt_of_le_of_lt (RowFile.textBytes_le hrow) hfile)
  have hrows := RowFile.decode_encode hlength hrestores guid
  have hplace := place_rows type.placeholder hnodup h hperm guid
  have hword : set.size = (UInt64.ofNat set.size).toNat := (UInt64.toNat_ofNat_of_lt' hsize).symm
  constructor
  · exact decode_column_iff.2 ⟨_, rfl, set', ⟨hset', hsize'.trans hword⟩, _, hrows, _, hplace, rfl⟩
  · exact .column hset hset' (Attribute.vertexSet_ofCells _ _ _ _)
      (cellAt_reimported hnodup h hperm)

/-- What the manifest of an exchange copy says. -/
theorem manifest_of_encode {e : Entity} (h : e.Fits sets) {stored : Stored}
    (hencode : encode guid e sets = .ok stored) :
    stored.manifest.guid = guid ∧ stored.manifest.rowCount = UInt64.ofNat e.rowCount ∧
      stored.manifest.references.map (·.guid) = e.sets := by
  cases e with
  | vertexSet set =>
    cases hencode
    exact ⟨rfl, rfl, rfl⟩
  | edgeBundle bundle =>
    obtain ⟨source, destination, hs, hd, haligned⟩ := h
    rw [encode_edgeBundle guid hs hd fun e he => haligned.edge_lt he] at hencode
    cases hencode
    rw [List.length_map, EdgeBundle.length_edges haligned]
    exact ⟨rfl, rfl, rfl⟩
  | column type cells =>
    obtain ⟨set, hset, haligned⟩ := h
    rw [encode_column guid hset fun cell hcell => haligned.position_lt hcell] at hencode
    cases hencode
    rw [List.length_map, Attribute.length_cells haligned]
    exact ⟨rfl, rfl, rfl⟩

/-- What is written with some numberings of the external ids is read with any others, and looks the
same from outside. Over the same numberings it is the same, if its edges are in order. -/
theorem exists_decode_encode {e : Entity} (h : e.Fits sets) (hkind : e.kind ≠ .vertexSet)
    (hsets : ∀ r ∈ e.references, ∀ set, sets r = .ok set → set.mapping.Nodup ∧
      set.size < 2 ^ 64 ∧ ∃ set', sets' r = .ok set' ∧ set'.mapping.Perm set.mapping)
    (hcount : e.rowCount < 2 ^ 64) {stored : Stored} (hencode : encode guid e sets = .ok stored)
    (hfile : stored.rows.length < 2 ^ 64) :
    ∃ e', decode stored sets' = .ok e' ∧ e'.Fits sets' ∧ Entity.Reimported sets sets' e e' ∧
      ((∀ r ∈ e.references, sets' r = sets r) →
        (∀ bundle, e = .edgeBundle bundle → bundle.ids.Pairwise (· ≤ ·)) → e'.sameContent e) := by
  cases e with
  | vertexSet set => exact absurd rfl hkind
  | edgeBundle bundle =>
    obtain ⟨source, destination, hs, hd, haligned⟩ := h
    obtain ⟨hnodup, hsource, source', hs', hperm⟩ :=
      hsets _ (Entity.mem_references_edgeBundle.2 (.inl rfl)) _ hs
    obtain ⟨hnodup', hdestination, destination', hd', hperm'⟩ :=
      hsets _ (Entity.mem_references_edgeBundle.2 (.inr rfl)) _ hd
    obtain ⟨hdecode, haligned', hview⟩ := reimport_edgeBundle hs hd hs' hd' hperm hperm' hsource
      hdestination haligned hcount hencode
    refine ⟨_, hdecode, ⟨source', destination', hs', hd', haligned'⟩, hview, ?_⟩
    intro hsame hsorted
    have hsource := hsame _ (Entity.mem_references_edgeBundle.2 (.inl rfl))
    have hdestination := hsame _ (Entity.mem_references_edgeBundle.2 (.inr rfl))
    rw [hs', hs, Except.ok.injEq] at hsource
    rw [hd', hd, Except.ok.injEq] at hdestination
    rw [hsource, hdestination, rebundled_self haligned hnodup hnodup' (hsorted bundle rfl)]
    exact Entity.sameContent_refl _
  | column type cells =>
    obtain ⟨set, hset, haligned⟩ := h
    obtain ⟨hnodup, hsize, set', hset', hperm⟩ :=
      hsets _ (Entity.mem_references_column.2 rfl) _ hset
    obtain ⟨hdecode, hview⟩ := reimport_column hset hset' hnodup hperm hsize haligned hencode hfile
    refine ⟨_, hdecode, ⟨set', ?_, Attribute.aligned_ofCells _ _ _ _⟩, hview, ?_⟩
    · rw [reimported, Attribute.vertexSet_ofCells, hset']
    · intro hsame _
      have heq := hsame _ (Entity.mem_references_column.2 rfl)
      rw [hset', hset, Except.ok.injEq] at heq
      rw [heq, reimported_self hnodup haligned]
      have hfits : (Entity.column type cells).Fits sets := ⟨set, hset, haligned⟩
      exact Entity.settled_sameContent hfits

end Unordered

end GraphVault
