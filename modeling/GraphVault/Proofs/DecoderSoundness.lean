import GraphVault.Proofs.ExternalIds
import GraphVault.Proofs.Rows

/-!
# What is read is what the rows say

Manifests and row files may hold anything. But whatever entity either layout reads from them, it
is the one that the rows describe: it fits the vertex sets that the manifest refers to, it has one
vertex, edge or defined position for every row, and written again it gives the same rows, from which
the same entity is read (`Layout.decode_faithful`).
-/

namespace GraphVault

/-- How an entity is laid out in rows. -/
inductive Layout where
  | ordered
  | unordered
  deriving DecidableEq

namespace Layout

variable {m : Type → Type} [Monad m] [MonadExceptOf Failure m]

/-- Writes an entity. -/
def encode : Layout → Guid → Entity → (Guid → m VertexSet) → m Stored
  | ordered => Ordered.encode
  | unordered => Unordered.encode

/-- Reads the entity that a manifest describes. -/
def decode : Layout → Stored → (Guid → m VertexSet) → m Entity
  | ordered => Ordered.decode
  | unordered => Unordered.decode

end Layout

/-- The vertex sets that an entity refers to, one for each column of positions. -/
def Entity.sets : Entity → List Guid
  | vertexSet _ => []
  | edgeBundle bundle => [bundle.sourceSet, bundle.destinationSet]
  | column _ cells => [cells.vertexSet]

/-- The rows of a stored entity. -/
def Stored.readRows (stored : Stored) : Except Failure (List stored.manifest.kind.Row) :=
  RowFile.decode stored.manifest.kind.rowCodec stored.manifest.guid stored.manifest.rowCount
    stored.rows

/-- An entity that is read from stored rows is what they say: `leading` are the references that the
manifest begins with and that the entity needs. -/
structure Layout.Faithful (layout : Layout) (stored : Stored)
    (resolve : Guid → Except Failure VertexSet) (entity : Entity) (leading : List Reference) :
    Prop where
  kind : entity.kind = stored.manifest.kind
  leads : leading <+: stored.manifest.references
  sets : leading.map (·.guid) = entity.sets
  resolved : ∀ r ∈ leading, ∃ set, resolve r.guid = .ok set ∧ set.size = r.size.toNat
  rowCount : entity.rowCount = stored.manifest.rowCount.toNat
  /-- Only an id that an ordered vertex set repeats can be refused afterwards. -/
  valid : entity.validate stored.manifest.guid resolve = .ok () ∨
    layout = .ordered ∧ entity.kind = .vertexSet ∧
      ∃ id, entity.validate stored.manifest.guid resolve
        = .error (.duplicateExternalId stored.manifest.guid id)
  increasing : layout = .unordered → ∀ set, entity = .vertexSet set → set.mapping.Pairwise (· < ·)
  /-- Written again, the entity gives the rows that it was read from, and is read from them. -/
  again : ∃ written rows, layout.encode stored.manifest.guid entity resolve = .ok written ∧
    written.manifest = { stored.manifest with references := leading } ∧
    layout.decode written resolve = .ok entity ∧ stored.readRows = .ok rows ∧
    ∃ rows', RowFile.decode stored.manifest.kind.rowCodec stored.manifest.guid
        stored.manifest.rowCount written.rows = .ok rows' ∧
      rows'.Perm rows ∧ (layout = .ordered → rows' = rows)

/-! ### References -/

theorem Manifest.reference_eq_ok_iff {manifest : Manifest} {index : Nat} {r : Reference} :
    manifest.reference index = .ok r ↔ manifest.references[index]? = some r := by
  unfold reference
  split
  · rename_i h
    simp [h]
  · rename_i h
    simp [h]

theorem Reference.resolve_eq_ok_iff {r : Reference} {guid : Guid} {set : VertexSet}
    {resolve : Guid → Except Failure VertexSet} :
    r.resolve guid resolve = .ok set ↔ resolve r.guid = .ok set ∧ set.size = r.size.toNat := by
  simp only [Reference.resolve, bind_eq_ok_iff]
  constructor
  · rintro ⟨set', hset, h⟩
    split at h
    · cases h
    · rename_i hsize
      cases h
      exact ⟨hset, Decidable.not_not.1 hsize⟩
  · rintro ⟨hset, hsize⟩
    refine ⟨set, hset, ?_⟩
    rw [if_neg (not_not_intro hsize)]
    rfl

theorem Reference.eq_of_resolved {r : Reference} {set : VertexSet} (h : set.size = r.size.toNat) :
    (⟨r.guid, UInt64.ofNat set.size⟩ : Reference) = r := by
  rw [h, UInt64.ofNat_toNat]

theorem Reference.size_le {r : Reference} {set : VertexSet} (h : set.size = r.size.toNat) :
    set.size ≤ 2 ^ 64 := by
  rw [h]
  exact Nat.le_of_lt r.size.toNat_lt

/-! ### From rows to entities -/

section Back

variable {α β : Type} {f : α → β} {back : β → α} {rows : List α} {items : List β}

/-- Items that come from rows, in whatever order, go back to the rows. -/
private theorem perm_of_back (hperm : items.Perm (rows.map f))
    (hback : ∀ row ∈ rows, back (f row) = row) : (items.map back).Perm rows := by
  refine (hperm.map _).trans (.of_eq ?_)
  rw [List.map_map]
  exact (List.map_congr_left hback).trans (List.map_id rows)

private theorem map_of_back (hperm : items.Perm (rows.map f))
    (hback : ∀ row ∈ rows, back (f row) = row) : (items.map back).map f = items := by
  rw [List.map_map]
  refine (List.map_congr_left fun item hitem => ?_).trans (List.map_id items)
  obtain ⟨row, hrow, rfl⟩ := List.mem_map.1 (hperm.mem_iff.1 hitem)
  exact congrArg f (hback row hrow)

end Back

namespace EdgeBundle

variable (sourceSet destinationSet : Guid) (es : List Edge)

@[simp] theorem sourceSet_ofEdges : (ofEdges sourceSet destinationSet es).sourceSet = sourceSet :=
  rfl

@[simp] theorem destinationSet_ofEdges :
    (ofEdges sourceSet destinationSet es).destinationSet = destinationSet := rfl

@[simp] theorem size_ofEdges : (ofEdges sourceSet destinationSet es).size = es.length :=
  List.length_map _

end EdgeBundle

theorem EdgeBundle.aligned_ofEdges {source destination : Nat} {es : List Edge}
    (h : ∀ e ∈ es, e.source.toNat < source ∧ e.destination.toNat < destination)
    (sourceSet destinationSet : Guid) :
    (ofEdges sourceSet destinationSet es).Aligned source destination := by
  constructor
  · simp [ofEdges, EdgeBundle.size]
  · simp [ofEdges, EdgeBundle.size]
  · intro p hp
    obtain ⟨e, he, rfl⟩ := List.mem_map.1 hp
    exact (h e he).1
  · intro p hp
    obtain ⟨e, he, rfl⟩ := List.mem_map.1 hp
    exact (h e he).2

namespace Ordered

variable {guid : Guid}

/-- The cell of a row. -/
def cellOf {α : Type} (row : Int64 × α) : Nat × α := (row.1.toInt.toNat, row.2)

theorem ofNat_toNat_toInt {stored : Int64} (h : 0 ≤ stored.toInt) :
    Int64.ofNat stored.toInt.toNat = stored := by
  have hlt := stored.toInt_lt
  apply Int64.toInt_inj.1
  rw [Int64.toInt_ofNat_of_lt (by omega)]
  omega

theorem cellRow_cellOf {α : Type} {row : Int64 × α} (h : 0 ≤ row.1.toInt) :
    cellRow (cellOf row) = row := by
  rw [cellOf, cellRow, ofNat_toNat_toInt h]

theorem cellOf_cellRow {α : Type} {cell : Nat × α} (h : cell.1 < 2 ^ 63) :
    cellOf (cellRow cell) = cell := by
  rw [cellOf, cellRow, Int64.toInt_ofNat_of_lt h, Int.toNat_natCast]

theorem position_eq_ok_iff {field : String} {index size p : Nat} {stored : Int64} :
    position guid field index stored size = .ok p ↔
      (0 ≤ stored.toInt ∧ stored.toInt < size) ∧ stored.toInt.toNat = p := by
  unfold position
  split
  · rename_i hrange
    simp [hrange]
  · rename_i hrange
    simp [hrange]

private theorem position_eq_ok {field : String} {index size p : Nat} {stored : Int64}
    (h : position guid field index stored size = .ok p) :
    p < size ∧ Int64.ofNat p = stored := by
  obtain ⟨hrange, rfl⟩ := position_eq_ok_iff.1 h
  exact ⟨by omega, ofNat_toNat_toInt hrange.1⟩

/-- The edges that are read are those of the rows, with ends inside the vertex sets. -/
theorem of_edges {source destination index : Nat} {rows : List EdgeRow} {es : List Edge}
    (h : edges guid source destination index rows = .ok es) :
    es.map edgeRow = rows ∧
      ∀ e ∈ es, e.source.toNat < source ∧ e.destination.toNat < destination := by
  induction rows generalizing index es with
  | nil =>
    cases h
    exact ⟨rfl, nofun⟩
  | cons row rows ih =>
    simp only [edges, bind_eq_ok_iff] at h
    obtain ⟨s, hs, d, hd, es', hrows, h⟩ := h
    cases h
    obtain ⟨hmap, hlt⟩ := ih hrows
    obtain ⟨hs, hsource⟩ := position_eq_ok hs
    obtain ⟨hd, hdestination⟩ := position_eq_ok hd
    constructor
    · rw [List.map_cons, hmap, edgeRow, UInt64.toInt64_ofNat', UInt64.toInt64_ofNat', hsource,
        hdestination]
    · refine List.forall_mem_cons.2 ⟨⟨?_, ?_⟩, hlt⟩
      · exact Nat.lt_of_le_of_lt (Nat.mod_le _ _) hs
      · exact Nat.lt_of_le_of_lt (Nat.mod_le _ _) hd

theorem checkOrder_eq_ok_iff {index : Nat} {previous : Option Int64} {id : Int64} :
    checkOrder guid index previous id = .ok () ↔ ∀ p ∈ previous, p < id := by
  cases previous with
  | none => simp [checkOrder]
  | some p =>
    rw [checkOrder]
    split
    · rename_i heq
      simp [heq]
    · rename_i hne
      split
      · rename_i hlt
        simp [Int64.lt_asymm hlt]
      · rename_i hnlt
        simpa using Int64.lt_of_le_of_ne (Int64.not_lt.1 hnlt) (Ne.symm hne)

private theorem pairwise_lt_behind {previous : Option Int64} {id : Int64} {ids : List Int64} :
    (previous.toList ++ id :: ids).Pairwise (· < ·) ↔
      (∀ p ∈ previous, p < id) ∧ (id :: ids).Pairwise (· < ·) := by
  simp only [← List.isChain_iff_pairwise]
  cases previous <;> simp [List.isChain_cons_cons]

/-- Rows are placed if their ids are positions, each greater than the one before. -/
theorem place_eq_ok_iff {α : Type} {size index : Nat} {previous : Option Int64}
    {column column' : Attribute α} {rows : List (Int64 × α)} :
    place guid size index previous column rows = .ok column' ↔
      (previous.toList ++ rows.map (·.1)).Pairwise (· < ·) ∧
        (∀ row ∈ rows, 0 ≤ row.1.toInt ∧ row.1.toInt < size) ∧
          column' = column.fill (rows.map cellOf) := by
  induction rows generalizing index previous column with
  | nil => cases previous <;> simp [place, eq_comm]
  | cons row rows ih =>
    obtain ⟨id, value⟩ := row
    simp only [place, bind_eq_ok_iff, position_eq_ok_iff, ih, List.map_cons, pairwise_lt_behind,
      List.forall_mem_cons]
    constructor
    · rintro ⟨⟨⟩, horder, p, ⟨hrange, rfl⟩, hsorted, hrows, rfl⟩
      exact ⟨⟨checkOrder_eq_ok_iff.1 horder, hsorted⟩, ⟨hrange, hrows⟩, rfl⟩
    · rintro ⟨⟨horder, hsorted⟩, ⟨hrange, hrows⟩, rfl⟩
      exact ⟨(), checkOrder_eq_ok_iff.2 horder, _, ⟨hrange, rfl⟩, hsorted, hrows, rfl⟩

/-- The cells that are read are those of the rows, by increasing position. -/
theorem of_place {α : Type} {size index : Nat} {column column' : Attribute α}
    {rows : List (Int64 × α)} (h : place guid size index none column rows = .ok column') :
    column' = column.fill (rows.map cellOf) ∧ (rows.map cellOf).map cellRow = rows ∧
      (∀ cell ∈ rows.map cellOf, cell.1 < size) ∧
      (rows.map cellOf).Pairwise fun a b => a.1 < b.1 := by
  obtain ⟨hsorted, hrange, rfl⟩ := place_eq_ok_iff.1 h
  refine ⟨rfl, ?_, ?_, ?_⟩
  · rw [List.map_map]
    exact (List.map_congr_left fun row hrow => cellRow_cellOf (hrange row hrow).1).trans
      (List.map_id rows)
  · intro cell hcell
    obtain ⟨row, hrow, rfl⟩ := List.mem_map.1 hcell
    have := hrange row hrow
    simp only [cellOf]
    omega
  · refine List.pairwise_map.2 ((List.pairwise_map.1 hsorted).imp_of_mem ?_)
    intro row row' hrow hrow' hlt
    have := Int64.lt_iff_toInt_lt.1 hlt
    have := hrange row hrow
    simp only [cellOf]
    omega

/-! ### What reading and writing take -/

variable {resolve : Guid → Except Failure VertexSet} {type : ColumnType} {count : UInt64}
  {references : List Reference} {bytes : Bytes} {entity : Entity}

theorem decode_edgeBundle_iff :
    decode ⟨⟨guid, .edgeBundle, count, references⟩, bytes⟩ resolve = .ok entity ↔
      ∃ s, references[0]? = some s ∧ ∃ d, references[1]? = some d ∧
        ∃ source, (resolve s.guid = .ok source ∧ source.size = s.size.toNat) ∧
        ∃ destination, (resolve d.guid = .ok destination ∧ destination.size = d.size.toNat) ∧
        ∃ rows, RowFile.decode RowFile.edgeRow guid count bytes = .ok rows ∧
        ∃ es, edges guid source.size destination.size 0 rows = .ok es ∧
          entity = .edgeBundle (.ofEdges s.guid d.guid es) := by
  simp only [decode, ofExcept_eq, bind_eq_ok_iff, Manifest.reference_eq_ok_iff,
    Reference.resolve_eq_ok_iff, pure, Except.pure, Except.ok.injEq, eq_comm (a := entity)]

theorem decode_column_iff :
    decode ⟨⟨guid, .column type, count, references⟩, bytes⟩ resolve = .ok entity ↔
      ∃ r, references[0]? = some r ∧
        ∃ set, (resolve r.guid = .ok set ∧ set.size = r.size.toNat) ∧
        ∃ rows, RowFile.decode (RowFile.cellRow type) guid count bytes = .ok rows ∧
        ∃ cells, place guid set.size 0 none
            (.blank type.placeholder set.size r.guid) rows = .ok cells ∧
          entity = .column type cells := by
  simp only [decode, ofExcept_eq, bind_eq_ok_iff, Manifest.reference_eq_ok_iff,
    Reference.resolve_eq_ok_iff, pure, Except.pure, Except.ok.injEq, eq_comm (a := entity)]

/-- Decoding depends only on what is found under the references. -/
theorem decode_congr {stored : Stored} {resolve' : Guid → Except Failure VertexSet}
    (h : decode stored resolve = .ok entity)
    (heq : ∀ r ∈ stored.manifest.references, resolve' r.guid = resolve r.guid) :
    decode stored resolve' = .ok entity := by
  obtain ⟨⟨guid, kind, count, references⟩, bytes⟩ := stored
  cases kind with
  | vertexSet => exact h
  | edgeBundle =>
    rw [decode_edgeBundle_iff] at h ⊢
    obtain ⟨s, hs, d, hd, source, hsource, destination, hdestination, hrows⟩ := h
    rw [← heq s (List.mem_of_getElem? hs)] at hsource
    rw [← heq d (List.mem_of_getElem? hd)] at hdestination
    exact ⟨s, hs, d, hd, source, hsource, destination, hdestination, hrows⟩
  | column type =>
    rw [decode_column_iff] at h ⊢
    obtain ⟨r, hr, set, hset, hrows⟩ := h
    rw [← heq r (List.mem_of_getElem? hr)] at hset
    exact ⟨r, hr, set, hset, hrows⟩

end Ordered

namespace Unordered

variable {guid : Guid} {resolve : Guid → Except Failure VertexSet} {type : ColumnType}
  {count : UInt64} {references : List Reference} {bytes : Bytes} {entity : Entity}

theorem decode_edgeBundle_iff :
    decode ⟨⟨guid, .edgeBundle, count, references⟩, bytes⟩ resolve = .ok entity ↔
      ∃ s, references[0]? = some s ∧ ∃ d, references[1]? = some d ∧
        ∃ source, (resolve s.guid = .ok source ∧ source.size = s.size.toNat) ∧
        ∃ destination, (resolve d.guid = .ok destination ∧ destination.size = d.size.toNat) ∧
        ∃ rows, RowFile.decode RowFile.edgeRow guid count bytes = .ok rows ∧
        ∃ es, edges guid source destination 0 rows = .ok es ∧
          entity = .edgeBundle (.ofEdges s.guid d.guid (byId es)) := by
  simp only [decode, ofExcept_eq, bind_eq_ok_iff, Manifest.reference_eq_ok_iff,
    Reference.resolve_eq_ok_iff, byId, pure, Except.pure, Except.ok.injEq,
    eq_comm (a := entity)]

theorem decode_column_iff :
    decode ⟨⟨guid, .column type, count, references⟩, bytes⟩ resolve = .ok entity ↔
      ∃ r, references[0]? = some r ∧
        ∃ set, (resolve r.guid = .ok set ∧ set.size = r.size.toNat) ∧
        ∃ rows, RowFile.decode (RowFile.cellRow type) guid count bytes = .ok rows ∧
        ∃ cells, place guid set 0
            (.blank type.placeholder set.size r.guid) rows = .ok cells ∧
          entity = .column type cells := by
  simp only [decode, ofExcept_eq, bind_eq_ok_iff, Manifest.reference_eq_ok_iff,
    Reference.resolve_eq_ok_iff, pure, Except.pure, Except.ok.injEq, eq_comm (a := entity)]

variable (guid)

theorem encode_edgeBundle {bundle : EdgeBundle} {source destination : VertexSet}
    (hs : resolve bundle.sourceSet = .ok source)
    (hd : resolve bundle.destinationSet = .ok destination)
    (hlt : ∀ e ∈ bundle.edges,
      e.source.toNat < source.size ∧ e.destination.toNat < destination.size) :
    encode guid (.edgeBundle bundle) resolve = .ok
      ⟨⟨guid, .edgeBundle, UInt64.ofNat (bundle.edges.map (rowOf source destination)).length,
        [⟨bundle.sourceSet, UInt64.ofNat source.size⟩,
          ⟨bundle.destinationSet, UInt64.ofNat destination.size⟩]⟩,
        RowFile.encode RowFile.edgeRow (bundle.edges.map (rowOf source destination))⟩ := by
  simp only [encode, hs, hd, mapM_edgeRow hlt, ofExcept_eq, bind, Except.bind, pure, Except.pure,
    Entity.kind]

theorem encode_column {cells : Attribute type.Cell} {set : VertexSet}
    (hset : resolve cells.vertexSet = .ok set) (hlt : ∀ cell ∈ cells.cells, cell.1 < set.size) :
    encode guid (.column type cells) resolve = .ok
      ⟨⟨guid, .column type, UInt64.ofNat (cells.cells.map (cellRowOf set)).length,
        [⟨cells.vertexSet, UInt64.ofNat set.size⟩]⟩,
        RowFile.encode (RowFile.cellRow type) (cells.cells.map (cellRowOf set))⟩ := by
  simp only [encode, hset, mapM_cellRow hlt, ofExcept_eq, bind, Except.bind, pure, Except.pure,
    Entity.kind]

end Unordered

namespace Layout

variable {layout : Layout} {guid : Guid} {resolve : Guid → Except Failure VertexSet}

/-- Rows of a kind come to an entity that needs the references `leading`. -/
private structure Recovers (layout : Layout) (guid : Guid) (kind : Kind)
    (resolve : Guid → Except Failure VertexSet) (leading : List Reference) (rows : List kind.Row)
    (entity : Entity) : Prop where
  kind_eq : entity.kind = kind
  sets : leading.map (·.guid) = entity.sets
  resolved : ∀ r ∈ leading, ∃ set, resolve r.guid = .ok set ∧ set.size = r.size.toNat
  rowCount : entity.rowCount = rows.length
  valid : entity.Fits resolve ∨ layout = .ordered ∧ ∃ set, entity = .vertexSet set
  increasing : layout = .unordered → ∀ set, entity = .vertexSet set → set.mapping.Pairwise (· < ·)
  again : ∃ rows', rows'.Perm rows ∧ (layout = .ordered → rows' = rows) ∧
    layout.encode guid entity resolve = .ok
      ⟨⟨guid, kind, UInt64.ofNat rows'.length, leading⟩, RowFile.encode kind.rowCodec rows'⟩ ∧
    ∀ count bytes, RowFile.decode kind.rowCodec guid count bytes = .ok rows' →
      layout.decode ⟨⟨guid, kind, count, leading⟩, bytes⟩ resolve = .ok entity

section VertexSets

variable {count : UInt64} {references : List Reference} {bytes : Bytes} {entity : Entity}

private theorem recovers_ordered_vertexSet
    (h : Ordered.decode ⟨⟨guid, .vertexSet, count, references⟩, bytes⟩ resolve = .ok entity) :
    ∃ rows : List Int64, RowFile.decode RowFile.vertexRow guid count bytes = .ok rows ∧
      Recovers ordered guid .vertexSet resolve [] rows entity := by
  simp only [Ordered.decode, ofExcept_eq, bind_eq_ok_iff] at h
  obtain ⟨mapping, hrows, h⟩ := h
  cases h
  refine ⟨mapping, hrows, ?_⟩
  constructor
  case kind_eq => rfl
  case sets => rfl
  case resolved => exact nofun
  case rowCount => rfl
  case valid => exact .inr ⟨rfl, _, rfl⟩
  case increasing => exact nofun
  case again =>
    refine ⟨mapping, .refl _, fun _ => rfl, rfl, fun count bytes hrows => ?_⟩
    have hrows' : RowFile.decode RowFile.vertexRow guid count bytes = .ok mapping := hrows
    simp only [decode, Ordered.decode, ofExcept_eq, hrows']
    rfl

private theorem recovers_unordered_vertexSet
    (h : Unordered.decode ⟨⟨guid, .vertexSet, count, references⟩, bytes⟩ resolve = .ok entity) :
    ∃ rows : List Int64, RowFile.decode RowFile.vertexRow guid count bytes = .ok rows ∧
      Recovers unordered guid .vertexSet resolve [] rows entity := by
  simp only [Unordered.decode, ofExcept_eq, bind_eq_ok_iff, Unordered.sorted_eq_ok_iff] at h
  obtain ⟨ids, hrows, set, ⟨hnodup, rfl⟩, h⟩ := h
  cases h
  have hperm := Unordered.ascending_perm ids
  refine ⟨ids, hrows, ?_⟩
  constructor
  case kind_eq => rfl
  case sets => rfl
  case resolved => exact fun _ hr => absurd hr List.not_mem_nil
  case rowCount => exact hperm.length_eq
  case valid => exact .inl (hperm.nodup_iff.2 hnodup)
  case increasing =>
    rintro - set ⟨⟩
    exact Unordered.pairwise_lt_ascending hnodup
  case again =>
    refine ⟨Unordered.ascending ids, hperm, by simp, rfl, fun count bytes hrows => ?_⟩
    have hrows' : RowFile.decode RowFile.vertexRow guid count bytes
        = .ok (Unordered.ascending ids) := hrows
    have hsorted : Unordered.sorted guid (Unordered.ascending ids)
        = .ok ⟨Unordered.ascending ids⟩ := by
      rw [Unordered.sorted_eq_ok_iff,
        Unordered.ascending_of_pairwise (Unordered.pairwise_ascending ids)]
      exact ⟨hperm.nodup_iff.2 hnodup, rfl⟩
    simp only [decode, Unordered.decode, ofExcept_eq, hrows', hsorted, bind, Except.bind]
    rfl

end VertexSets

section EdgeBundles

variable {s d : Reference} {source destination : VertexSet} {es : List Edge}

/-- What edge bundles have in common in both layouts. -/
private theorem recovers_ofEdges {rows : List EdgeRow} (hs : resolve s.guid = .ok source)
    (hsource : source.size = s.size.toNat) (hd : resolve d.guid = .ok destination)
    (hdestination : destination.size = d.size.toNat)
    (hlt : ∀ e ∈ es, e.source.toNat < source.size ∧ e.destination.toNat < destination.size)
    (hlength : es.length = rows.length)
    (hagain : ∃ rows' : List EdgeRow, rows'.Perm rows ∧ (layout = .ordered → rows' = rows) ∧
      layout.encode guid (.edgeBundle (.ofEdges s.guid d.guid es)) resolve = .ok
        ⟨⟨guid, .edgeBundle, UInt64.ofNat rows'.length, [s, d]⟩,
          RowFile.encode RowFile.edgeRow rows'⟩ ∧
      ∀ count bytes, RowFile.decode RowFile.edgeRow guid count bytes = .ok rows' →
        layout.decode ⟨⟨guid, .edgeBundle, count, [s, d]⟩, bytes⟩ resolve
          = .ok (.edgeBundle (.ofEdges s.guid d.guid es))) :
    Recovers layout guid .edgeBundle resolve [s, d] rows
      (.edgeBundle (.ofEdges s.guid d.guid es)) where
  kind_eq := rfl
  sets := rfl
  resolved r hr := by
    cases List.mem_cons.1 hr with
    | inl heq => exact ⟨source, heq ▸ hs, heq ▸ hsource⟩
    | inr hr =>
      rw [List.mem_singleton.1 hr]
      exact ⟨destination, hd, hdestination⟩
  rowCount := (EdgeBundle.size_ofEdges _ _ _).trans hlength
  valid := .inl ⟨source, destination, hs, hd, EdgeBundle.aligned_ofEdges hlt _ _⟩
  increasing := nofun
  again := hagain

variable {count : UInt64} {references : List Reference} {bytes : Bytes} {entity : Entity}

private theorem leads_two (hs : references[0]? = some s) (hd : references[1]? = some d) :
    [s, d] <+: references := by
  match references, hs, hd with
  | _ :: _ :: rest, rfl, rfl => exact List.prefix_append [s, d] rest

private theorem recovers_ordered_edgeBundle
    (h : Ordered.decode ⟨⟨guid, .edgeBundle, count, references⟩, bytes⟩ resolve = .ok entity) :
    ∃ rows leading, RowFile.decode RowFile.edgeRow guid count bytes = .ok rows ∧
      leading <+: references ∧ Recovers ordered guid .edgeBundle resolve leading rows entity := by
  obtain ⟨s, hs, d, hd, source, ⟨hsource, hsourceSize⟩, destination,
    ⟨hdestination, hdestinationSize⟩, rows, hrows, es, hes, rfl⟩ :=
      Ordered.decode_edgeBundle_iff.1 h
  obtain ⟨hmap, hlt⟩ := Ordered.of_edges hes
  have hlength : es.length = rows.length := by rw [← hmap, List.length_map]
  refine ⟨rows, [s, d], hrows, leads_two hs hd, recovers_ofEdges hsource hsourceSize hdestination
    hdestinationSize hlt hlength ?_⟩
  refine ⟨rows, .refl _, fun _ => rfl, ?_, fun count bytes hrows => ?_⟩
  · simp only [encode, Ordered.encode, Ordered.reference, EdgeBundle.sourceSet_ofEdges,
      EdgeBundle.destinationSet_ofEdges, EdgeBundle.size_ofEdges, EdgeBundle.edges_ofEdges, hsource,
      hdestination, hmap, ← hlength, bind, Except.bind, pure, Except.pure,
      Reference.eq_of_resolved hsourceSize, Reference.eq_of_resolved hdestinationSize]
    rfl
  · exact Ordered.decode_edgeBundle_iff.2 ⟨s, rfl, d, rfl, source, ⟨hsource, hsourceSize⟩,
      destination, ⟨hdestination, hdestinationSize⟩, rows, hrows, es, hes, rfl⟩

private theorem recovers_unordered_edgeBundle
    (h : Unordered.decode ⟨⟨guid, .edgeBundle, count, references⟩, bytes⟩ resolve = .ok entity) :
    ∃ rows leading, RowFile.decode RowFile.edgeRow guid count bytes = .ok rows ∧
      leading <+: references ∧ Recovers unordered guid .edgeBundle resolve leading rows entity := by
  obtain ⟨s, hs, d, hd, source, ⟨hsource, hsourceSize⟩, destination,
    ⟨hdestination, hdestinationSize⟩, rows, hrows, es, hes, rfl⟩ :=
      Unordered.decode_edgeBundle_iff.1 h
  obtain ⟨hknown, rfl⟩ := Unordered.edges_eq_ok_iff.1 hes
  have hperm := Unordered.byId_perm (rows.map (Unordered.edgeOf source destination))
  have hback (row : EdgeRow) (hrow : row ∈ rows) :
      Unordered.rowOf source destination (Unordered.edgeOf source destination row) = row :=
    Unordered.rowOf_edgeOf (Reference.size_le hsourceSize) (Reference.size_le hdestinationSize)
      (hknown row hrow).1 (hknown row hrow).2
  have hsorted := Unordered.byId_of_pairwise
    (Unordered.pairwise_byId (rows.map (Unordered.edgeOf source destination)))
  generalize Unordered.byId (rows.map (Unordered.edgeOf source destination)) = es at hperm hsorted ⊢
  have hlt : ∀ e ∈ es, e.source.toNat < source.size ∧ e.destination.toNat < destination.size := by
    intro e he
    obtain ⟨row, hrow, rfl⟩ := List.mem_map.1 (hperm.mem_iff.1 he)
    exact Unordered.edgeOf_lt (hknown row hrow).1 (hknown row hrow).2
  have hrows' := perm_of_back hperm hback
  have hedges : Unordered.edges guid source destination 0
      (es.map (Unordered.rowOf source destination)) = .ok es :=
    Unordered.edges_eq_ok_iff.2
      ⟨fun row hrow => hknown row (hrows'.mem_iff.1 hrow), (map_of_back hperm hback).symm⟩
  have hlength : es.length = rows.length := by rw [hperm.length_eq, List.length_map]
  refine ⟨rows, [s, d], hrows, leads_two hs hd, recovers_ofEdges hsource hsourceSize hdestination
    hdestinationSize hlt hlength ?_⟩
  refine ⟨_, hrows', nofun, ?_, fun count bytes hrows => ?_⟩
  · rw [← EdgeBundle.edges_ofEdges s.guid d.guid es] at hlt
    have hencode := Unordered.encode_edgeBundle guid hsource hdestination hlt
    rw [EdgeBundle.edges_ofEdges] at hencode
    simp only [EdgeBundle.sourceSet_ofEdges, EdgeBundle.destinationSet_ofEdges,
      Reference.eq_of_resolved hsourceSize, Reference.eq_of_resolved hdestinationSize] at hencode
    exact hencode
  · refine Unordered.decode_edgeBundle_iff.2 ⟨s, rfl, d, rfl, source, ⟨hsource, hsourceSize⟩,
      destination, ⟨hdestination, hdestinationSize⟩, _, hrows, es, hedges, ?_⟩
    rw [hsorted]

end EdgeBundles

section Columns

variable {type : ColumnType} {r : Reference} {set : VertexSet} {cells : List (Nat × type.Cell)}

/-- The column of given cells over the set of a reference. -/
private def column (type : ColumnType) (r : Reference) (set : VertexSet)
    (cells : List (Nat × type.Cell)) : Entity :=
  .column type (.ofCells type.placeholder set.size r.guid cells)

/-- What columns have in common in both layouts. -/
private theorem recovers_ofCells {rows : List (Int64 × type.Cell)}
    (hset : resolve r.guid = .ok set) (hsize : set.size = r.size.toNat)
    (hlt : ∀ cell ∈ cells, cell.1 < set.size) (hnodup : (cells.map (·.1)).Nodup)
    (hlength : cells.length = rows.length)
    (hagain : ∃ rows' : List (Int64 × type.Cell), rows'.Perm rows ∧
      (layout = .ordered → rows' = rows) ∧
      layout.encode guid (column type r set cells) resolve = .ok
        ⟨⟨guid, .column type, UInt64.ofNat rows'.length, [r]⟩,
          RowFile.encode (RowFile.cellRow type) rows'⟩ ∧
      ∀ count bytes, RowFile.decode (RowFile.cellRow type) guid count bytes = .ok rows' →
        layout.decode ⟨⟨guid, .column type, count, [r]⟩, bytes⟩ resolve
          = .ok (column type r set cells)) :
    Recovers layout guid (.column type) resolve [r] rows (column type r set cells) where
  kind_eq := rfl
  sets := by simp [column, Entity.sets]
  resolved r' hr' := by
    rw [List.mem_singleton.1 hr']
    exact ⟨set, hset, hsize⟩
  rowCount := by
    have haligned := Attribute.aligned_ofCells type.placeholder set.size r.guid cells
    have hperm := Attribute.cells_ofCells_perm type.placeholder set.size r.guid hlt hnodup
    exact (Attribute.length_cells haligned).symm.trans (hperm.length_eq.trans hlength)
  valid := by
    refine .inl ⟨set, ?_, Attribute.aligned_ofCells _ _ _ cells⟩
    rw [Attribute.vertexSet_ofCells]
    exact hset
  increasing := nofun
  again := hagain

variable {count : UInt64} {references : List Reference} {bytes : Bytes} {entity : Entity}

private theorem leads_one (hr : references[0]? = some r) : [r] <+: references := by
  match references, hr with
  | _ :: rest, rfl => exact List.prefix_append [r] rest

private theorem recovers_ordered_column
    (h : Ordered.decode ⟨⟨guid, .column type, count, references⟩, bytes⟩ resolve = .ok entity) :
    ∃ rows leading, RowFile.decode (RowFile.cellRow type) guid count bytes = .ok rows ∧
      leading <+: references ∧
      Recovers ordered guid (.column type) resolve leading rows entity := by
  obtain ⟨r, hr, set, ⟨hset, hsize⟩, rows, hrows, column', hplace, rfl⟩ :=
    Ordered.decode_column_iff.1 h
  obtain ⟨rfl, hmap, hlt, hsorted⟩ := Ordered.of_place hplace
  generalize rows.map Ordered.cellOf = cells at hplace hmap hlt hsorted ⊢
  have hnodup : (cells.map (·.1)).Nodup :=
    List.pairwise_map.2 (hsorted.imp fun hlt => Nat.ne_of_lt hlt)
  have hlength : cells.length = rows.length := by rw [← hmap, List.length_map]
  refine ⟨rows, [r], hrows, leads_one hr, recovers_ofCells hset hsize hlt hnodup hlength ?_⟩
  refine ⟨rows, .refl _, fun _ => rfl, ?_, fun count bytes hrows => ?_⟩
  · have hperm := Attribute.cells_ofCells_perm type.placeholder set.size r.guid hlt hnodup
    have haligned := Attribute.aligned_ofCells type.placeholder set.size r.guid cells
    simp only [encode, Ordered.encode, column, pure, Except.pure, ← Attribute.length_cells haligned,
      Attribute.eq_cells_of_perm hperm hsorted, hmap, hlength, Attribute.vertexSet_ofCells]
    have hcells : (Attribute.ofCells type.placeholder set.size r.guid cells).size = set.size :=
      haligned.length_values
    rw [hcells, Reference.eq_of_resolved hsize]
    rfl
  · exact Ordered.decode_column_iff.2 ⟨r, rfl, set, ⟨hset, hsize⟩, rows, hrows, _, hplace, rfl⟩

private theorem recovers_unordered_column
    (h : Unordered.decode ⟨⟨guid, .column type, count, references⟩, bytes⟩ resolve = .ok entity) :
    ∃ rows leading, RowFile.decode (RowFile.cellRow type) guid count bytes = .ok rows ∧
      leading <+: references ∧
      Recovers unordered guid (.column type) resolve leading rows entity := by
  obtain ⟨r, hr, set, ⟨hset, hsize⟩, rows, hrows, column', hplace, rfl⟩ :=
    Unordered.decode_column_iff.1 h
  obtain ⟨hknown, hnodup, rfl⟩ :=
    (Unordered.place_eq_ok_iff (Attribute.aligned_blank _ _ _)).1 hplace
  rw [Attribute.cells_blank, List.nil_append] at hnodup
  have hlt : ∀ cell ∈ rows.map (Unordered.cellOf set), cell.1 < set.size := by
    intro cell hcell
    obtain ⟨row, hrow, rfl⟩ := List.mem_map.1 hcell
    exact VertexSet.placeOf_lt (hknown row hrow)
  have hback (row : Int64 × type.Cell) (hrow : row ∈ rows) :
      Unordered.cellRowOf set (Unordered.cellOf set row) = row :=
    Unordered.cellRowOf_cellOf (hknown row hrow)
  have hperm := Attribute.cells_ofCells_perm type.placeholder set.size r.guid hlt hnodup
  have haligned := Attribute.aligned_ofCells type.placeholder set.size r.guid
    (rows.map (Unordered.cellOf set))
  have hagain := Attribute.ofCells_cells type.placeholder haligned
  rw [Attribute.vertexSet_ofCells, Attribute.settled_ofCells] at hagain
  have hpositions := Attribute.nodup_positions
    (Attribute.ofCells type.placeholder set.size r.guid (rows.map (Unordered.cellOf set)))
  have hlength : (rows.map (Unordered.cellOf set)).length = rows.length := List.length_map _
  refine ⟨rows, [r], hrows, leads_one hr, recovers_ofCells hset hsize hlt hnodup hlength ?_⟩
  unfold column
  generalize hlisted : (Attribute.ofCells type.placeholder set.size r.guid
    (rows.map (Unordered.cellOf set))).cells = listed at hperm hagain hpositions
  have hrows' := perm_of_back hperm hback
  have hcells := map_of_back hperm hback
  refine ⟨_, hrows', nofun, ?_, fun count bytes hrows => ?_⟩
  · have hlt' : ∀ cell ∈ listed, cell.1 < set.size := fun cell hcell =>
      hlt cell (hperm.mem_iff.1 hcell)
    have hset' : resolve (Attribute.ofCells type.placeholder set.size r.guid
        (rows.map (Unordered.cellOf set))).vertexSet = .ok set := by
      rw [Attribute.vertexSet_ofCells, hset]
    rw [← hlisted] at hlt'
    have hencode := Unordered.encode_column guid hset' hlt'
    rw [hlisted, Attribute.vertexSet_ofCells, Reference.eq_of_resolved hsize] at hencode
    exact hencode
  · refine Unordered.decode_column_iff.2 ⟨r, rfl, set, ⟨hset, hsize⟩, _, hrows, _, ?_, rfl⟩
    rw [Unordered.place_eq_ok_iff (Attribute.aligned_blank _ _ _), hcells, Attribute.cells_blank,
      List.nil_append]
    exact ⟨fun row hrow => hknown row (hrows'.mem_iff.1 hrow), hpositions, hagain.symm⟩

end Columns

variable {stored : Stored} {entity : Entity}

private theorem exists_recovers (h : layout.decode stored resolve = .ok entity) :
    ∃ rows leading, stored.readRows = .ok rows ∧ leading <+: stored.manifest.references ∧
      Recovers layout stored.manifest.guid stored.manifest.kind resolve leading rows entity := by
  obtain ⟨⟨guid, kind, count, references⟩, bytes⟩ := stored
  cases layout with
  | ordered =>
    cases kind with
    | vertexSet =>
      obtain ⟨rows, hrows, hrecovers⟩ := recovers_ordered_vertexSet h
      exact ⟨rows, [], hrows, List.nil_prefix, hrecovers⟩
    | edgeBundle => exact recovers_ordered_edgeBundle h
    | column type => exact recovers_ordered_column h
  | unordered =>
    cases kind with
    | vertexSet =>
      obtain ⟨rows, hrows, hrecovers⟩ := recovers_unordered_vertexSet h
      exact ⟨rows, [], hrows, List.nil_prefix, hrecovers⟩
    | edgeBundle => exact recovers_unordered_edgeBundle h
    | column type => exact recovers_unordered_column h

/-- Whatever is read, from any bytes and with any vertex sets, is what the manifest and the rows
say: none of the rows is lost, made up or merged with another. -/
theorem decode_faithful (h : layout.decode stored resolve = .ok entity) :
    ∃ leading, layout.Faithful stored resolve entity leading := by
  obtain ⟨rows, leading, hrows, hleads, hrecovers⟩ := exists_recovers h
  have hcodec := stored.manifest.kind.rereads_rowCodec
  have hlength := (RowFile.of_decode hcodec hrows).1
  refine ⟨leading, ?_⟩
  constructor
  case kind => exact hrecovers.kind_eq
  case leads => exact hleads
  case sets => exact hrecovers.sets
  case resolved => exact hrecovers.resolved
  case rowCount => rw [hrecovers.rowCount, hlength]
  case valid =>
    cases hrecovers.valid with
    | inl hfits => exact .inl (Entity.validate_eq_ok_iff.2 hfits)
    | inr hset =>
      obtain ⟨hordered, set, rfl⟩ := hset
      rw [Entity.validate, ofExcept_eq, VertexSet.validate]
      split
      · exact .inr ⟨hordered, rfl, _, rfl⟩
      · exact .inl rfl
  case increasing => exact hrecovers.increasing
  case again =>
    obtain ⟨rows', hperm, hordered, hencode, hdecode⟩ := hrecovers.again
    have hcount : UInt64.ofNat rows'.length = stored.manifest.rowCount := by
      rw [hperm.length_eq, hlength, UInt64.ofNat_toNat]
    rw [hcount] at hencode
    have hread := RowFile.decode_encode_of_perm hcodec hrows hperm
    exact ⟨_, rows, hencode, rfl, hdecode _ _ hread, hrows, rows', hread, hperm, hordered⟩

/-- A position that takes two bytes instead of one, and a reference that is not needed. -/
theorem decode_faithful_padded :
    ∃ leading, ordered.Faithful
      ⟨⟨Guid.filled 1, .column .double, 1, [⟨Guid.filled 2, 2⟩, ⟨Guid.filled 3, 9⟩]⟩,
        [0x53, 0x50, 0x48, 0x58, 1, 1, 0, 0, 0, 0, 0, 0, 0, 0x82, 0, 5, 0, 0, 0, 0, 0, 0, 0]⟩
      (fun _ => .ok ⟨[7, 8]⟩)
      (.column .double ⟨[Double.zero, ⟨5⟩], [false, true], Guid.filled 2⟩) leading :=
  decode_faithful rfl

end Layout

end GraphVault
