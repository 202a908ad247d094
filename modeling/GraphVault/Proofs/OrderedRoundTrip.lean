import GraphVault.Format.Ordered
import GraphVault.Proofs.Content
import GraphVault.Proofs.StoredForms

/-!
# The ordered layout is read back

An entity that fits its vertex sets is read back from the ordered layout with its content: ids,
positions, marks and the cells at defined positions stay as they are, bit by bit, and undefined
positions come back with the placeholder of their type (`Ordered.decode_encode_of_validate`).
-/

namespace GraphVault

namespace Attribute

variable {α : Type}

/-- The cell that is read back: what stands at an undefined position is not stored. -/
def settledCell (placeholder : α) (cell : α × Bool) : α := if cell.2 then cell.1 else placeholder

/-- The column with a placeholder at every undefined position. -/
def settled (placeholder : α) (column : Attribute α) : Attribute α :=
  { column with values := (column.values.zip column.defined).map (settledCell placeholder) }

/-- The column of values and marks, with a placeholder at every undefined position. -/
private def ofMarked (placeholder : α) (vertexSet : Guid) (marked : List (α × Bool)) :
    Attribute α :=
  ⟨marked.map (settledCell placeholder), marked.map (·.2), vertexSet⟩

/-- The defined cells among values and marks of which the first is at position `first`. -/
private def cellsFrom (marked : List (α × Bool)) (first : Nat) : List (Nat × α) :=
  (marked.zipIdx first).filterMap fun ((value, isDefined), position) =>
    if isDefined then some (position, value) else none

private theorem Aligned.marks_le {column : Attribute α} {size : Nat} (h : column.Aligned size) :
    column.defined.length ≤ column.values.length :=
  Nat.le_of_eq (h.length_defined.trans h.length_values.symm)

private theorem ofMarked_zip {placeholder : α} {column : Attribute α} {size : Nat}
    (h : column.Aligned size) :
    ofMarked placeholder column.vertexSet (column.values.zip column.defined)
      = column.settled placeholder := by
  unfold ofMarked settled
  rw [List.map_snd_zip h.marks_le]

private theorem cellsFrom_cons_true (value : α) (marked : List (α × Bool)) (first : Nat) :
    cellsFrom ((value, true) :: marked) first = (first, value) :: cellsFrom marked (first + 1) := by
  simp [cellsFrom, List.zipIdx_cons]

private theorem cellsFrom_cons_false (value : α) (marked : List (α × Bool)) (first : Nat) :
    cellsFrom ((value, false) :: marked) first = cellsFrom marked (first + 1) := by
  simp [cellsFrom, List.zipIdx_cons]

private theorem cellsFrom_settled (placeholder : α) (marked : List (α × Bool)) (first : Nat) :
    cellsFrom ((marked.map (settledCell placeholder)).zip (marked.map (·.2))) first
      = cellsFrom marked first := by
  induction marked generalizing first with
  | nil => rfl
  | cons cell marked ih =>
    obtain ⟨value, isDefined⟩ := cell
    rw [List.map_cons, List.map_cons, List.zip_cons_cons]
    cases isDefined with
    | false => rw [cellsFrom_cons_false, cellsFrom_cons_false, ih]
    | true => rw [cellsFrom_cons_true, cellsFrom_cons_true, ih, settledCell, if_pos rfl]

/-- A blank cell stays what it was, whatever stands there. -/
private theorem ofMarked_blank (placeholder value : α) (vertexSet : Guid) (done : List (α × Bool))
    (left : Nat) :
    ofMarked placeholder vertexSet (done ++ List.replicate (left + 1) (placeholder, false))
      = ofMarked placeholder vertexSet
        ((done ++ [(value, false)]) ++ List.replicate left (placeholder, false)) := by
  simp [ofMarked, settledCell, List.replicate_succ]

/-- A cell is put behind those that are done. -/
private theorem define_ofMarked (placeholder value : α) (vertexSet : Guid)
    (done : List (α × Bool)) (left : Nat) :
    (ofMarked placeholder vertexSet
        (done ++ List.replicate (left + 1) (placeholder, false))).define done.length value
      = ofMarked placeholder vertexSet
        ((done ++ [(value, true)]) ++ List.replicate left (placeholder, false)) := by
  simp [ofMarked, define, settledCell, List.replicate_succ]

theorem settled_sameContent [DecidableEq α] {placeholder : α} {column : Attribute α} {size : Nat}
    (h : column.Aligned size) : (column.settled placeholder).sameContent column := by
  refine sameContent_iff.2 ⟨rfl, rfl, ?_, ?_⟩
  · simp [Attribute.size, settled, h.length_values, h.length_defined]
  · have hcells := cellsFrom_settled placeholder (column.values.zip column.defined) 0
    rw [List.map_snd_zip h.marks_le] at hcells
    exact hcells

/-- There is a row for every mark. -/
theorem length_cells {column : Attribute α} {size : Nat} (h : column.Aligned size) :
    column.cells.length = column.definedCount := by
  have hcount : ∀ (marked : List (α × Bool)) (first : Nat),
      (cellsFrom marked first).length = (marked.map (·.2)).count true := by
    intro marked
    induction marked with
    | nil => simp [cellsFrom]
    | cons cell marked ih =>
      intro first
      obtain ⟨value, isDefined⟩ := cell
      cases isDefined with
      | false => simp [cellsFrom_cons_false, ih]
      | true => simp [cellsFrom_cons_true, ih]
  rw [definedCount, ← List.map_snd_zip h.marks_le]
  exact hcount _ 0

theorem definedCount_le {column : Attribute α} {size : Nat} (h : column.Aligned size) :
    column.definedCount ≤ size := by
  rw [← h.length_defined]
  exact List.count_le_length

theorem mem_values_of_mem_cells {column : Attribute α} {cell : Nat × α}
    (h : cell ∈ column.cells) : cell.2 ∈ column.values := by
  obtain ⟨⟨⟨value, isDefined⟩, position⟩, hmem, heq⟩ := List.mem_filterMap.1 h
  cases isDefined with
  | false => simp at heq
  | true =>
    simp only [if_true, Option.some.injEq] at heq
    subst heq
    exact (List.of_mem_zip (List.fst_mem_of_mem_zipIdx hmem)).1

theorem Aligned.position_lt {column : Attribute α} {size : Nat} (h : column.Aligned size)
    {cell : Nat × α} (hcell : cell ∈ column.cells) : cell.1 < size := by
  obtain ⟨⟨⟨value, isDefined⟩, position⟩, hmem, heq⟩ := List.mem_filterMap.1 hcell
  cases isDefined with
  | false => simp at heq
  | true =>
    simp only [if_true, Option.some.injEq] at heq
    subst heq
    rw [List.mem_zipIdx_iff_getElem?, List.getElem?_eq_some_iff] at hmem
    obtain ⟨hlt, -⟩ := hmem
    rw [List.length_zip] at hlt
    have hvalues := h.length_values
    omega

end Attribute

namespace Ordered

private theorem position_ofNat {guid : Guid} {field : String} {index p size : Nat}
    {stored : Int64} (hstored : stored.toInt = p) (h : p < size) :
    position guid field index stored size = .ok p := by
  have hrange : 0 ≤ stored.toInt ∧ stored.toInt < size := by omega
  rw [position, if_pos hrange, hstored, Int.toNat_natCast]

private theorem checkOrder_of_lt {guid : Guid} {index : Nat} {previous : Option Int64} {id : Int64}
    (h : ∀ p ∈ previous, p.toInt < id.toInt) : checkOrder guid index previous id = .ok () := by
  cases previous with
  | none => rfl
  | some p =>
    have hlt : p.toInt < id.toInt := h p rfl
    have hne : ¬ id = p := by
      rintro rfl
      exact Int.lt_irrefl _ hlt
    have hle : ¬ id < p := by
      rw [Int64.lt_iff_toInt_lt]
      omega
    rw [checkOrder, if_neg hne, if_neg hle]

private theorem toInt_toInt64 {p : UInt64} (h : p.toNat < 2 ^ 63) : p.toInt64.toInt = p.toNat := by
  have hbits : 2 * p.toBitVec.toNat < 2 ^ 64 := by
    have htoNat : p.toBitVec.toNat = p.toNat := rfl
    omega
  exact BitVec.toInt_eq_toNat_of_lt hbits

private theorem edges_map_edgeRow {source destination : Nat} {edges : List Edge}
    (hsource : source < 2 ^ 63) (hdestination : destination < 2 ^ 63)
    (h : ∀ e ∈ edges, e.source.toNat < source ∧ e.destination.toNat < destination) (guid : Guid)
    (index : Nat) :
    Ordered.edges guid source destination index (edges.map edgeRow) = .ok edges := by
  induction edges generalizing index with
  | nil => rfl
  | cons e edges ih =>
    obtain ⟨hs, hd⟩ := h e (by simp)
    have hrest := ih (fun e he => h e (by simp [he])) (index + 1)
    have hs' : position guid "src" index (edgeRow e).source source = .ok e.source.toNat :=
      position_ofNat (toInt_toInt64 (by omega)) hs
    have hd' : position guid "dst" index (edgeRow e).destination destination
        = .ok e.destination.toNat :=
      position_ofNat (toInt_toInt64 (by omega)) hd
    rw [List.map_cons, Ordered.edges, hs', hd', hrest]
    simp [bind, Except.bind, pure, Except.pure, edgeRow]

open Attribute in
/-- The cells that are still to come go where they were, behind those that are done. -/
private theorem place_rest {α : Type} (placeholder : α) (guid vertexSet : Guid) {size : Nat}
    (hsize : size < 2 ^ 63) (rest done : List (α × Bool))
    (hlen : done.length + rest.length = size) (previous : Option Int64)
    (hprevious : ∀ p ∈ previous, p.toInt < done.length) (index : Nat) :
    place guid size index previous
        (ofMarked placeholder vertexSet
          (done ++ List.replicate rest.length (placeholder, false)))
        ((cellsFrom rest done.length).map cellRow)
      = .ok (ofMarked placeholder vertexSet (done ++ rest)) := by
  induction rest generalizing done previous index with
  | nil => simp [cellsFrom, place]
  | cons cell rest ih =>
    obtain ⟨value, isDefined⟩ := cell
    rw [List.length_cons] at hlen
    have hlen' : (done ++ [(value, isDefined)]).length + rest.length = size := by
      rw [List.length_append, List.length_singleton]
      omega
    cases isDefined with
    | false =>
      have hprevious' : ∀ p ∈ previous, p.toInt < (done ++ [(value, false)]).length := by
        intro p hp
        have := hprevious p hp
        rw [List.length_append, List.length_singleton]
        omega
      have hplace := ih _ hlen' _ hprevious' index
      rw [List.length_append, List.length_singleton] at hplace
      rw [cellsFrom_cons_false, List.length_cons, ofMarked_blank placeholder value, hplace,
        List.append_assoc]
      rfl
    | true =>
      have hid : (Int64.ofNat done.length).toInt = done.length :=
        Int64.toInt_ofNat_of_lt (by omega)
      have horder : checkOrder guid index previous (Int64.ofNat done.length) = .ok () :=
        checkOrder_of_lt (by rwa [hid])
      have hposition : position guid "id" index (Int64.ofNat done.length) size
          = .ok done.length := position_ofNat hid (by omega)
      have hprevious' : ∀ p ∈ some (Int64.ofNat done.length),
          p.toInt < (done ++ [(value, true)]).length := by
        intro p hp
        rw [← Option.mem_some.1 hp, hid, List.length_append, List.length_singleton]
        omega
      have hplace := ih _ hlen' _ hprevious' (index + 1)
      rw [List.length_append, List.length_singleton] at hplace
      rw [cellsFrom_cons_true, List.map_cons, cellRow, place, horder, hposition, List.length_cons]
      simp only [bind, Except.bind]
      rw [define_ofMarked, hplace, List.append_assoc]
      rfl

private theorem place_cells {α : Type} (placeholder : α) {column : Attribute α} {size : Nat}
    (hsize : size < 2 ^ 63) (h : column.Aligned size) (guid : Guid) :
    place guid size 0 none (Attribute.blank placeholder size column.vertexSet)
      (column.cells.map cellRow) = .ok (column.settled placeholder) := by
  have hlen : (column.values.zip column.defined).length = size := by
    rw [List.length_zip, h.length_values, h.length_defined, Nat.min_self]
  have hblank : Attribute.blank placeholder size column.vertexSet
      = Attribute.ofMarked placeholder column.vertexSet
        (List.replicate size (placeholder, false)) := by
    simp [Attribute.blank, Attribute.ofMarked, Attribute.settledCell]
  have hplace := place_rest placeholder guid column.vertexSet hsize
    (column.values.zip column.defined) [] (by simpa using hlen) none (by simp) 0
  rw [List.nil_append, List.nil_append, hlen, Attribute.ofMarked_zip h] at hplace
  rw [hblank]
  exact hplace

end Ordered

namespace Entity

/-- The entity with placeholders at all undefined positions. -/
def settled : Entity → Entity
  | vertexSet set => vertexSet set
  | edgeBundle bundle => edgeBundle bundle
  | column type cells => column type (cells.settled type.placeholder)

/-- The number of rows that an entity is stored in. -/
def rowCount : Entity → Nat
  | vertexSet set => set.size
  | edgeBundle bundle => bundle.size
  | column _ cells => cells.definedCount

/-- All columns of an entity are shorter than `2 ^ 63`, and all texts at defined positions are
shorter than `2 ^ 64`. -/
def Sized : Entity → Prop
  | vertexSet set => set.size < 2 ^ 63
  | edgeBundle bundle => bundle.size < 2 ^ 63
  | column type cells =>
    cells.size < 2 ^ 63 ∧ ∀ cell ∈ cells.cells, type.textBytes cell.2 < 2 ^ 64

theorem settled_sameContent {entity : Entity} {resolve : Guid → Except Failure VertexSet}
    (h : entity.Fits resolve) : entity.settled.sameContent entity := by
  cases entity with
  | vertexSet set => exact sameContent_refl _
  | edgeBundle bundle => exact sameContent_refl _
  | column type cells =>
    obtain ⟨set, -, haligned⟩ := h
    exact sameContent_column_iff.2 ⟨cells, rfl, Attribute.settled_sameContent haligned⟩

theorem rowCount_settled (entity : Entity) : entity.settled.rowCount = entity.rowCount := by
  cases entity <;> rfl

end Entity

namespace EdgeBundle

theorem ofEdges_edges {bundle : EdgeBundle} {source destination : Nat}
    (h : bundle.Aligned source destination) :
    ofEdges bundle.sourceSet bundle.destinationSet bundle.edges = bundle := by
  have hids : (bundle.sources.zip bundle.destinations).length = bundle.ids.length := by
    rw [List.length_zip, h.length_sources, h.length_destinations, Nat.min_self]
    rfl
  have hends : bundle.sources.length = bundle.destinations.length := by
    rw [h.length_sources, h.length_destinations]
  have hsources : bundle.edges.map (·.source) = bundle.sources := calc
    bundle.edges.map (·.source)
      = (((bundle.sources.zip bundle.destinations).zip bundle.ids).map (·.1)).map (·.1) := by
        rw [edges, List.map_map, List.map_map]
        rfl
    _ = bundle.sources := by
        rw [List.map_fst_zip (Nat.le_of_eq hids), List.map_fst_zip (Nat.le_of_eq hends)]
  have hdestinations : bundle.edges.map (·.destination) = bundle.destinations := calc
    bundle.edges.map (·.destination)
      = (((bundle.sources.zip bundle.destinations).zip bundle.ids).map (·.1)).map (·.2) := by
        rw [edges, List.map_map, List.map_map]
        rfl
    _ = bundle.destinations := by
        rw [List.map_fst_zip (Nat.le_of_eq hids), List.map_snd_zip (Nat.le_of_eq hends.symm)]
  have hid : bundle.edges.map (·.id) = bundle.ids := calc
    bundle.edges.map (·.id)
      = ((bundle.sources.zip bundle.destinations).zip bundle.ids).map (·.2) := by
        rw [edges, List.map_map]
        rfl
    _ = bundle.ids := List.map_snd_zip (Nat.le_of_eq hids.symm)
  unfold ofEdges
  rw [hsources, hdestinations, hid]

theorem length_edges {bundle : EdgeBundle} {source destination : Nat}
    (h : bundle.Aligned source destination) : bundle.edges.length = bundle.size := by
  have hids : bundle.ids.length = bundle.size := rfl
  simp [edges, List.length_zip, h.length_sources, h.length_destinations, hids]

theorem Aligned.edge_lt {bundle : EdgeBundle} {source destination : Nat}
    (h : bundle.Aligned source destination) {e : Edge} (he : e ∈ bundle.edges) :
    e.source.toNat < source ∧ e.destination.toNat < destination := by
  obtain ⟨⟨⟨s, d⟩, id⟩, hmem, rfl⟩ := List.mem_map.1 he
  have hends := List.of_mem_zip (List.of_mem_zip hmem).1
  exact ⟨h.source_lt s hends.1, h.destination_lt d hends.2⟩

end EdgeBundle

namespace Ordered

open Wire (Codec)

variable (guid : Guid) {resolve : Guid → Except Failure VertexSet}

private theorem resolve_ofNat {set : VertexSet} {g : Guid} (hset : resolve g = .ok set)
    (hsize : set.size < 2 ^ 63) :
    Reference.resolve ⟨g, UInt64.ofNat set.size⟩ guid resolve = .ok set := by
  have hword : (UInt64.ofNat set.size).toNat = set.size := UInt64.toNat_ofNat_of_lt' (show set.size < 2 ^ 64 by omega)
  simp [Reference.resolve, hset, hword, bind, Except.bind, pure, Except.pure]

private theorem roundTrip_vertexSet {set : VertexSet} (hsized : set.size < 2 ^ 63) :
    ∃ stored, encode guid (.vertexSet set) resolve = .ok stored ∧
      decode stored resolve = .ok (.vertexSet set) ∧ stored.manifest.guid = guid ∧
      stored.manifest.kind = .vertexSet ∧ stored.manifest.rowCount = UInt64.ofNat set.size := by
  have hlen : set.mapping.length < 2 ^ 64 := by
    have : set.mapping.length = set.size := rfl
    omega
  have hrows : RowFile.decode RowFile.vertexRow guid (UInt64.ofNat set.size)
      (RowFile.encode RowFile.vertexRow set.mapping) = .ok set.mapping :=
    RowFile.decode_encode hlen (fun id _ => Codec.restores_integer id) guid
  refine ⟨_, rfl, ?_, rfl, rfl, rfl⟩
  simp only [decode, Entity.kind, ofExcept_eq, hrows]
  rfl

private theorem roundTrip_edgeBundle {bundle : EdgeBundle} {source destination : VertexSet}
    (hs : resolve bundle.sourceSet = .ok source)
    (hd : resolve bundle.destinationSet = .ok destination) (hsource : source.size < 2 ^ 63)
    (hdestination : destination.size < 2 ^ 63)
    (haligned : bundle.Aligned source.size destination.size) (hsized : bundle.size < 2 ^ 63) :
    ∃ stored, encode guid (.edgeBundle bundle) resolve = .ok stored ∧
      decode stored resolve = .ok (.edgeBundle bundle) ∧ stored.manifest.guid = guid ∧
      stored.manifest.kind = .edgeBundle ∧
      stored.manifest.rowCount = UInt64.ofNat bundle.size := by
  have hlen : (bundle.edges.map edgeRow).length = bundle.size := by
    rw [List.length_map, EdgeBundle.length_edges haligned]
  have hrows : RowFile.decode RowFile.edgeRow guid (UInt64.ofNat bundle.size)
      (RowFile.encode RowFile.edgeRow (bundle.edges.map edgeRow))
        = .ok (bundle.edges.map edgeRow) := by
    have hrestored := RowFile.decode_encode (show (bundle.edges.map edgeRow).length < 2 ^ 64 by omega)
      (fun row _ => RowFile.restores_edgeRow row) guid
    rw [hlen] at hrestored
    exact hrestored
  have hedges := edges_map_edgeRow hsource hdestination (fun e he => haligned.edge_lt he) guid 0
  refine ⟨⟨⟨guid, .edgeBundle, UInt64.ofNat bundle.size,
    [⟨bundle.sourceSet, UInt64.ofNat source.size⟩,
      ⟨bundle.destinationSet, UInt64.ofNat destination.size⟩]⟩,
    RowFile.encode RowFile.edgeRow (bundle.edges.map edgeRow)⟩, ?_, ?_, rfl, rfl, rfl⟩
  · simp [encode, reference, hs, hd, bind, Except.bind, pure, Except.pure, Entity.kind]
  · have hsref := resolve_ofNat guid hs hsource
    have hdref := resolve_ofNat guid hd hdestination
    simp [decode, Manifest.reference, hsref, hdref, hrows, hedges, bind, Except.bind, pure,
      Except.pure, EdgeBundle.ofEdges_edges haligned]

private theorem roundTrip_column {type : ColumnType} {cells : Attribute type.Cell}
    {set : VertexSet} (hset : resolve cells.vertexSet = .ok set) (haligned : cells.Aligned set.size)
    (hsized : (Entity.column type cells).Sized) :
    ∃ stored, encode guid (.column type cells) resolve = .ok stored ∧
      decode stored resolve = .ok (.column type (cells.settled type.placeholder)) ∧
      stored.manifest.guid = guid ∧ stored.manifest.kind = .column type ∧
      stored.manifest.rowCount = UInt64.ofNat cells.definedCount := by
  obtain ⟨hsize, htexts⟩ := hsized
  have hcells : cells.size = set.size := haligned.length_values
  have hcount := Attribute.definedCount_le haligned
  have hlen : (cells.cells.map cellRow).length = cells.definedCount := by
    rw [List.length_map, Attribute.length_cells haligned]
  have hrestores : ∀ row ∈ cells.cells.map cellRow, (RowFile.cellRow type).Restores row := by
    intro row hrow
    obtain ⟨cell, hcell, rfl⟩ := List.mem_map.1 hrow
    exact RowFile.restores_cellRow (htexts _ hcell)
  have hrows := RowFile.decode_encode (show (cells.cells.map cellRow).length < 2 ^ 64 by omega)
    hrestores guid
  rw [hlen] at hrows
  have hsetRef := resolve_ofNat guid hset (by omega)
  have hplace := place_cells type.placeholder (by omega) haligned guid
  refine ⟨_, rfl, ?_, rfl, rfl, rfl⟩
  simp [decode, Manifest.reference, Entity.kind, hcells, hsetRef, hrows, hplace, bind, Except.bind,
    pure, Except.pure]

/-- What fits is written, and is read back but for what stood at undefined positions. -/
theorem exists_encode_decode {entity : Entity} (h : entity.Fits resolve) (hsized : entity.Sized)
    (hsets : ∀ g ∈ entity.references, ∀ set, resolve g = .ok set → set.size < 2 ^ 63) :
    ∃ stored, encode guid entity resolve = .ok stored ∧
      decode stored resolve = .ok entity.settled ∧ stored.manifest.guid = guid ∧
      stored.manifest.kind = entity.kind ∧
      stored.manifest.rowCount = UInt64.ofNat entity.rowCount := by
  cases entity with
  | vertexSet set => exact roundTrip_vertexSet guid hsized
  | edgeBundle bundle =>
    obtain ⟨source, destination, hs, hd, haligned⟩ := h
    have hsource := hsets _ (Entity.mem_references_edgeBundle.2 (.inl rfl)) _ hs
    have hdestination := hsets _ (Entity.mem_references_edgeBundle.2 (.inr rfl)) _ hd
    exact roundTrip_edgeBundle guid hs hd hsource hdestination haligned hsized
  | column type cells =>
    obtain ⟨set, hset, haligned⟩ := h
    exact roundTrip_column guid hset haligned hsized

end Ordered

/-- What is written is filed under its guid, with the kind and the number of rows of its entity. -/
theorem Ordered.manifest_of_encode {guid : Guid} {entity : Entity} {stored : Stored}
    {resolve : Guid → Except Failure VertexSet} (h : encode guid entity resolve = .ok stored) :
    stored.manifest.guid = guid ∧ stored.manifest.kind = entity.kind ∧
      stored.manifest.rowCount = UInt64.ofNat entity.rowCount := by
  cases entity with
  | vertexSet set =>
    cases h
    exact ⟨rfl, rfl, rfl⟩
  | edgeBundle bundle =>
    obtain ⟨source, -, hrest⟩ := bind_eq_ok_iff.1 h
    obtain ⟨destination, -, hstored⟩ := bind_eq_ok_iff.1 hrest
    cases hstored
    exact ⟨rfl, rfl, rfl⟩
  | column type cells =>
    cases h
    exact ⟨rfl, rfl, rfl⟩

/-- What is within the limits of reading is small enough to be written. -/
theorem Entity.sized_of_limits {guid : Guid} {entity : Entity}
    {resolve : Guid → Except Failure VertexSet} (h : entity.Fits resolve)
    (hcount : entity.rowCount ≤ 2 ^ 32)
    (hsets : ∀ r ∈ entity.references, ∀ set, resolve r = .ok set → set.size ≤ 2 ^ 32)
    (hfile : ∀ stored, Ordered.encode guid entity resolve = .ok stored →
      stored.rows.length ≤ 2 * 1024 ^ 3) : entity.Sized := by
  cases entity with
  | vertexSet set => exact Nat.lt_of_le_of_lt hcount (by decide)
  | edgeBundle bundle => exact Nat.lt_of_le_of_lt hcount (by decide)
  | column type cells =>
    obtain ⟨set, hset, haligned⟩ := h
    constructor
    · -- a column is as long as its vertex set, which is small itself
      have hsize := hsets _ (Entity.mem_references_column.2 rfl) set hset
      have hlength : cells.size = set.size := haligned.length_values
      rw [hlength]
      exact Nat.lt_of_le_of_lt hsize (by decide)
    · intro cell hcell
      have htext := RowFile.textBytes_le (List.mem_map_of_mem (f := Ordered.cellRow) hcell)
      have hlimit := hfile _ rfl
      exact Nat.lt_of_le_of_lt (Nat.le_trans htext hlimit) (by decide)

theorem Wire.Varint.encode_ne_nil (more n : Nat) : encode more n ≠ [] := by
  cases more with
  | zero => exact List.cons_ne_nil _ _
  | succ more =>
    rw [encode]
    split <;> exact List.cons_ne_nil _ _

private theorem RowFile.length_le_encode {ρ : Type} {codec : Wire.Codec ρ}
    (h : ∀ row, codec.encode row ≠ []) (rows : List ρ) :
    rows.length ≤ (encode codec rows).length := by
  have hrows : rows.length ≤ (rows.flatMap codec.encode).length := by
    induction rows with
    | nil => exact Nat.le_refl 0
    | cons row rows ih =>
      have hrow := List.length_pos_of_ne_nil (h row)
      rw [List.flatMap_cons, List.length_append, List.length_cons]
      omega
  rw [encode, List.length_append, List.length_append]
  omega

/-- A row file has at least as many bytes as rows. -/
theorem Entity.rowCount_le_length {guid : Guid} {entity : Entity}
    {resolve : Guid → Except Failure VertexSet} (h : entity.Fits resolve) {stored : Stored}
    (hencode : Ordered.encode guid entity resolve = .ok stored) :
    entity.rowCount ≤ stored.rows.length := by
  have hinteger (n : Int64) : Wire.Codec.integer.encode n ≠ [] := Wire.Varint.encode_ne_nil 9 _
  have hpair {α : Type} (codec : Wire.Codec α) (row : Int64 × α) :
      (Wire.Codec.integer.pair codec).encode row ≠ [] := by
    intro hnil
    exact hinteger row.1 (List.append_eq_nil_iff.1 hnil).1
  cases entity with
  | vertexSet set =>
    cases hencode
    exact RowFile.length_le_encode hinteger set.mapping
  | edgeBundle bundle =>
    obtain ⟨source, destination, -, -, haligned⟩ := h
    simp only [Ordered.encode, bind_eq_ok_iff] at hencode
    obtain ⟨_, -, _, -, hencode⟩ := hencode
    cases hencode
    have hrow (row : EdgeRow) : RowFile.edgeRow.encode row ≠ [] := hpair _ _
    have hrows := RowFile.length_le_encode hrow (bundle.edges.map Ordered.edgeRow)
    rw [List.length_map, EdgeBundle.length_edges haligned] at hrows
    exact hrows
  | column type cells =>
    obtain ⟨set, -, haligned⟩ := h
    cases hencode
    have hrow (row : Int64 × type.Cell) : (RowFile.cellRow type).encode row ≠ [] := hpair _ row
    have hrows := RowFile.length_le_encode hrow (cells.cells.map Ordered.cellRow)
    rw [List.length_map, Attribute.length_cells haligned] at hrows
    exact hrows

theorem Entity.Sized.rowCount_lt {entity : Entity} {resolve : Guid → Except Failure VertexSet}
    (hsized : entity.Sized) (h : entity.Fits resolve) : entity.rowCount < 2 ^ 63 := by
  cases entity with
  | vertexSet set => exact hsized
  | edgeBundle bundle => exact hsized
  | column type cells =>
    obtain ⟨set, -, haligned⟩ := h
    have hcount := Attribute.definedCount_le haligned
    rw [← haligned.length_values] at hcount
    exact Nat.lt_of_le_of_lt hcount hsized.1

/-- Whatever fits the sets that a resolver finds is written, and what was written is read back with
the same resolver: every id, position and mark and every defined cell as it was, and placeholders at
undefined positions. The manifest counts the rows that are read. -/
theorem Ordered.decode_encode_of_validate {guid : Guid} {entity : Entity}
    {resolve : Guid → Except Failure VertexSet} (h : entity.validate guid resolve = .ok ())
    (hsized : entity.Sized)
    (hsets : ∀ g ∈ entity.references, ∀ set, resolve g = .ok set → set.size < 2 ^ 63) :
    ∃ stored, encode guid entity resolve = .ok stored ∧
      decode stored resolve = .ok entity.settled ∧ entity.settled.sameContent entity ∧
      stored.manifest.guid = guid ∧ stored.manifest.kind = entity.kind ∧
      stored.manifest.rowCount.toNat = entity.settled.rowCount := by
  have hfits := Entity.validate_eq_ok_iff.1 h
  have hsame := Entity.settled_sameContent hfits
  obtain ⟨stored, hencode, hdecode, hguid, hkind, hcount⟩ :=
    exists_encode_decode guid hfits hsized hsets
  have hlt := Nat.lt_trans (hsized.rowCount_lt hfits) (show 2 ^ 63 < 2 ^ 64 by decide)
  refine ⟨stored, hencode, hdecode, hsame, hguid, hkind, ?_⟩
  rw [hcount, Entity.rowCount_settled, UInt64.toNat_ofNat_of_lt' hlt]

theorem Ordered.decode_encode_texts :
    ∃ stored, encode (Guid.filled 1) (.column .string ⟨["a", "b"], [true, false], Guid.filled 2⟩)
        (fun _ => .ok ⟨[7, 8]⟩ : Guid → Except Failure VertexSet) = .ok stored ∧
      decode stored (fun _ => .ok ⟨[7, 8]⟩ : Guid → Except Failure VertexSet)
        = .ok (.column .string ⟨["a", ""], [true, false], Guid.filled 2⟩) ∧
      stored.manifest.rowCount.toNat = 1 := by
  have hsized : (Entity.column .string ⟨["a", "b"], [true, false], Guid.filled 2⟩).Sized := by
    exact ⟨by decide, by decide⟩
  have hsets : ∀ g ∈ (Entity.column .string ⟨["a", "b"], [true, false], Guid.filled 2⟩).references,
      ∀ set, (.ok ⟨[7, 8]⟩ : Except Failure VertexSet) = .ok set → set.size < 2 ^ 63 := by
    rintro g - set heq
    cases heq
    decide
  obtain ⟨stored, hencode, hdecode, -, -, -, hcount⟩ :=
    decode_encode_of_validate rfl hsized hsets
  exact ⟨stored, hencode, hdecode, hcount⟩

end GraphVault
