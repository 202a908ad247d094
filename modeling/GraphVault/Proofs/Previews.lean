import GraphVault.Preview
import GraphVault.Proofs.ReadingBack

/-!
# Previews and exports

What a preview shows are the first of the rows that the entity is exported in
(`Preview.rows_exported`). A preview shows nothing at a position that the vertex set does not have,
where an export has no row: both look up the same ids as long as the entity fits.
-/

namespace GraphVault

namespace Preview

open Unordered (rowOf cellRowOf)

variable {vault : Vault} {entity : Entity} {bundle : EdgeBundle} {type : ColumnType}
  {cells : Attribute type.Cell} {set source destination : VertexSet} {position : Nat}

/-- A row of the exchange form, as a preview shows it. -/
def shown : (kind : Kind) → kind.Row → Json
  | .vertexSet, (id : Int64) => .object [("id", Json.ofInt64 id)]
  | .edgeBundle, (row : EdgeRow) => .object [("id", Json.ofInt64 row.id),
      ("src", Json.ofInt64 row.source), ("dst", Json.ofInt64 row.destination)]
  | .column type, (row : Int64 × type.Cell) =>
      .object [("id", Json.ofInt64 row.1), ("value", cell type row.2)]

/-! ### Rows that are shown -/

theorem external_of_lt (h : position < set.size) :
    external set position = Json.ofInt64 (set.idAt position) := by
  have hget : set.externalId position = some (set.idAt position) := VertexSet.mapping_idAt h
  rw [external, hget, Option.map_some, Option.getD_some]

/-- What each shows of the first items is the same if it is the same for every item. -/
private theorem map_take_eq {α β γ : Type} {items : List α} {render : α → γ} {row : α → β}
    {render' : β → γ} (h : ∀ a ∈ items, render a = render' (row a)) (limit : Nat) :
    (items.take limit).map render = ((items.map row).take limit).map render' := by
  rw [← List.map_take, List.map_map]
  exact List.map_congr_left fun a ha => h a (List.mem_of_mem_take ha)

theorem edgeRow_eq_shown (haligned : bundle.Aligned source.size destination.size) :
    ∀ edge ∈ bundle.edges,
      edgeRow source destination edge = shown .edgeBundle (rowOf source destination edge) := by
  intro edge hedge
  obtain ⟨hs, hd⟩ := haligned.edge_lt hedge
  rw [edgeRow, external_of_lt hs, external_of_lt hd]
  rfl

theorem cellRow_eq_shown (haligned : cells.Aligned set.size) :
    ∀ row ∈ cells.cells, cellRow type set row = shown (.column type) (cellRowOf set row) := by
  intro row hrow
  rw [cellRow, external_of_lt (haligned.position_lt hrow)]
  rfl

theorem rows_edgeBundle (hs : vault.registered bundle.sourceSet = .ok source)
    (hd : vault.registered bundle.destinationSet = .ok destination)
    (haligned : bundle.Aligned source.size destination.size) (limit : Nat) :
    Yields (rows limit (.edgeBundle bundle)) vault
      (fun found after => after = vault ∧ found =
        ((bundle.edges.map (rowOf source destination)).take limit).map (shown .edgeBundle))
      fun _ _ => False := by
  rw [rows, yields_bind]
  apply ((Vault.follows_vertexSet_registered vault _ _ hs).yields vault rfl).mono ?_
    fun _ _ hfalse => hfalse.2
  rintro _ _ ⟨rfl, rfl⟩
  rw [yields_bind]
  apply ((Vault.follows_vertexSet_registered _ _ _ hd).yields _ rfl).mono ?_
    fun _ _ hfalse => hfalse.2
  rintro _ _ ⟨rfl, rfl⟩
  exact ⟨rfl, map_take_eq (edgeRow_eq_shown haligned) limit⟩

theorem rows_column (hset : vault.registered cells.vertexSet = .ok set)
    (haligned : cells.Aligned set.size) (limit : Nat) :
    Yields (rows limit (.column type cells)) vault
      (fun found after => after = vault ∧ found =
        ((cells.cells.map (cellRowOf set)).take limit).map (shown (.column type)))
      fun _ _ => False := by
  rw [rows, yields_bind]
  apply ((Vault.follows_vertexSet_registered vault _ _ hset).yields vault rfl).mono ?_
    fun _ _ hfalse => hfalse.2
  rintro _ _ ⟨rfl, rfl⟩
  exact ⟨rfl, map_take_eq (cellRow_eq_shown haligned) limit⟩

/-! ### Rows that are exported -/

/-- A store that has the vertex sets of an entity exports what can be written with them, and stays
as it is. -/
private theorem exports_registered {guid : Guid} {stored : Stored}
    (h : Unordered.encode guid entity vault.registered = .ok stored) :
    Unordered.encode guid entity Vault.resolve vault = .ok stored vault := by
  have hfollows := Unordered.follows_encode (Vault.follows_registered vault) guid entity stored h
  have hyields := (hfollows.yields vault rfl).mono (fun _ _ hafter => hafter)
    fun _ _ hfalse => hfalse.2
  obtain ⟨_, _, hencode, rfl, rfl⟩ := hyields.exists_ok
  exact hencode

private theorem shows_of_yields {limit : Nat} {found : List Json}
    (h : Yields (rows limit entity) vault (fun given after => after = vault ∧ given = found)
      fun _ _ => False) : rows limit entity vault = .ok found vault := by
  obtain ⟨_, _, hrows, rfl, rfl⟩ := h.exists_ok
  exact hrows

/-- An entity that fits the registered vertex sets is exported in as many rows as it has edges, ids
or defined cells, and a preview of it shows the first of these rows, up to its limit. A vertex set
may repeat ids. -/
theorem rows_exported (h : entity.kind ≠ .vertexSet → entity.Fits vault.registered) (guid : Guid) :
    ∃ (exported : List entity.kind.Row) (stored : Stored),
      Unordered.encode guid entity vault.registered = .ok stored ∧
      Unordered.encode guid entity Vault.resolve vault = .ok stored vault ∧
      stored.manifest.rowCount = UInt64.ofNat exported.length ∧
      stored.rows = RowFile.encode entity.kind.rowCodec exported ∧
      exported.length = entity.rowCount ∧
      ∀ limit, rows limit entity vault
        = .ok ((exported.take limit).map (shown entity.kind)) vault := by
  cases entity with
  | vertexSet set =>
    refine ⟨set.mapping, _, rfl, exports_registered rfl, rfl, rfl, rfl, fun limit => ?_⟩
    rfl
  | edgeBundle bundle =>
    obtain ⟨source, destination, hs, hd, haligned⟩ := h nofun
    have hencode := Unordered.encode_edgeBundle guid hs hd fun _ he => haligned.edge_lt he
    refine ⟨bundle.edges.map (rowOf source destination), _, hencode, exports_registered hencode,
      rfl, rfl, ?_, fun limit => shows_of_yields (rows_edgeBundle hs hd haligned limit)⟩
    exact (List.length_map _).trans (EdgeBundle.length_edges haligned)
  | column type cells =>
    obtain ⟨set, hset, haligned⟩ := h nofun
    have hencode := Unordered.encode_column guid hset fun _ hcell => haligned.position_lt hcell
    refine ⟨cells.cells.map (cellRowOf set), _, hencode, exports_registered hencode, rfl, rfl, ?_,
      fun limit => shows_of_yields (rows_column hset haligned limit)⟩
    exact (List.length_map _).trans (Attribute.length_cells haligned)

/-- A column with a cell that is not defined. -/
theorem rows_exported_column :
    let cells : Attribute ColumnType.string.Cell :=
      ⟨["one", "", "three"], [true, false, true], Guid.filled 1⟩
    let entity : Entity := .column .string cells
    let vault := (Vault.inMemory .empty).insert (Guid.filled 1) (.vertexSet ⟨[7, 8, 9]⟩)
    (entity.kind ≠ .vertexSet → entity.Fits vault.registered) ∧
    rows 5 entity vault = .ok [.object [("id", Json.ofInt64 7), ("value", .text "one")],
      .object [("id", Json.ofInt64 9), ("value", .text "three")]] vault ∧
    ∃ (exported : List entity.kind.Row) (stored : Stored),
      Unordered.encode (Guid.filled 2) entity vault.registered = .ok stored ∧
      stored.rows = RowFile.encode entity.kind.rowCodec exported ∧ exported.length = 2 ∧
      ∀ limit, rows limit entity vault
        = .ok ((exported.take limit).map (shown entity.kind)) vault := by
  intro cells entity vault
  have hset : vault.registered (Guid.filled 1) = .ok ⟨[7, 8, 9]⟩ :=
    Vault.registered_eq_ok_iff.2 (SortedMap.get?_insert_self _ _ _)
  have hfits : entity.Fits vault.registered := ⟨_, hset, rfl, rfl⟩
  obtain ⟨exported, stored, hencode, -, -, hrows, hlength, hshown⟩ :=
    rows_exported (fun _ => hfits) (Guid.filled 2)
  exact ⟨fun _ => hfits, rfl, exported, stored, hencode, hrows, hlength, hshown⟩

end Preview

end GraphVault
