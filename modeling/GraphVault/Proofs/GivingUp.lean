import GraphVault.Catalog
import GraphVault.EntityDirectory
import GraphVault.Format.Unordered
import GraphVault.Proofs.Content
import GraphVault.Proofs.Yields

/-!
# Checks and formats do not give up

A store gives up when stored references lead deeper than they can without a loop, and when a position
is looked up that a vertex set does not have. No check does so, and reading and writing files does
not either, but for the lookups of an exchange copy: whatever else is wrong with an entity,
validating, writing and reading it gives up only if resolving its references does.
-/

namespace GraphVault

/-- A failure that is reported, other than giving up. -/
def Failure.Ordinary (failure : Failure) : Prop := ∀ cause, failure ≠ .aborted cause

/-- A failure other than that stored references form a loop. -/
def Failure.Loopless (failure : Failure) : Prop := failure ≠ .aborted .referenceLoop

/-- Failures among which are all that are reported. -/
class Failure.Lenient (tolerated : Failure → Prop) : Prop where
  ordinary : ∀ failure : Failure, failure.Ordinary → tolerated failure

instance : Failure.Lenient Failure.Loopless := ⟨fun _ h => h _⟩

instance : Failure.Lenient fun _ => True := ⟨fun _ _ => trivial⟩

/-- A computation that finds no loop. -/
abbrev Loopless {α : Type} (result : Except Failure α) : Prop :=
  Computes Failure.Loopless (fun _ => True) result

/-- A computation that does not give up. -/
abbrev Orderly {α : Type} (result : Except Failure α) : Prop :=
  Computes Failure.Ordinary (fun _ => True) result

theorem Computes.keeps_ordinary {σ α : Type} {inv : σ → Prop} {tolerated : Failure → Prop}
    [Failure.Lenient tolerated] {good : α → Prop} {result : Except Failure α}
    (h : Computes Failure.Ordinary good result) :
    Keeps inv tolerated good (MonadExcept.ofExcept result : EStateM Failure σ α) :=
  h.keeps.mono (fun _ h => h) Failure.Lenient.ordinary

theorem Failure.Ordinary.keeps_throw {σ α : Type} {inv : σ → Prop} {tolerated : Failure → Prop}
    [Failure.Lenient tolerated] {good : α → Prop} {failure : Failure} (h : failure.Ordinary) :
    Keeps inv tolerated good (throw failure : EStateM Failure σ α) :=
  .throw (Failure.Lenient.ordinary failure h)

/-! ### Checks -/

theorem orderly_length (guid : Guid) (field : String) (expected actual : Nat) :
    Orderly (Check.length guid field expected actual) := by
  unfold Check.length
  split
  · trivial
  · exact nofun

theorem orderly_positions (guid : Guid) (field : String) (size : Nat) (positions : List UInt64) :
    Orderly (Check.positions guid field size positions) := by
  unfold Check.positions
  split
  · exact nofun
  · trivial

theorem VertexSet.orderly_validate (set : VertexSet) (guid : Guid) :
    Orderly (set.validate guid) := by
  unfold validate
  split
  · exact nofun
  · trivial

theorem EdgeBundle.orderly_validate (bundle : EdgeBundle) (guid : Guid)
    (source destination : VertexSet) : Orderly (bundle.validate guid source destination) := by
  apply (orderly_length guid _ _ _).bind fun _ _ => ?_
  apply (orderly_length guid _ _ _).bind fun _ _ => ?_
  apply (orderly_positions guid _ _ _).bind fun _ _ => ?_
  exact orderly_positions guid _ _ _

theorem Attribute.orderly_validate {α : Type} (column : Attribute α) (guid : Guid)
    (set : VertexSet) : Orderly (column.validate guid set) :=
  (orderly_length guid _ _ _).bind fun _ _ => orderly_length guid _ _ _

/-! ### Reading files -/

theorem Header.orderly_validate (bytes : Bytes) (found : UInt8) :
    Orderly (validate bytes found) := by
  unfold validate
  split
  · exact nofun
  · split
    · exact nofun
    · trivial

theorem Header.orderly_strip (bytes : Bytes) : Orderly (strip bytes) := by
  unfold strip
  split
  · exact (orderly_validate _ _).bind fun _ _ => trivial
  · exact nofun

theorem Manifest.orderly_decode (bytes : Bytes) (guid : Guid) :
    Computes Failure.Ordinary (·.guid = guid) (decode bytes guid) := by
  apply (Header.orderly_strip bytes).bind fun payload _ => ?_
  split
  · exact fun _ => nofun
  · rename_i manifest _
    by_cases hguid : manifest.guid = guid
    · simp only [hguid, ne_eq, not_true_eq_false, if_false]
      split
      · exact fun _ => nofun
      · exact hguid
    · simp only [ne_eq, hguid, not_false_eq_true, if_true]
      exact fun _ => nofun

theorem Manifest.orderly_reference (manifest : Manifest) (index : Nat) :
    Computes Failure.Ordinary (fun r => manifest.references[index]? = some r)
      (manifest.reference index) := by
  unfold reference
  split
  · assumption
  · exact nofun

namespace RowFile

variable {ρ : Type}

theorem orderly_decodeRows (codec : Wire.Codec ρ) (guid : Guid) (count index : Nat)
    (bytes : Bytes) :
    Computes Failure.Ordinary (·.1.length = count) (decodeRows codec guid count index bytes) := by
  induction count generalizing index bytes with
  | zero => exact rfl
  | succ count ih =>
    unfold decodeRows
    split
    · exact nofun
    · exact (ih _ _).bind fun _ hlength => congrArg (· + 1) hlength

/-- There are as many rows as the manifest says. -/
theorem orderly_decode (codec : Wire.Codec ρ) (guid : Guid) (expected : UInt64) (bytes : Bytes) :
    Computes Failure.Ordinary (·.length = expected.toNat) (decode codec guid expected bytes) := by
  apply (Header.orderly_strip bytes).bind fun body _ => ?_
  split
  · exact nofun
  · rename_i count body _
    by_cases hcount : count = expected
    · simp only [hcount, ne_eq, not_true_eq_false, if_false]
      apply (orderly_decodeRows codec guid _ _ _).bind
      rintro ⟨rows, rest⟩ hlength
      dsimp only
      split
      · exact fun cause => nofun
      · exact hlength
    · simp only [ne_eq, hcount, not_false_eq_true, if_true]
      exact fun cause => nofun

end RowFile

@[simp] theorem Attribute.size_define {α : Type} (column : Attribute α) (position : Nat)
    (value : α) : (column.define position value).size = column.size := by
  simp [size, define]

@[simp] theorem Attribute.size_blank {α : Type} (placeholder : α) (size : Nat) (guid : Guid) :
    (blank placeholder size guid).size = size := by
  simp [Attribute.size, blank]

namespace Ordered

theorem orderly_position (guid : Guid) (field : String) (index : Nat) (stored : Int64)
    (size : Nat) : Orderly (position guid field index stored size) := by
  unfold position
  split
  · trivial
  · exact nofun

theorem orderly_edges (guid : Guid) (source destination index : Nat) (rows : List EdgeRow) :
    Computes Failure.Ordinary (·.length = rows.length)
      (edges guid source destination index rows) := by
  induction rows generalizing index with
  | nil => exact rfl
  | cons row rows ih =>
    apply (orderly_position guid _ _ _ _).bind fun _ _ => ?_
    apply (orderly_position guid _ _ _ _).bind fun _ _ => ?_
    exact (ih _).bind fun _ hlength => congrArg (· + 1) hlength

theorem orderly_checkOrder (guid : Guid) (index : Nat) (previous : Option Int64) (id : Int64) :
    Orderly (checkOrder guid index previous id) := by
  unfold checkOrder
  split
  · trivial
  · split
    · exact nofun
    · split
      · exact nofun
      · trivial

theorem orderly_place {α : Type} (guid : Guid) (size index : Nat) (previous : Option Int64)
    (column : Attribute α) (rows : List (Int64 × α)) :
    Computes Failure.Ordinary (fun placed => placed.vertexSet = column.vertexSet ∧
      placed.size = column.size) (place guid size index previous column rows) := by
  induction rows generalizing index previous column with
  | nil => exact ⟨rfl, rfl⟩
  | cons row rows ih =>
    apply (orderly_checkOrder guid _ _ _).bind fun _ _ => ?_
    apply (orderly_position guid _ _ _ _).bind fun position _ => ?_
    rw [← Attribute.size_define column position row.2]
    exact ih _ _ _

end Ordered

namespace Unordered

theorem loopless_external (set : VertexSet) (position : Nat) :
    Loopless (external set position) := by
  unfold external
  split
  · trivial
  · exact nofun

theorem loopless_mapM {α β : Type} {step : α → Except Failure β} (h : ∀ a, Loopless (step a))
    (items : List α) : Loopless (items.mapM step) :=
  (Computes.mapM fun a _ => h a).mono fun _ _ => trivial

theorem loopless_edgeRow (source destination : VertexSet) (edge : Edge) :
    Loopless (edgeRow source destination edge) := by
  apply (loopless_external source _).bind fun _ _ => ?_
  exact (loopless_external destination _).bind fun _ _ => trivial

theorem loopless_cellRow {α : Type} (set : VertexSet) (cell : Nat × α) :
    Loopless (cellRow set cell) := (loopless_external set _).bind fun _ _ => trivial

theorem orderly_sorted (guid : Guid) (ids : List Int64) :
    Computes Failure.Ordinary (·.size = ids.length) (sorted guid ids) := by
  unfold sorted
  dsimp only
  split
  · exact nofun
  · exact List.length_mergeSort ids

theorem orderly_locate (guid : Guid) (row : Nat) (set : VertexSet) (id : Int64) :
    Orderly (locate guid row set id) := by
  unfold locate
  split
  · trivial
  · exact nofun

theorem orderly_edges (guid : Guid) (source destination : VertexSet) (index : Nat)
    (rows : List EdgeRow) :
    Computes Failure.Ordinary (·.length = rows.length)
      (edges guid source destination index rows) := by
  induction rows generalizing index with
  | nil => exact rfl
  | cons row rows ih =>
    apply (orderly_locate guid _ _ _).bind fun _ _ => ?_
    apply (orderly_locate guid _ _ _).bind fun _ _ => ?_
    exact (ih _).bind fun _ hlength => congrArg (· + 1) hlength

theorem orderly_place {α : Type} (guid : Guid) (set : VertexSet) (index : Nat)
    (column : Attribute α) (rows : List (Int64 × α)) :
    Computes Failure.Ordinary (fun placed => placed.vertexSet = column.vertexSet ∧
      placed.size = column.size) (place guid set index column rows) := by
  induction rows generalizing index column with
  | nil => exact ⟨rfl, rfl⟩
  | cons row rows ih =>
    apply (orderly_locate guid _ _ _).bind fun position _ => ?_
    rw [← Attribute.size_define column position row.2]
    split
    · exact nofun
    · exact ih _ _

end Unordered

theorem Catalog.orderly_entity? (catalog : Catalog) (guid : Guid) :
    Orderly (catalog.entity? guid) := by
  unfold entity? find
  split
  · trivial
  · unfold readRecord
    split
    · trivial
    · exact fun _ => nofun

namespace EntityDirectory

theorem orderly_failed {α : Type} (action path : String) (result : Except Disk.Fault α) :
    Orderly (result.mapError (failed action path)) := by
  cases result with
  | ok a => trivial
  | error fault => exact fun _ => nofun

theorem orderly_readLimited (disk : Disk) (path : String) (limit : Nat) :
    Orderly (readLimited disk path limit) := by
  apply (orderly_failed "stat" path _).bind fun size _ => ?_
  split
  · exact fun _ => nofun
  · exact orderly_failed "read" path _

/-- What is read for a guid is filed under it. -/
theorem orderly_read (disk : Disk) (root : String) (guid : Guid) :
    Computes Failure.Ordinary (·.manifest.guid = guid) (read disk root guid) := by
  unfold read
  dsimp only
  split
  · exact fun _ => nofun
  · apply (orderly_readLimited disk _ _).bind fun bytes _ => ?_
    apply (Manifest.orderly_decode bytes guid).bind fun manifest hguid => ?_
    exact (orderly_readLimited disk _ _).bind fun rows _ => hguid

end EntityDirectory

/-! ### Work with resolved references -/

section Resolving

variable {σ : Type} {inv : σ → Prop} {tolerated : Failure → Prop} [Failure.Lenient tolerated]
  {resolve : Guid → EStateM Failure σ VertexSet} {good : Guid → Prop}

/-- An entity is only accepted once its references are resolved. -/
theorem Entity.keeps_validate {entity : Entity}
    (h : ∀ r ∈ entity.references, Keeps inv tolerated (fun _ => good r) (resolve r)) (guid : Guid) :
    Keeps inv tolerated (fun _ => ∀ r ∈ entity.references, good r)
      (entity.validate guid resolve) := by
  cases entity with
  | vertexSet set =>
    exact (set.orderly_validate guid).keeps_ordinary.mono (fun _ _ => nofun) fun _ h => h
  | edgeBundle bundle =>
    refine (h _ (mem_references_edgeBundle.2 (.inl rfl))).bind fun source hsource => ?_
    refine (h _ (mem_references_edgeBundle.2 (.inr rfl))).bind fun destination hdestination => ?_
    refine (bundle.orderly_validate guid source destination).keeps_ordinary.mono (fun _ _ r hr => ?_)
      fun _ h => h
    rcases mem_references_edgeBundle.1 hr with rfl | rfl
    · exact hsource
    · exact hdestination
  | column type cells =>
    refine (h _ (mem_references_column.2 rfl)).bind fun set hset => ?_
    refine (cells.orderly_validate guid set).keeps_ordinary.mono (fun _ _ r hr => ?_) fun _ h => h
    rw [mem_references_column.1 hr]
    exact hset

/-- A set that is resolved has the size that the reference says. -/
private theorem keeps_resolve {reference : Reference}
    (h : Keeps inv tolerated (fun _ => True) (resolve reference.guid)) (guid : Guid) :
    Keeps inv tolerated (fun set => set.size = reference.size.toNat)
      (reference.resolve guid resolve) := by
  unfold Reference.resolve
  refine h.bind fun set _ => ?_
  by_cases hsize : set.size = reference.size.toNat
  · simp only [hsize, ne_eq, not_true_eq_false, if_false]
    exact .pure hsize
  · simp only [hsize, ne_eq, not_false_eq_true, if_true]
    have hmismatch : Failure.Ordinary
        (.lengthMismatch guid "vertex_set" set.size reference.size.toNat) := fun _ => nofun
    exact hmismatch.keeps_throw.bind fun _ (hfalse : False) => hfalse.elim

/-- The number of vertices, edges or cells of the entity that a manifest describes. -/
def Manifest.size (manifest : Manifest) : UInt64 :=
  match manifest.kind, manifest.references with
  | .column _, set :: _ => set.size
  | _, _ => manifest.rowCount

/-- What is read is as the manifest says. -/
structure Described (manifest : Manifest) (entity : Entity) : Prop where
  kind : entity.kind = manifest.kind
  size : entity.size = manifest.size.toNat
  references : ∀ r ∈ entity.references, r ∈ manifest.references.map (·.guid)

private theorem described_edgeBundle {manifest : Manifest} {source destination : Reference}
    (hkind : manifest.kind = .edgeBundle) (hsource : manifest.references[0]? = some source)
    (hdestination : manifest.references[1]? = some destination) {edges : List Edge}
    (hedges : edges.length = manifest.rowCount.toNat) :
    Described manifest (.edgeBundle (.ofEdges source.guid destination.guid edges)) := by
  constructor
  case kind => exact hkind.symm
  case size => simp [Entity.size, EdgeBundle.size, EdgeBundle.ofEdges, Manifest.size, hkind, hedges]
  case references =>
    intro r hr
    rcases Entity.mem_references_edgeBundle.1 hr with rfl | rfl
    · exact List.mem_map_of_mem (List.mem_of_getElem? hsource)
    · exact List.mem_map_of_mem (List.mem_of_getElem? hdestination)

private theorem described_column {manifest : Manifest} {set : Reference} {type : ColumnType}
    (hkind : manifest.kind = .column type) (hset : manifest.references[0]? = some set)
    {cells : Attribute type.Cell} (hcells : cells.vertexSet = set.guid)
    (hsize : cells.size = set.size.toNat) : Described manifest (.column type cells) := by
  constructor
  case kind => exact hkind.symm
  case size =>
    obtain ⟨rest, hreferences⟩ : ∃ rest, manifest.references = set :: rest := by
      cases hreferences : manifest.references with
      | nil => simp [hreferences] at hset
      | cons first rest =>
        rw [hreferences, List.getElem?_cons_zero, Option.some.injEq] at hset
        exact ⟨rest, hset ▸ rfl⟩
    simp [Entity.size, Manifest.size, hkind, hreferences, hsize]
  case references =>
    intro r hr
    rw [Entity.mem_references_column.1 hr, hcells]
    exact List.mem_map_of_mem (List.mem_of_getElem? hset)

theorem Ordered.keeps_decode {stored : Stored}
    (h : ∀ r ∈ stored.manifest.references.map (·.guid),
      Keeps inv tolerated (fun _ => True) (resolve r)) :
    Keeps inv tolerated (Described stored.manifest) (Ordered.decode stored resolve) := by
  obtain ⟨⟨guid, kind, count, references⟩, bytes⟩ := stored
  have hlisted {index : Nat} {reference : Reference} (hindex : references[index]? = some reference) :
      Keeps inv tolerated (fun _ => True) (resolve reference.guid) :=
    h _ (List.mem_map_of_mem (List.mem_of_getElem? hindex))
  cases kind with
  | vertexSet =>
    exact (RowFile.orderly_decode _ _ _ _).keeps_ordinary.bind fun _ hlength =>
      .pure ⟨rfl, hlength, nofun⟩
  | edgeBundle =>
    refine (Manifest.orderly_reference _ 0).keeps_ordinary.bind fun source hsource => ?_
    refine (Manifest.orderly_reference _ 1).keeps_ordinary.bind fun destination hdestination => ?_
    refine (keeps_resolve (hlisted hsource) _).bind fun _ _ => ?_
    refine (keeps_resolve (hlisted hdestination) _).bind fun _ _ => ?_
    refine (RowFile.orderly_decode _ _ _ _).keeps_ordinary.bind fun rows hrows => ?_
    exact (orderly_edges _ _ _ _ _).keeps_ordinary.bind fun _ hedges =>
      .pure (described_edgeBundle rfl hsource hdestination (hedges.trans hrows))
  | column type =>
    refine (Manifest.orderly_reference _ 0).keeps_ordinary.bind fun reference hreference => ?_
    refine (keeps_resolve (hlisted hreference) _).bind fun set hset => ?_
    refine (RowFile.orderly_decode _ _ _ _).keeps_ordinary.bind fun rows _ => ?_
    refine (orderly_place _ _ _ _ _ _).keeps_ordinary.bind fun cells hcells => .pure ?_
    rw [Attribute.size_blank, hset] at hcells
    exact described_column rfl hreference hcells.1 hcells.2

theorem Unordered.keeps_decode {stored : Stored}
    (h : ∀ r ∈ stored.manifest.references.map (·.guid),
      Keeps inv tolerated (fun _ => True) (resolve r)) :
    Keeps inv tolerated (Described stored.manifest) (Unordered.decode stored resolve) := by
  obtain ⟨⟨guid, kind, count, references⟩, bytes⟩ := stored
  have hlisted {index : Nat} {reference : Reference} (hindex : references[index]? = some reference) :
      Keeps inv tolerated (fun _ => True) (resolve reference.guid) :=
    h _ (List.mem_map_of_mem (List.mem_of_getElem? hindex))
  cases kind with
  | vertexSet =>
    refine (RowFile.orderly_decode _ _ _ _).keeps_ordinary.bind fun ids hids => ?_
    exact (orderly_sorted _ _).keeps_ordinary.bind fun _ hsize =>
      .pure ⟨rfl, hsize.trans hids, nofun⟩
  | edgeBundle =>
    refine (Manifest.orderly_reference _ 0).keeps_ordinary.bind fun source hsource => ?_
    refine (Manifest.orderly_reference _ 1).keeps_ordinary.bind fun destination hdestination => ?_
    refine (keeps_resolve (hlisted hsource) _).bind fun _ _ => ?_
    refine (keeps_resolve (hlisted hdestination) _).bind fun _ _ => ?_
    refine (RowFile.orderly_decode _ _ _ _).keeps_ordinary.bind fun rows hrows => ?_
    refine (orderly_edges _ _ _ _ _).keeps_ordinary.bind fun edges hedges => .pure ?_
    exact described_edgeBundle rfl hsource hdestination
      ((List.length_mergeSort edges).trans (hedges.trans hrows))
  | column type =>
    refine (Manifest.orderly_reference _ 0).keeps_ordinary.bind fun reference hreference => ?_
    refine (keeps_resolve (hlisted hreference) _).bind fun set hset => ?_
    refine (RowFile.orderly_decode _ _ _ _).keeps_ordinary.bind fun rows _ => ?_
    refine (orderly_place _ _ _ _ _).keeps_ordinary.bind fun cells hcells => .pure ?_
    rw [Attribute.size_blank, hset] at hcells
    exact described_column rfl hreference hcells.1 hcells.2

/-- A copy is filed under the guid and kind of its entity, and lists what this refers to. -/
structure Copies (guid : Guid) (entity : Entity) (stored : Stored) : Prop where
  filed : stored.manifest.guid = guid
  kind : stored.manifest.kind = entity.kind
  references : stored.manifest.references.length ≤ 2 ∧
    ∀ r, r ∈ stored.manifest.references.map (·.guid) ↔ r ∈ entity.references

omit [Failure.Lenient tolerated] in
private theorem keeps_reference {guid : Guid}
    (h : Keeps inv tolerated (fun _ => True) (resolve guid)) :
    Keeps inv tolerated (fun reference => reference.guid = guid)
      (Ordered.reference guid resolve) :=
  h.bind fun _ _ => .pure rfl

omit [Failure.Lenient tolerated] in
theorem Ordered.keeps_encode {entity : Entity}
    (h : ∀ r ∈ entity.references, Keeps inv tolerated (fun _ => True) (resolve r)) (guid : Guid) :
    Keeps inv tolerated (fun stored => Copies guid entity stored ∧
      stored.manifest.size = UInt64.ofNat entity.size) (Ordered.encode guid entity resolve) := by
  cases entity with
  | vertexSet set => exact .pure ⟨⟨rfl, rfl, by simp, by simp [Entity.references]⟩, rfl⟩
  | edgeBundle bundle =>
    refine (keeps_reference (h _ (Entity.mem_references_edgeBundle.2 (.inl rfl)))).bind
      fun source hsource => ?_
    refine (keeps_reference (h _ (Entity.mem_references_edgeBundle.2 (.inr rfl)))).bind
      fun destination hdestination => ?_
    refine .pure ⟨⟨rfl, rfl, by simp, fun r => ?_⟩, rfl⟩
    rw [Entity.mem_references_edgeBundle]
    simp [hsource, hdestination]
  | column type cells => exact .pure ⟨⟨rfl, rfl, by simp, by simp [Entity.references]⟩, rfl⟩

/-- Work that keeps an invariant and does not find a loop. -/
abbrev KeepsLoopless {α : Type} (inv : σ → Prop) (good : α → Prop) (work : EStateM Failure σ α) :
    Prop := Keeps inv Failure.Loopless good work

theorem Unordered.keeps_encode {entity : Entity}
    (h : ∀ r ∈ entity.references, KeepsLoopless inv (fun _ => True) (resolve r)) (guid : Guid) :
    KeepsLoopless inv (Copies guid entity) (Unordered.encode guid entity resolve) := by
  cases entity with
  | vertexSet set => exact .pure ⟨rfl, rfl, by simp, by simp [Entity.references]⟩
  | edgeBundle bundle =>
    refine (h _ (Entity.mem_references_edgeBundle.2 (.inl rfl))).bind fun source _ => ?_
    refine (h _ (Entity.mem_references_edgeBundle.2 (.inr rfl))).bind fun destination _ => ?_
    refine (loopless_mapM (loopless_edgeRow source destination) _).keeps.bind fun rows _ => ?_
    refine .pure ⟨rfl, rfl, by simp, fun r => ?_⟩
    rw [Entity.mem_references_edgeBundle]
    simp
  | column type cells =>
    refine (h _ (Entity.mem_references_column.2 rfl)).bind fun set _ => ?_
    refine (loopless_mapM (loopless_cellRow set) _).keeps.bind fun rows _ => ?_
    exact .pure ⟨rfl, rfl, by simp, by simp [Entity.references]⟩

end Resolving

end GraphVault
