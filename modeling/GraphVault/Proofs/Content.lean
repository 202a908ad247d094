import GraphVault.Entity
import GraphVault.Proofs.Yields

/-!
# Content and fit

Which entities have the same content, and what it means that an entity fits the vertex sets that it
refers to: `Entity.Fits` says in full what `Entity.validate` accepts. Both are independent of the
guid that an entity goes by, and of what stands at undefined positions.
-/

namespace GraphVault

@[simp] theorem ofExcept_eq {ε α : Type} (result : Except ε α) :
    (MonadExcept.ofExcept result : Except ε α) = result := by
  cases result <;> rfl

/-- The guid of one byte that is repeated. -/
def Guid.filled (byte : UInt8) : Guid := ⟨List.replicate 32 byte, List.length_replicate⟩

theorem Check.positions_eq_ok_iff {guid : Guid} {field : String} {size : Nat}
    {positions : List UInt64} :
    Check.positions guid field size positions = .ok () ↔ ∀ p ∈ positions, p.toNat < size := by
  unfold Check.positions
  split
  · rename_i p index hfound
    have hp : p ∈ positions := List.fst_mem_of_mem_zipIdx (List.mem_of_find?_eq_some hfound)
    have hsize : size ≤ p.toNat := by simpa using List.find?_some hfound
    refine ⟨fun h => ?_, fun h => absurd (h p hp) (Nat.not_lt_of_le hsize)⟩
    cases h
  · rename_i hnone
    rw [List.find?_eq_none] at hnone
    refine ⟨fun _ p hp => ?_, fun _ => rfl⟩
    obtain ⟨i, hi, heq⟩ := List.mem_iff_getElem.1 hp
    have hmem : (p, i) ∈ positions.zipIdx := by
      rw [List.mem_zipIdx_iff_getElem?, List.getElem?_eq_some_iff]
      exact ⟨hi, heq⟩
    simpa using hnone _ hmem

namespace EdgeBundle

/-- Both ends of every edge are positions of sets of the given sizes. -/
structure Aligned (bundle : EdgeBundle) (source destination : Nat) : Prop where
  length_sources : bundle.sources.length = bundle.size
  length_destinations : bundle.destinations.length = bundle.size
  source_lt : ∀ p ∈ bundle.sources, p.toNat < source
  destination_lt : ∀ p ∈ bundle.destinations, p.toNat < destination

theorem validate_eq_ok_iff {bundle : EdgeBundle} {guid : Guid} {source destination : VertexSet} :
    bundle.validate guid source destination = .ok () ↔
      bundle.Aligned source.size destination.size := by
  simp only [validate, check_bind_eq_ok_iff, Check.length_eq_ok_iff, Check.positions_eq_ok_iff]
  constructor
  · rintro ⟨hs, hd, hsource, hdestination⟩
    exact ⟨hs.symm, hd.symm, hsource, hdestination⟩
  · intro h
    exact ⟨h.length_sources.symm, h.length_destinations.symm, h.source_lt, h.destination_lt⟩

theorem Aligned.reverse {bundle : EdgeBundle} {source destination : Nat}
    (h : bundle.Aligned source destination) : bundle.reverse.Aligned destination source :=
  ⟨h.length_destinations, h.length_sources, h.destination_lt, h.source_lt⟩

end EdgeBundle

namespace Attribute

variable {α : Type}

/-- There is one cell and one mark per position of a set of the given size. -/
structure Aligned (column : Attribute α) (size : Nat) : Prop where
  length_values : column.values.length = size
  length_defined : column.defined.length = size

theorem validate_eq_ok_iff {column : Attribute α} {guid : Guid} {set : VertexSet} :
    column.validate guid set = .ok () ↔ column.Aligned set.size := by
  simp only [validate, check_bind_eq_ok_iff, Check.length_eq_ok_iff]
  constructor
  · rintro ⟨hvalues, hdefined⟩
    exact ⟨hvalues.symm, hdefined.symm⟩
  · intro h
    exact ⟨h.length_values.symm, h.length_defined.symm⟩

theorem sameContent_iff [DecidableEq α] {column other : Attribute α} :
    column.sameContent other ↔ column.vertexSet = other.vertexSet ∧
      column.defined = other.defined ∧ column.size = other.size ∧ column.cells = other.cells := by
  simp [sameContent, and_assoc]

end Attribute

theorem VertexSet.validate_eq_ok_iff {set : VertexSet} {guid : Guid} :
    set.validate guid = .ok () ↔ set.mapping.Nodup := by
  have hnone : firstRepeat [] set.mapping = none ↔ set.mapping.Nodup := by
    simp [firstRepeat_eq_none_iff]
  unfold validate
  split
  · rename_i h
    rw [← hnone, h]
    simp
  · rename_i h
    rw [← hnone, h]
    simp

namespace Entity

/-- An entity fits the vertex sets that are found under its references. -/
def Fits (entity : Entity) (resolve : Guid → Except Failure VertexSet) : Prop :=
  match entity with
  | vertexSet set => set.mapping.Nodup
  | edgeBundle bundle => ∃ source destination, resolve bundle.sourceSet = .ok source ∧
      resolve bundle.destinationSet = .ok destination ∧
      bundle.Aligned source.size destination.size
  | column _ cells => ∃ set, resolve cells.vertexSet = .ok set ∧ cells.Aligned set.size

/-- What fits is exactly what is accepted. -/
theorem validate_eq_ok_iff {entity : Entity} {guid : Guid}
    {resolve : Guid → Except Failure VertexSet} :
    entity.validate guid resolve = .ok () ↔ entity.Fits resolve := by
  cases entity with
  | vertexSet set =>
    simp only [validate, ofExcept_eq, Fits]
    exact VertexSet.validate_eq_ok_iff
  | edgeBundle bundle =>
    simp only [validate, ofExcept_eq, bind_eq_ok_iff, EdgeBundle.validate_eq_ok_iff, Fits]
    constructor
    · rintro ⟨source, hs, destination, hd, h⟩
      exact ⟨source, destination, hs, hd, h⟩
    · rintro ⟨source, destination, hs, hd, h⟩
      exact ⟨source, hs, destination, hd, h⟩
  | column type cells =>
    simp only [validate, ofExcept_eq, bind_eq_ok_iff, Attribute.validate_eq_ok_iff, Fits]

theorem mem_references_edgeBundle {bundle : EdgeBundle} {guid : Guid} :
    guid ∈ (edgeBundle bundle).references ↔
      guid = bundle.sourceSet ∨ guid = bundle.destinationSet := by
  by_cases h : bundle.sourceSet = bundle.destinationSet
  · simp [references, EdgeBundle.isHomogeneous, h]
  · simp [references, EdgeBundle.isHomogeneous, h]

theorem mem_references_column {type : ColumnType} {cells : Attribute type.Cell} {guid : Guid} :
    guid ∈ (column type cells).references ↔ guid = cells.vertexSet := by
  simp [references]

/-- Whether an entity fits depends only on what is found under its references. -/
theorem Fits.congr {entity : Entity} {resolve resolve' : Guid → Except Failure VertexSet}
    (h : entity.Fits resolve)
    (heq : ∀ guid ∈ entity.references, ∀ set, resolve guid = .ok set →
      ∃ set', resolve' guid = .ok set' ∧ set'.size = set.size) : entity.Fits resolve' := by
  cases entity with
  | vertexSet set => exact h
  | edgeBundle bundle =>
    obtain ⟨source, destination, hs, hd, haligned⟩ := h
    obtain ⟨source', hs', hsource⟩ := heq _ (mem_references_edgeBundle.2 (.inl rfl)) _ hs
    obtain ⟨destination', hd', hdestination⟩ :=
      heq _ (mem_references_edgeBundle.2 (.inr rfl)) _ hd
    exact ⟨source', destination', hs', hd', by rw [hsource, hdestination]; exact haligned⟩
  | column type cells =>
    obtain ⟨set, hset, haligned⟩ := h
    obtain ⟨set', hset', hsize⟩ := heq _ (mem_references_column.2 rfl) _ hset
    exact ⟨set', hset', by rw [hsize]; exact haligned⟩

theorem Fits.reverse {bundle : EdgeBundle} {resolve : Guid → Except Failure VertexSet}
    (h : (edgeBundle bundle).Fits resolve) : (edgeBundle bundle.reverse).Fits resolve := by
  obtain ⟨source, destination, hs, hd, haligned⟩ := h
  exact ⟨destination, source, hd, hs, haligned.reverse⟩

/-- What an entity that fits refers to are vertex sets. -/
theorem Fits.resolved {entity : Entity} {resolve : Guid → Except Failure VertexSet}
    (h : entity.Fits resolve) {guid : Guid} (hguid : guid ∈ entity.references) :
    ∃ set, resolve guid = .ok set := by
  cases entity with
  | vertexSet set => simp [references] at hguid
  | edgeBundle bundle =>
    obtain ⟨source, destination, hs, hd, -⟩ := h
    rcases mem_references_edgeBundle.1 hguid with rfl | rfl
    · exact ⟨source, hs⟩
    · exact ⟨destination, hd⟩
  | column type cells =>
    obtain ⟨set, hset, -⟩ := h
    rw [mem_references_column.1 hguid]
    exact ⟨set, hset⟩

/-! ### Content -/

theorem sameContent_vertexSet_iff {set : VertexSet} {other : Entity} :
    (vertexSet set).sameContent other ↔ other = vertexSet set := by
  cases other <;> simp [sameContent, eq_comm]

theorem sameContent_edgeBundle_iff {bundle : EdgeBundle} {other : Entity} :
    (edgeBundle bundle).sameContent other ↔ other = edgeBundle bundle := by
  cases other <;> simp [sameContent, eq_comm]

theorem sameContent_column_iff {type : ColumnType} {cells : Attribute type.Cell}
    {other : Entity} :
    (column type cells).sameContent other ↔
      ∃ cells' : Attribute type.Cell, other = column type cells' ∧ cells.sameContent cells' := by
  cases other with
  | vertexSet set => simp [sameContent]
  | edgeBundle bundle => simp [sameContent]
  | column type' cells' =>
    by_cases h : type' = type
    · subst h
      simp [sameContent]
    · have hne : ¬ type = type' := fun heq => h heq.symm
      simp [sameContent, h]

theorem sameContent_refl (entity : Entity) : entity.sameContent entity := by
  cases entity with
  | vertexSet set => exact sameContent_vertexSet_iff.2 rfl
  | edgeBundle bundle => exact sameContent_edgeBundle_iff.2 rfl
  | column type cells =>
    exact sameContent_column_iff.2 ⟨cells, rfl, Attribute.sameContent_iff.2 ⟨rfl, rfl, rfl, rfl⟩⟩

theorem sameContent_symm {entity other : Entity} (h : entity.sameContent other) :
    other.sameContent entity := by
  cases entity with
  | vertexSet set =>
    rw [sameContent_vertexSet_iff.1 h]
    exact sameContent_refl _
  | edgeBundle bundle =>
    rw [sameContent_edgeBundle_iff.1 h]
    exact sameContent_refl _
  | column type cells =>
    obtain ⟨cells', rfl, hcells⟩ := sameContent_column_iff.1 h
    obtain ⟨hset, hdefined, hsize, hc⟩ := Attribute.sameContent_iff.1 hcells
    exact sameContent_column_iff.2 ⟨cells, rfl,
      Attribute.sameContent_iff.2 ⟨hset.symm, hdefined.symm, hsize.symm, hc.symm⟩⟩

theorem sameContent_trans {a b c : Entity} (hab : a.sameContent b) (hbc : b.sameContent c) :
    a.sameContent c := by
  cases a with
  | vertexSet set =>
    rw [sameContent_vertexSet_iff.1 hab] at hbc
    exact hbc
  | edgeBundle bundle =>
    rw [sameContent_edgeBundle_iff.1 hab] at hbc
    exact hbc
  | column type cells =>
    obtain ⟨cells₁, rfl, h₁⟩ := sameContent_column_iff.1 hab
    obtain ⟨cells₂, rfl, h₂⟩ := sameContent_column_iff.1 hbc
    obtain ⟨hset₁, hdefined₁, hsize₁, hc₁⟩ := Attribute.sameContent_iff.1 h₁
    obtain ⟨hset₂, hdefined₂, hsize₂, hc₂⟩ := Attribute.sameContent_iff.1 h₂
    exact sameContent_column_iff.2 ⟨cells₂, rfl, Attribute.sameContent_iff.2
      ⟨hset₁.trans hset₂, hdefined₁.trans hdefined₂, hsize₁.trans hsize₂, hc₁.trans hc₂⟩⟩

theorem references_eq_of_sameContent {entity other : Entity} (h : entity.sameContent other) :
    entity.references = other.references := by
  cases entity with
  | vertexSet set => rw [sameContent_vertexSet_iff.1 h]
  | edgeBundle bundle => rw [sameContent_edgeBundle_iff.1 h]
  | column type cells =>
    obtain ⟨cells', rfl, hcells⟩ := sameContent_column_iff.1 h
    simp [references, (Attribute.sameContent_iff.1 hcells).1]

/-- Entities of the same content fit alike. -/
theorem Fits.of_sameContent {entity other : Entity} {resolve : Guid → Except Failure VertexSet}
    (h : entity.Fits resolve) (hsame : entity.sameContent other) : other.Fits resolve := by
  cases entity with
  | vertexSet set =>
    rw [sameContent_vertexSet_iff.1 hsame]
    exact h
  | edgeBundle bundle =>
    rw [sameContent_edgeBundle_iff.1 hsame]
    exact h
  | column type cells =>
    obtain ⟨cells', rfl, hcells⟩ := sameContent_column_iff.1 hsame
    obtain ⟨hset, hdefined, hsize, -⟩ := Attribute.sameContent_iff.1 hcells
    obtain ⟨set, hresolve, haligned⟩ := h
    refine ⟨set, by rw [← hset]; exact hresolve, ?_, ?_⟩
    · exact hsize.symm.trans haligned.length_values
    · rw [← hdefined]
      exact haligned.length_defined

end Entity

end GraphVault
