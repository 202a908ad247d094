import GraphVault.Format.Unordered
import GraphVault.Proofs.DirectoryContents
import GraphVault.Proofs.OrderedRoundTrip

/-!
# What guids stand for

An assignment says which entity each guid stands for. If every entity of it fits the vertex sets of
it, then there is one copy of each that can be written, and what is read from a copy has the content
that was assigned.
-/

namespace GraphVault

/-- The entities that guids stand for. -/
abbrev Assignment := Guid → Option Entity

namespace Assignment

variable {c : Assignment}

/-- The vertex set that a guid stands for. -/
def resolver (c : Assignment) (guid : Guid) : Except Failure VertexSet :=
  match c guid with
  | some entity => entity.asVertexSet guid
  | none => .error (.missingEntity guid)

/-- An entity has the content that a guid stands for. -/
def Means (c : Assignment) (guid : Guid) (entity : Entity) : Prop :=
  ∃ assigned, c guid = some assigned ∧ assigned.sameContent entity

/-- The copy of what a guid stands for. -/
def copy (c : Assignment) (guid : Guid) : Option Stored :=
  match c guid with
  | some entity => (Ordered.encode guid entity c.resolver).toOption
  | none => none

/-- What is assigned fits the vertex sets that are assigned, and can be counted. -/
structure Coherent (c : Assignment) : Prop where
  fits : ∀ guid entity, c guid = some entity → entity.Fits c.resolver
  sized : ∀ guid entity, c guid = some entity → entity.Sized

theorem resolver_eq_ok_iff {guid : Guid} {set : VertexSet} :
    c.resolver guid = .ok set ↔ c guid = some (.vertexSet set) := by
  unfold resolver
  split
  · rename_i entity h
    cases entity <;> simp [h, Entity.asVertexSet]
  · rename_i h
    simp [h]

theorem means_of_eq {guid : Guid} {entity : Entity} (h : c guid = some entity) :
    c.Means guid entity := ⟨entity, h, Entity.sameContent_refl entity⟩

theorem Means.trans {guid : Guid} {entity other : Entity} (h : c.Means guid entity)
    (hsame : entity.sameContent other) : c.Means guid other := by
  obtain ⟨assigned, hassigned, hcontent⟩ := h
  exact ⟨assigned, hassigned, Entity.sameContent_trans hcontent hsame⟩

/-- A guid stands for one content. -/
theorem Means.sameContent {guid : Guid} {entity other : Entity} (h : c.Means guid entity)
    (h' : c.Means guid other) : entity.sameContent other := by
  obtain ⟨assigned, hassigned, hcontent⟩ := h
  obtain ⟨assigned', hassigned', hcontent'⟩ := h'
  rw [hassigned, Option.some.injEq] at hassigned'
  subst hassigned'
  exact Entity.sameContent_trans (Entity.sameContent_symm hcontent) hcontent'

theorem Means.fits {guid : Guid} {entity : Entity} (h : c.Means guid entity) (hc : c.Coherent) :
    entity.Fits c.resolver := by
  obtain ⟨assigned, hassigned, hcontent⟩ := h
  exact (hc.fits guid assigned hassigned).of_sameContent hcontent

theorem Means.eq_vertexSet {guid : Guid} {entity : Entity} {set : VertexSet}
    (h : c.Means guid entity) (hset : c guid = some (.vertexSet set)) : entity = .vertexSet set := by
  obtain ⟨assigned, hassigned, hcontent⟩ := h
  rw [hset, Option.some.injEq] at hassigned
  subst hassigned
  exact Entity.sameContent_vertexSet_iff.1 hcontent

end Assignment

/-! ### Copies -/

namespace Ordered

/-- What is written depends on the content alone. -/
theorem encode_congr {m : Type → Type} [Monad m] {entity other : Entity}
    (h : entity.sameContent other) (guid : Guid) (resolve : Guid → m VertexSet) :
    encode guid entity resolve = encode guid other resolve := by
  cases entity with
  | vertexSet set => rw [Entity.sameContent_vertexSet_iff.1 h]
  | edgeBundle bundle => rw [Entity.sameContent_edgeBundle_iff.1 h]
  | column type cells =>
    obtain ⟨cells', rfl, hcells⟩ := Entity.sameContent_column_iff.1 h
    obtain ⟨hset, hdefined, hsize, hrows⟩ := Attribute.sameContent_iff.1 hcells
    simp only [encode, Entity.kind, Attribute.definedCount, hset, hdefined, hsize, hrows]

/-- A manifest refers to the vertex sets that the entity refers to. -/
theorem mem_references_of_encode {guid : Guid} {entity : Entity}
    {resolve : Guid → Except Failure VertexSet} {stored : Stored}
    (h : encode guid entity resolve = .ok stored) :
    stored.manifest.references.length ≤ 2 ∧
      ∀ r ∈ stored.manifest.references, r.guid ∈ entity.references := by
  cases entity with
  | vertexSet set =>
    cases h
    simp
  | edgeBundle bundle =>
    simp only [encode, reference, bind_eq_ok_iff] at h
    obtain ⟨source, ⟨set, -, hsource⟩, destination, ⟨set', -, hdestination⟩, h⟩ := h
    cases hsource
    cases hdestination
    cases h
    refine ⟨Nat.le_refl 2, fun r hr => ?_⟩
    rw [Entity.mem_references_edgeBundle]
    cases List.mem_cons.1 hr with
    | inl heq => exact .inl (by rw [heq])
    | inr hr => exact .inr (by rw [List.mem_singleton.1 hr])
  | column type cells =>
    cases h
    refine ⟨by simp, fun r hr => ?_⟩
    rw [Entity.mem_references_column, List.mem_singleton.1 hr]

/-- What is written stays the same if more vertex sets are found. -/
theorem encode_mono {resolve resolve' : Guid → Except Failure VertexSet}
    (h : ∀ g set, resolve g = .ok set → resolve' g = .ok set) {guid : Guid} {entity : Entity}
    {stored : Stored} (hencode : encode guid entity resolve = .ok stored) :
    encode guid entity resolve' = .ok stored := by
  cases entity with
  | vertexSet set => exact hencode
  | edgeBundle bundle =>
    simp only [encode, reference, bind_eq_ok_iff] at hencode ⊢
    obtain ⟨source, ⟨set, hset, hsource⟩, destination, ⟨set', hset', hdestination⟩, hencode⟩ :=
      hencode
    exact ⟨source, ⟨set, h _ _ hset, hsource⟩, destination, ⟨set', h _ _ hset', hdestination⟩,
      hencode⟩
  | column type cells => exact hencode

end Ordered

namespace Assignment

variable {c : Assignment}

/-- Whatever is assigned has a copy, from which its content is read back. -/
theorem Coherent.exists_copy (hc : c.Coherent) {guid : Guid} {entity : Entity}
    (h : c guid = some entity) :
    ∃ stored, c.copy guid = some stored ∧ Ordered.encode guid entity c.resolver = .ok stored ∧
      stored.manifest.guid = guid ∧ stored.manifest.rowCount = UInt64.ofNat entity.rowCount ∧
      ∃ found, Ordered.decode stored c.resolver = .ok found ∧ c.Means guid found := by
  have hfits := hc.fits guid entity h
  have hsets : ∀ g ∈ entity.references, ∀ set, c.resolver g = .ok set → set.size < 2 ^ 63 := by
    intro g _ set hset
    exact hc.sized g _ (resolver_eq_ok_iff.1 hset)
  obtain ⟨stored, hencode, hdecode, hguid, -, hcount⟩ :=
    Ordered.exists_encode_decode guid hfits (hc.sized guid entity h) hsets
  have hcopy : c.copy guid = some stored := by
    rw [copy, h]
    simp only [hencode]
    rfl
  have hsame := Entity.sameContent_symm (Entity.settled_sameContent hfits)
  exact ⟨stored, hcopy, hencode, hguid, hcount, _, hdecode, (means_of_eq h).trans hsame⟩

theorem exists_of_copy {guid : Guid} {stored : Stored} (h : c.copy guid = some stored) :
    ∃ entity, c guid = some entity ∧ Ordered.encode guid entity c.resolver = .ok stored := by
  unfold copy at h
  split at h
  · rename_i entity hentity
    refine ⟨entity, hentity, ?_⟩
    cases hencode : Ordered.encode guid entity c.resolver with
    | ok found =>
      rw [hencode] at h
      exact congrArg _ (Option.some.inj h)
    | error failure =>
      rw [hencode] at h
      cases h
  · cases h

/-- A copy stays the same if more is assigned. -/
theorem copy_mono {c' : Assignment} (h : ∀ g entity, c g = some entity → c' g = some entity)
    {guid : Guid} {stored : Stored} (hcopy : c.copy guid = some stored) :
    c'.copy guid = some stored := by
  obtain ⟨entity, hentity, hencode⟩ := exists_of_copy hcopy
  have hresolver : ∀ g set, c.resolver g = .ok set → c'.resolver g = .ok set := by
    intro g set hset
    exact resolver_eq_ok_iff.2 (h g _ (resolver_eq_ok_iff.1 hset))
  have hencode' := Ordered.encode_mono hresolver hencode
  unfold copy
  simp only [h guid entity hentity, hencode']
  rfl

/-- What has the content that is assigned is written as the copy. -/
theorem Means.encode {guid : Guid} {entity : Entity} (h : c.Means guid entity) (hc : c.Coherent) :
    ∃ stored, c.copy guid = some stored ∧ Ordered.encode guid entity c.resolver = .ok stored ∧
      stored.manifest.guid = guid := by
  obtain ⟨assigned, hassigned, hcontent⟩ := h
  obtain ⟨stored, hcopy, hencode, hguid, -⟩ := hc.exists_copy hassigned
  rw [Ordered.encode_congr hcontent] at hencode
  exact ⟨stored, hcopy, hencode, hguid⟩

/-- What is read from a copy has the content that is assigned. -/
theorem Coherent.decode_copy (hc : c.Coherent) {guid : Guid} {stored : Stored}
    (h : c.copy guid = some stored) :
    stored.manifest.guid = guid ∧
      ∃ found, Ordered.decode stored c.resolver = .ok found ∧ c.Means guid found := by
  obtain ⟨entity, hentity, -⟩ := exists_of_copy h
  obtain ⟨stored', hcopy, -, hguid, -, hdecode⟩ := hc.exists_copy hentity
  rw [h, Option.some.injEq] at hcopy
  subst hcopy
  exact ⟨hguid, hdecode⟩

theorem Coherent.filed (hc : c.Coherent) : EntityDirectory.Filed c.copy := by
  intro guid stored hcopy
  obtain ⟨entity, -, hencode⟩ := exists_of_copy hcopy
  have hlength := (Ordered.mem_references_of_encode hencode).1
  exact ⟨(hc.decode_copy hcopy).1, by omega⟩

/-- A copy refers to what stands for vertex sets. -/
theorem Coherent.references_copy (hc : c.Coherent) {guid : Guid} {stored : Stored}
    (h : c.copy guid = some stored) {r : Reference} (hr : r ∈ stored.manifest.references) :
    ∃ entity set, c guid = some entity ∧ r.guid ∈ entity.references ∧
      c r.guid = some (.vertexSet set) := by
  obtain ⟨entity, hentity, hencode⟩ := exists_of_copy h
  have hmem := (Ordered.mem_references_of_encode hencode).2 r hr
  obtain ⟨set, hset⟩ := (hc.fits guid entity hentity).resolved hmem
  exact ⟨entity, set, hentity, hmem, resolver_eq_ok_iff.1 hset⟩

end Assignment

/-! ### Exchange copies -/

namespace Unordered

private theorem exists_rows {ε α β : Type} {f : α → Except ε β} {items : List α}
    (h : ∀ a ∈ items, ∃ b, f a = .ok b) : ∃ bs, items.mapM f = .ok bs := by
  induction items with
  | nil => exact ⟨[], rfl⟩
  | cons a items ih =>
    obtain ⟨b, hb⟩ := h a List.mem_cons_self
    obtain ⟨bs, hbs⟩ := ih fun a' ha' => h a' (List.mem_cons_of_mem _ ha')
    refine ⟨b :: bs, ?_⟩
    rw [List.mapM_cons, hb, hbs]
    rfl

private theorem exists_external {set : VertexSet} {position : Nat} (h : position < set.size) :
    ∃ id, external set position = .ok id := by
  refine ⟨set.mapping.get ⟨position, h⟩, ?_⟩
  rw [external, VertexSet.externalId, List.getElem?_eq_getElem h]
  rfl

/-- Edges that are aligned have external ids at both ends. -/
theorem exists_edgeRows {bundle : EdgeBundle} {source destination : VertexSet}
    (h : bundle.Aligned source.size destination.size) :
    ∃ rows, bundle.edges.mapM (edgeRow source destination) = .ok rows := by
  refine exists_rows fun e he => ?_
  obtain ⟨hsource, hdestination⟩ := h.edge_lt he
  obtain ⟨s, hs⟩ := exists_external hsource
  obtain ⟨d, hd⟩ := exists_external hdestination
  refine ⟨⟨e.id, s, d⟩, ?_⟩
  rw [edgeRow, hs, hd]
  rfl

theorem exists_cellRows {α : Type} {cells : Attribute α} {set : VertexSet}
    (h : cells.Aligned set.size) : ∃ rows, cells.cells.mapM (cellRow set) = .ok rows := by
  refine exists_rows fun cell hcell => ?_
  obtain ⟨id, hid⟩ := exists_external (h.position_lt hcell)
  refine ⟨(id, cell.2), ?_⟩
  rw [cellRow, hid]
  rfl

/-- What fits has external ids at all its positions, so that it can be written for exchange. -/
theorem exists_encode (guid : Guid) {entity : Entity} {resolve : Guid → Except Failure VertexSet}
    (h : entity.Fits resolve) :
    ∃ stored, encode guid entity resolve = .ok stored := by
  cases entity with
  | vertexSet set => exact ⟨_, rfl⟩
  | edgeBundle bundle =>
    obtain ⟨source, destination, hs, hd, haligned⟩ := h
    obtain ⟨rows, hrows⟩ := exists_edgeRows haligned
    simp [encode, hs, hd, hrows, bind, Except.bind, pure, Except.pure]
  | column type cells =>
    obtain ⟨set, hset, haligned⟩ := h
    obtain ⟨rows, hrows⟩ := exists_cellRows haligned
    simp [encode, hset, hrows, bind, Except.bind, pure, Except.pure]

end Unordered

/-! ### Work that looks up vertex sets -/

section Follows

variable {σ : Type} {inv : σ → Prop} {tolerated : Failure → Prop}
  {resolver : Guid → Except Failure VertexSet} {resolve : Guid → EStateM Failure σ VertexSet}

theorem Entity.follows_validate {entity : Entity}
    (h : ∀ g ∈ entity.references, Follows inv tolerated (resolver g) (resolve g)) (guid : Guid) :
    Follows inv tolerated (entity.validate guid resolver) (entity.validate guid resolve) := by
  cases entity with
  | vertexSet set => exact .ofExcept _
  | edgeBundle bundle =>
    have hsource := h _ (mem_references_edgeBundle.2 (.inl rfl))
    have hdestination := h _ (mem_references_edgeBundle.2 (.inr rfl))
    exact .bind hsource fun _ => .bind hdestination fun _ => .ofExcept _
  | column type cells =>
    have hset := h _ (mem_references_column.2 rfl)
    exact .bind hset fun _ => .ofExcept _

variable (h : ∀ g, Follows inv tolerated (resolver g) (resolve g))
include h

theorem Ordered.follows_encode (guid : Guid) (entity : Entity) :
    Follows inv tolerated (encode guid entity resolver) (encode guid entity resolve) := by
  cases entity with
  | vertexSet set => exact .pure _
  | edgeBundle bundle =>
    have hreference (g : Guid) :
        Follows inv tolerated (reference g resolver) (reference g resolve) :=
      .bind (h g) fun _ => .pure _
    exact .bind (hreference _) fun _ => .bind (hreference _) fun _ => .pure _
  | column type cells => exact .pure _

private theorem follows_resolve (reference : Reference) (guid : Guid) :
    Follows inv tolerated (reference.resolve guid resolver) (reference.resolve guid resolve) := by
  refine .bind (h _) fun set => ?_
  split
  · exact .bind (.throw _) fun _ => .pure _
  · exact .pure _

theorem Ordered.follows_decode (stored : Stored) :
    Follows inv tolerated (decode stored resolver) (decode stored resolve) := by
  unfold decode
  dsimp only
  split
  · exact .bind (.ofExcept _) fun _ => .pure _
  · refine .bind (.ofExcept _) fun source => .bind (.ofExcept _) fun destination => ?_
    refine .bind (follows_resolve h _ _) fun _ => .bind (follows_resolve h _ _) fun _ => ?_
    exact .bind (.ofExcept _) fun _ => .bind (.ofExcept _) fun _ => .pure _
  · refine .bind (.ofExcept _) fun set => .bind (follows_resolve h _ _) fun _ => ?_
    exact .bind (.ofExcept _) fun _ => .bind (.ofExcept _) fun _ => .pure _

theorem Unordered.follows_encode (guid : Guid) (entity : Entity) :
    Follows inv tolerated (encode guid entity resolver) (encode guid entity resolve) := by
  cases entity with
  | vertexSet set => exact .pure _
  | edgeBundle bundle =>
    exact .bind (h _) fun _ => .bind (h _) fun _ => .bind (.ofExcept _) fun _ => .pure _
  | column type cells => exact .bind (h _) fun _ => .bind (.ofExcept _) fun _ => .pure _

theorem Unordered.follows_decode (stored : Stored) :
    Follows inv tolerated (decode stored resolver) (decode stored resolve) := by
  unfold decode
  dsimp only
  split
  · exact .bind (.ofExcept _) fun _ => .bind (.ofExcept _) fun _ => .pure _
  · refine .bind (.ofExcept _) fun source => .bind (.ofExcept _) fun destination => ?_
    refine .bind (follows_resolve h _ _) fun _ => .bind (follows_resolve h _ _) fun _ => ?_
    exact .bind (.ofExcept _) fun _ => .bind (.ofExcept _) fun _ => .pure _
  · refine .bind (.ofExcept _) fun set => .bind (follows_resolve h _ _) fun _ => ?_
    exact .bind (.ofExcept _) fun _ => .bind (.ofExcept _) fun _ => .pure _

end Follows

end GraphVault
