import GraphVault.Proofs.DecoderSoundness
import GraphVault.Proofs.SelfDelimiting

/-!
# Content is what is stored

Two entities have the same content exactly if the ordered layout stores them alike
(`Entity.sameContent_iff_stored`): the comparison and the writer leave out the same, namely what
stands at undefined positions. The comparison is an equivalence of all entities, also of columns that
fit nothing, so that it makes no difference whether a payload that two entities share is looked at;
and everything that is asked about an entity without its cells depends on its content alone.
-/

namespace GraphVault

open Wire (Codec)

namespace Attribute

variable {α : Type} {column other : Attribute α}

/-- The comparison of two columns by going through the defined cells of the first one. -/
def agrees [DecidableEq α] (column other : Attribute α) : Bool :=
  column.vertexSet = other.vertexSet && column.defined = other.defined
    && column.size = other.size
    && column.cells.all fun (position, value) => other.values[position]? = some value

/-- Columns that have the same marks and are equally long have the same cells as soon as every cell
of the one is found in the other. -/
theorem cells_eq_iff (hdefined : column.defined = other.defined) (hsize : column.size = other.size) :
    column.cells = other.cells ↔ ∀ cell ∈ column.cells, other.values[cell.1]? = some cell.2 := by
  constructor
  · intro hcells cell hcell
    rw [hcells] at hcell
    exact (mem_cells_iff.1 hcell).1
  · intro hfound
    refine eq_cells_of_perm ?_ other.pairwise_cells
    rw [List.perm_ext_iff_of_nodup column.nodup_cells other.nodup_cells]
    rintro ⟨position, value⟩
    constructor
    · intro hcell
      rw [mem_cells_iff, ← hdefined]
      exact ⟨hfound _ hcell, (mem_cells_iff.1 hcell).2⟩
    · intro hcell
      obtain ⟨hvalue, hmark⟩ := mem_cells_iff.1 hcell
      have hlt : position < column.values.length := by
        have hsize' : column.values.length = other.values.length := hsize
        rw [hsize']
        exact (List.getElem?_eq_some_iff.1 hvalue).1
      have hown : (position, column.values[position]) ∈ column.cells :=
        mem_cells_iff.2 ⟨List.getElem?_eq_getElem hlt, hdefined ▸ hmark⟩
      have hsame : column.values[position] = value :=
        Option.some.inj ((hfound _ hown).symm.trans hvalue)
      rwa [hsame] at hown

theorem agrees_eq_sameContent [DecidableEq α] : column.agrees other = column.sameContent other := by
  rw [Bool.eq_iff_iff, sameContent_iff]
  simp only [agrees, Bool.and_eq_true, decide_eq_true_iff, List.all_eq_true, and_assoc]
  refine and_congr_right fun _ => and_congr_right fun hdefined => and_congr_right fun hsize => ?_
  exact (cells_eq_iff hdefined hsize).symm

/-- The positions of the cells tell the marks. -/
theorem defined_eq_of_cells {size : Nat} (h : column.Aligned size) (h' : other.Aligned size)
    (hcells : column.cells = other.cells) : column.defined = other.defined := by
  apply List.ext_getElem
  · rw [h.length_defined, h'.length_defined]
  · intro position hlt hlt'
    have hmark : position ∈ _ ↔ _ := mem_positions_iff h
    rw [hcells, mem_positions_iff h', List.getElem?_eq_getElem hlt,
      List.getElem?_eq_getElem hlt', Option.some_inj, Option.some_inj] at hmark
    exact Bool.eq_iff_iff.2 hmark.symm

end Attribute

namespace Entity

/-- The comparison of two entities, of which `shared` says that they are known to have one payload
in common: then it is not looked at. -/
def agrees (shared : Bool) : Entity → Entity → Bool
  | vertexSet set, vertexSet other => shared || set = other
  | edgeBundle bundle, edgeBundle other => shared || bundle = other
  | column type cells, column otherType other =>
    if h : otherType = type then shared || cells.agrees (h ▸ other) else false
  | _, _ => false

theorem agrees_false_eq_sameContent (a b : Entity) : agrees false a b = a.sameContent b := by
  cases a with
  | vertexSet set => cases b <;> rfl
  | edgeBundle bundle => cases b <;> rfl
  | column type cells =>
    cases b with
    | vertexSet set => rfl
    | edgeBundle bundle => rfl
    | column otherType other =>
      simp only [agrees, sameContent, Attribute.agrees_eq_sameContent, Bool.false_or]

theorem agrees_self (shared : Bool) (a : Entity) : agrees shared a a = true := by
  have hself := agrees_false_eq_sameContent a a
  rw [sameContent_refl] at hself
  cases shared with
  | false => exact hself
  | true =>
    cases a with
    | vertexSet set => rfl
    | edgeBundle bundle => rfl
    | column type cells => simp [agrees]

theorem agrees_eq_sameContent {shared : Bool} {a b : Entity} (h : shared = true → a = b) :
    agrees shared a b = a.sameContent b := by
  cases shared with
  | false => exact agrees_false_eq_sameContent a b
  | true => rw [h rfl, agrees_self, sameContent_refl]

theorem sameContent_equivalence : Equivalence fun a b : Entity => a.sameContent b = true where
  refl := sameContent_refl
  symm := sameContent_symm
  trans := sameContent_trans

/-! ### What depends on the content alone -/

variable {a b : Entity}

theorem kind_eq_of_sameContent (h : a.sameContent b) : a.kind = b.kind := by
  cases a with
  | vertexSet set => rw [sameContent_vertexSet_iff.1 h]
  | edgeBundle bundle => rw [sameContent_edgeBundle_iff.1 h]
  | column type cells =>
    obtain ⟨cells', rfl, -⟩ := sameContent_column_iff.1 h
    rfl

theorem size_eq_of_sameContent (h : a.sameContent b) : a.size = b.size := by
  cases a with
  | vertexSet set => rw [sameContent_vertexSet_iff.1 h]
  | edgeBundle bundle => rw [sameContent_edgeBundle_iff.1 h]
  | column type cells =>
    obtain ⟨cells', rfl, hcells⟩ := sameContent_column_iff.1 h
    exact (Attribute.sameContent_iff.1 hcells).2.2.1

section Resolving

variable {m : Type → Type} [Monad m]

/-- Entities of the same content are accepted and refused alike, with the same failure. -/
theorem validate_eq_of_sameContent [MonadExceptOf Failure m] (h : a.sameContent b) (guid : Guid)
    (resolve : Guid → m VertexSet) : a.validate guid resolve = b.validate guid resolve := by
  cases a with
  | vertexSet set => rw [sameContent_vertexSet_iff.1 h]
  | edgeBundle bundle => rw [sameContent_edgeBundle_iff.1 h]
  | column type cells =>
    obtain ⟨cells', rfl, hcells⟩ := sameContent_column_iff.1 h
    obtain ⟨hset, hdefined, hsize, -⟩ := Attribute.sameContent_iff.1 hcells
    have hlength : cells.values.length = cells'.values.length := hsize
    simp only [validate, Attribute.validate, hset, hdefined, hlength]

theorem encode_eq_of_sameContent (h : a.sameContent b) (guid : Guid)
    (resolve : Guid → m VertexSet) :
    Ordered.encode guid a resolve = Ordered.encode guid b resolve := by
  cases a with
  | vertexSet set => rw [sameContent_vertexSet_iff.1 h]
  | edgeBundle bundle => rw [sameContent_edgeBundle_iff.1 h]
  | column type cells =>
    obtain ⟨cells', rfl, hsame⟩ := sameContent_column_iff.1 h
    obtain ⟨hset, hdefined, hsize, hcells⟩ := Attribute.sameContent_iff.1 hsame
    simp only [Ordered.encode, kind, Attribute.definedCount, hset, hdefined, hsize, hcells]

end Resolving

end Entity

/-! ### What is stored tells the content -/

namespace Ordered

variable {guid : Guid} {resolve : Guid → Except Failure VertexSet}

theorem edgeRow_injective : Function.Injective edgeRow := by
  rintro ⟨s, d, id⟩ ⟨s', d', id'⟩ h
  simp only [edgeRow, EdgeRow.mk.injEq] at h
  obtain ⟨rfl, hs, hd⟩ := h
  have hs' := congrArg Int64.toUInt64 hs
  have hd' := congrArg Int64.toUInt64 hd
  rw [UInt64.toUInt64_toInt64, UInt64.toUInt64_toInt64] at hs' hd'
  rw [hs', hd']

theorem encode_edgeBundle {bundle : EdgeBundle} {source destination : VertexSet}
    (hs : resolve bundle.sourceSet = .ok source)
    (hd : resolve bundle.destinationSet = .ok destination) :
    encode guid (.edgeBundle bundle) resolve = .ok
      ⟨⟨guid, .edgeBundle, UInt64.ofNat bundle.size,
        [⟨bundle.sourceSet, UInt64.ofNat source.size⟩,
          ⟨bundle.destinationSet, UInt64.ofNat destination.size⟩]⟩,
        RowFile.encode RowFile.edgeRow (bundle.edges.map edgeRow)⟩ := by
  simp only [encode, reference, hs, hd, bind, Except.bind, pure, Except.pure, Entity.kind]

theorem exists_encode (guid : Guid) {entity : Entity} (h : entity.Fits resolve) :
    ∃ stored, encode guid entity resolve = .ok stored := by
  cases entity with
  | vertexSet set => exact ⟨_, rfl⟩
  | edgeBundle bundle =>
    obtain ⟨source, destination, hs, hd, -⟩ := h
    exact ⟨_, encode_edgeBundle hs hd⟩
  | column type cells => exact ⟨_, rfl⟩

variable {a b : Entity} {stored : Stored}

private theorem vertexSet_eq_of_encode {set other : VertexSet} (hsized : set.size < 2 ^ 63)
    (hsized' : other.size < 2 ^ 63)
    (heq : encode guid (.vertexSet set) resolve = encode guid (.vertexSet other) resolve) :
    set = other := by
  have hrows : RowFile.encode RowFile.vertexRow set.mapping
      = RowFile.encode RowFile.vertexRow other.mapping :=
    congrArg Stored.rows (Except.ok.inj heq)
  have hlen : set.mapping.length < 2 ^ 64 := Nat.lt_trans hsized (by decide)
  have hlen' : other.mapping.length < 2 ^ 64 := Nat.lt_trans hsized' (by decide)
  have hmapping := RowFile.encode_injective hlen hlen' (fun id _ => Codec.restores_integer id)
    (fun id _ => Codec.restores_integer id) hrows
  cases set
  cases other
  rw [VertexSet.mk.injEq]
  exact hmapping

private theorem edgeBundle_eq_of_encode {bundle other : EdgeBundle}
    (h : (Entity.edgeBundle bundle).Fits resolve) (h' : (Entity.edgeBundle other).Fits resolve)
    (hsized : bundle.size < 2 ^ 63) (hsized' : other.size < 2 ^ 63)
    (heq : encode guid (.edgeBundle bundle) resolve = encode guid (.edgeBundle other) resolve) :
    bundle = other := by
  obtain ⟨source, destination, hs, hd, haligned⟩ := h
  obtain ⟨source', destination', hs', hd', haligned'⟩ := h'
  rw [encode_edgeBundle hs hd, encode_edgeBundle hs' hd'] at heq
  simp only [Except.ok.injEq, Stored.mk.injEq, Manifest.mk.injEq, List.cons.injEq,
    Reference.mk.injEq] at heq
  obtain ⟨⟨-, -, -, ⟨hsource, -⟩, ⟨hdestination, -⟩, -⟩, hrows⟩ := heq
  have hlen : (bundle.edges.map edgeRow).length < 2 ^ 64 := by
    rw [List.length_map, EdgeBundle.length_edges haligned]
    omega
  have hlen' : (other.edges.map edgeRow).length < 2 ^ 64 := by
    rw [List.length_map, EdgeBundle.length_edges haligned']
    omega
  have hmap := RowFile.encode_injective hlen hlen' (fun row _ => RowFile.restores_edgeRow row)
    (fun row _ => RowFile.restores_edgeRow row) hrows
  have hedges := List.map_injective_iff.2 edgeRow_injective hmap
  rw [← EdgeBundle.ofEdges_edges haligned, ← EdgeBundle.ofEdges_edges haligned', hsource,
    hdestination, hedges]

private theorem cells_eq_of_encode {type : ColumnType} {cells cells' : Attribute type.Cell}
    {size size' : Nat} (h : cells.Aligned size) (h' : cells'.Aligned size')
    (hsized : (Entity.column type cells).Sized) (hsized' : (Entity.column type cells').Sized)
    (hrows : RowFile.encode (RowFile.cellRow type) (cells.cells.map cellRow)
      = RowFile.encode (RowFile.cellRow type) (cells'.cells.map cellRow)) :
    cells.cells = cells'.cells := by
  have hcells : ∀ {column : Attribute type.Cell} {size : Nat}, column.Aligned size →
      (Entity.column type column).Sized →
        (column.cells.map cellRow).length < 2 ^ 64 ∧
        (∀ row ∈ column.cells.map cellRow, (RowFile.cellRow type).Restores row) ∧
        (column.cells.map cellRow).map cellOf = column.cells := by
    rintro column size haligned ⟨hsize, htexts⟩
    rw [Attribute.size, haligned.length_values] at hsize
    refine ⟨?_, ?_, ?_⟩
    · have hcount := Attribute.definedCount_le haligned
      rw [List.length_map, Attribute.length_cells haligned]
      omega
    · intro row hrow
      obtain ⟨cell, hcell, rfl⟩ := List.mem_map.1 hrow
      exact RowFile.restores_cellRow (htexts cell hcell)
    · rw [List.map_map]
      refine (List.map_congr_left fun cell hcell => ?_).trans (List.map_id _)
      exact cellOf_cellRow (Nat.lt_trans (haligned.position_lt hcell) hsize)
  obtain ⟨hlen, hrestores, hback⟩ := hcells h hsized
  obtain ⟨hlen', hrestores', hback'⟩ := hcells h' hsized'
  rw [← hback, ← hback', RowFile.encode_injective hlen hlen' hrestores hrestores' hrows]

/-- What is stored alike has the same content. -/
theorem sameContent_of_encode_eq (ha : a.Fits resolve) (hb : b.Fits resolve) (hsized : a.Sized)
    (hsized' : b.Sized) (hstored : encode guid a resolve = .ok stored)
    (hstored' : encode guid b resolve = .ok stored) : a.sameContent b := by
  have hkind : a.kind = b.kind :=
    (manifest_of_encode hstored).2.1.symm.trans (manifest_of_encode hstored').2.1
  have heq := hstored.trans hstored'.symm
  cases a with
  | vertexSet set =>
    cases b with
    | vertexSet other =>
      rw [vertexSet_eq_of_encode hsized hsized' heq]
      exact Entity.sameContent_refl _
    | edgeBundle other => cases hkind
    | column type other => cases hkind
  | edgeBundle bundle =>
    cases b with
    | vertexSet other => cases hkind
    | edgeBundle other =>
      rw [edgeBundle_eq_of_encode ha hb hsized hsized' heq]
      exact Entity.sameContent_refl _
    | column type other => cases hkind
  | column type cells =>
    cases b with
    | vertexSet other => cases hkind
    | edgeBundle other => cases hkind
    | column otherType cells' =>
      obtain rfl : type = otherType := Kind.column.inj hkind
      obtain ⟨set, hset, haligned⟩ := ha
      obtain ⟨set', hset', haligned'⟩ := hb
      have hwritten := Except.ok.inj heq
      have hvertexSet : cells.vertexSet = cells'.vertexSet := by
        have hreferences := congrArg (fun s : Stored => s.manifest.references.map (·.guid)) hwritten
        exact List.singleton_inj.1 hreferences
      rw [hvertexSet, hset', Except.ok.injEq] at hset
      subst hset
      have hcells := cells_eq_of_encode haligned haligned' hsized hsized'
        (congrArg Stored.rows hwritten)
      have hsize : cells.size = cells'.size :=
        haligned.length_values.trans haligned'.length_values.symm
      exact Entity.sameContent_column_iff.2 ⟨cells', rfl, Attribute.sameContent_iff.2
        ⟨hvertexSet, Attribute.defined_eq_of_cells haligned haligned' hcells, hsize, hcells⟩⟩

end Ordered

/-- Having the same content is an equivalence, whether or not a shared payload is looked at. It
decides everything that is asked about an entity without its cells, and of entities that fit the
vertex sets that one resolver finds, those have the same content that are stored alike. -/
theorem Entity.sameContent_iff_stored :
    (Equivalence fun a b : Entity => a.sameContent b = true) ∧
      (∀ (shared : Bool) (a b : Entity), (shared = true → a = b) →
        a.agrees shared b = a.sameContent b) ∧
      (∀ a b : Entity, a.sameContent b → a.kind = b.kind ∧ a.size = b.size ∧
        a.references = b.references ∧
        ∀ (m : Type → Type) [Monad m] [MonadExceptOf Failure m] (guid : Guid)
          (resolve : Guid → m VertexSet), a.validate guid resolve = b.validate guid resolve) ∧
      ∀ (a b : Entity) (guid : Guid) (resolve : Guid → Except Failure VertexSet),
        a.validate guid resolve = .ok () → b.validate guid resolve = .ok () → a.Sized → b.Sized →
          (a.sameContent b ↔ ∃ stored, Ordered.encode guid a resolve = .ok stored ∧
            Ordered.encode guid b resolve = .ok stored) := by
  refine ⟨sameContent_equivalence, fun shared a b h => agrees_eq_sameContent h, ?_, ?_⟩
  · intro a b h
    exact ⟨kind_eq_of_sameContent h, size_eq_of_sameContent h, references_eq_of_sameContent h,
      fun m _ _ guid resolve => validate_eq_of_sameContent h guid resolve⟩
  · intro a b guid resolve ha hb hsized hsized'
    have hfits := validate_eq_ok_iff.1 ha
    have hfits' := validate_eq_ok_iff.1 hb
    constructor
    · intro h
      obtain ⟨stored, hstored⟩ := Ordered.exists_encode guid hfits
      exact ⟨stored, hstored, (encode_eq_of_sameContent h guid resolve) ▸ hstored⟩
    · rintro ⟨stored, hstored, hstored'⟩
      exact Ordered.sameContent_of_encode_eq hfits hfits' hsized hsized' hstored hstored'

/-- A NaN equals itself and undefined positions do not count, but the two zeros differ. -/
theorem Entity.sameContent_iff_stored_zeros :
    let resolve : Guid → Except Failure VertexSet := fun _ => .ok ⟨[7, 8]⟩
    let column (first second : Double) : Entity :=
      .column .double ⟨[first, second], [true, false], Guid.filled 2⟩
    let nan : Double := ⟨0x7FF8000000000001⟩
    let negativeZero : Double := ⟨0x8000000000000000⟩
    (column nan nan).agrees true (column nan nan) = true ∧
      (∃ stored, Ordered.encode (Guid.filled 1) (column nan nan) resolve = .ok stored ∧
        Ordered.encode (Guid.filled 1) (column nan Double.zero) resolve = .ok stored) ∧
      ¬ ∃ stored,
        Ordered.encode (Guid.filled 1) (column Double.zero nan) resolve = .ok stored ∧
          Ordered.encode (Guid.filled 1) (column negativeZero nan) resolve = .ok stored := by
  intro resolve column nan negativeZero
  obtain ⟨-, hshared, -, hstored⟩ := sameContent_iff_stored
  have hvalid (x y : Double) : (column x y).validate (Guid.filled 1) resolve = .ok () := rfl
  have hsized (x y : Double) : (column x y).Sized :=
    ⟨show 2 < 2 ^ 63 by decide, fun _ _ => show 0 < 2 ^ 64 by decide⟩
  have halike (x y x' y' : Double) := hstored (column x y) (column x' y') (Guid.filled 1) resolve
    (hvalid x y) (hvalid x' y') (hsized x y) (hsized x' y')
  refine ⟨?_, (halike nan nan nan Double.zero).1 (by decide), ?_⟩
  · rw [hshared true (column nan nan) (column nan nan) fun _ => rfl]
    decide
  · rw [← halike Double.zero nan negativeZero nan]
    decide

end GraphVault
