import GraphVault.Proofs.DecoderSoundness
import GraphVault.Proofs.SelfDelimiting
import Mathlib.Order.Bounds.Defs

/-!
# The order of unordered rows

Reading the unordered layout assigns positions itself, so that the order in which the rows come does
not matter (`Unordered.decode_of_perm`): whether they are accepted does not depend on it, a vertex set
and a column do not, and an edge bundle does only where edges share an id. Vertex sets that repeat an
id are refused by the smallest one, whichever comes first.
-/

namespace GraphVault

namespace Attribute

variable {α : Type}

theorem ofCells_eq_of_perm (placeholder : α) {size : Nat} (vertexSet : Guid)
    {cells cells' : List (Nat × α)} (hperm : cells.Perm cells') (hlt : ∀ cell ∈ cells, cell.1 < size)
    (hnodup : (cells.map (·.1)).Nodup) :
    ofCells placeholder size vertexSet cells = ofCells placeholder size vertexSet cells' := by
  have hlt' : ∀ cell ∈ cells', cell.1 < size := fun cell hcell => hlt cell (hperm.mem_iff.2 hcell)
  have hnodup' : (cells'.map (·.1)).Nodup := (hperm.map _).nodup_iff.1 hnodup
  have hcells := cells_ofCells_perm placeholder size vertexSet hlt hnodup
  have hcells' := cells_ofCells_perm placeholder size vertexSet hlt' hnodup'
  rw [← settled_ofCells placeholder size vertexSet cells,
    ← settled_ofCells placeholder size vertexSet cells']
  refine settled_eq_of_cells placeholder (aligned_ofCells _ _ _ _) (aligned_ofCells _ _ _ _) ?_ ?_
  · rw [vertexSet_ofCells, vertexSet_ofCells]
  · exact eq_cells_of_perm (hcells.trans (hperm.trans hcells'.symm)) (pairwise_cells _)

end Attribute

/-- The field that every row has: an external id, the id of an edge, or what a cell belongs to. -/
def Kind.rowId : (kind : Kind) → kind.Row → Int64
  | vertexSet, id => id
  | edgeBundle, row => row.id
  | column _, row => row.1

/-- The manifest together with the file of the given rows. -/
def Stored.ofRows (manifest : Manifest) (rows : List manifest.kind.Row) : Stored :=
  ⟨manifest, RowFile.encode manifest.kind.rowCodec rows⟩

theorem RowFile.Writable.of_perm {kind : Kind} {rows rows' : List kind.Row} (h : Writable rows)
    (hperm : rows.Perm rows') : Writable rows' where
  length_lt := hperm.length_eq ▸ h.length_lt
  text_lt row hrow := h.text_lt row (hperm.mem_iff.2 hrow)

/-- The file of rows is read if it is read for their number. -/
theorem RowFile.decode_encode_eq {kind : Kind} {rows : List kind.Row} (h : Writable rows)
    (guid : Guid) (count : UInt64) :
    decode kind.rowCodec guid count (encode kind.rowCodec rows) =
      if count.toNat = rows.length then .ok rows
      else .error (.missingRows guid count.toNat rows.length) := by
  split
  · rename_i hcount
    have hread := (decode_exact h guid).1
    rwa [← hcount, UInt64.ofNat_toNat] at hread
  · rename_i hcount
    exact decode_miscounted h.length_lt hcount

theorem RowFile.decode_encode_eq_ok_iff {kind : Kind} {rows read : List kind.Row}
    (h : Writable rows) (guid : Guid) {count : UInt64} :
    decode kind.rowCodec guid count (encode kind.rowCodec rows) = .ok read ↔
      count.toNat = rows.length ∧ read = rows := by
  rw [decode_encode_eq h]
  split
  · rename_i hcount
    simp [hcount, eq_comm]
  · rename_i hcount
    simp [hcount]

namespace Unordered

variable {guid : Guid} {resolve : Guid → Except Failure VertexSet} {count : UInt64}
  {references : List Reference}

/-! ### Vertex sets -/

theorem ascending_eq_of_perm {ids ids' : List Int64} (hperm : ids.Perm ids') :
    ascending ids = ascending ids' :=
  List.Perm.eq_of_pairwise (fun _ _ _ _ => Int64.le_antisymm) (pairwise_ascending ids)
    (pairwise_ascending ids') ((ascending_perm ids).trans (hperm.trans (ascending_perm ids').symm))

theorem sorted_eq_of_perm {ids ids' : List Int64} (hperm : ids.Perm ids') :
    sorted guid ids = sorted guid ids' := by
  have hsame := ascending_eq_of_perm hperm
  unfold ascending at hsame
  unfold sorted
  rw [hsame]

/-- In increasing order, the first of two equal neighbours is the smallest id that is repeated. -/
private theorem isLeast_of_firstDouble {ids : List Int64} (hsorted : ids.Pairwise (· ≤ ·))
    {id : Int64} (h : firstDouble ids = some id) : IsLeast {x | 2 ≤ ids.count x} id := by
  induction ids with
  | nil => cases h
  | cons a rest ih =>
    cases rest with
    | nil => cases h
    | cons b rest =>
      obtain ⟨hhead, htail⟩ := List.pairwise_cons.1 hsorted
      rw [firstDouble] at h
      split at h
      · rename_i hab
        cases h
        constructor
        · simp [hab]
        · intro x hx
          have hmem := List.count_pos_iff.1 (Nat.lt_of_lt_of_le Nat.zero_lt_two hx)
          cases List.mem_cons.1 hmem with
          | inl heq => exact heq ▸ Int64.le_refl _
          | inr hx => exact hhead x hx
      · rename_i hab
        obtain ⟨hrepeated, hleast⟩ := ih htail h
        constructor
        · exact Nat.le_trans hrepeated List.count_le_count_cons
        · intro x hx
          -- the first id is smaller than all others, so that it is not repeated itself
          have hne : a ≠ x := by
            rintro rfl
            have hx' : 2 ≤ (a :: b :: rest).count a := hx
            rw [List.count_cons_self] at hx'
            have hmem : a ∈ b :: rest := List.count_pos_iff.1 (by omega)
            cases List.mem_cons.1 hmem with
            | inl heq => exact hab heq
            | inr hrest =>
              have hba := (List.pairwise_cons.1 htail).1 a hrest
              exact hab (Int64.le_antisymm (hhead b List.mem_cons_self) hba)
          have hx' : 2 ≤ (a :: b :: rest).count x := hx
          rw [List.count_cons_of_ne hne] at hx'
          exact hleast hx'

/-- Repeated ids are refused by the smallest of them. -/
theorem sorted_of_not_nodup {ids : List Int64} (h : ¬ ids.Nodup) (guid : Guid) :
    ∃ id, IsLeast {x | 2 ≤ ids.count x} id ∧
      sorted guid ids = .error (.duplicateExternalId guid id) := by
  have hcount (x : Int64) : (ascending ids).count x = ids.count x := (ascending_perm ids).count_eq x
  cases hfirst : firstDouble (ascending ids) with
  | none =>
    have hsorted : sorted guid ids = .ok ⟨ascending ids⟩ := by
      unfold ascending at hfirst ⊢
      simp only [sorted, hfirst]
    exact absurd (sorted_eq_ok_iff.1 hsorted).1 h
  | some id =>
    have hleast := isLeast_of_firstDouble (pairwise_ascending ids) hfirst
    simp only [hcount] at hleast
    refine ⟨id, hleast, ?_⟩
    unfold ascending at hfirst
    simp only [sorted, hfirst]

theorem decode_ofRows_vertexSet {ids : List Int64}
    (h : RowFile.Writable (show List Kind.vertexSet.Row from ids)) :
    decode (.ofRows ⟨guid, .vertexSet, count, references⟩ ids) resolve =
      if count.toNat = ids.length then do return .vertexSet (← sorted guid ids)
      else .error (.missingRows guid count.toNat ids.length) := by
  have hread : RowFile.decode RowFile.vertexRow guid count (RowFile.encode RowFile.vertexRow ids)
      = if count.toNat = ids.length then .ok ids
        else .error (.missingRows guid count.toNat ids.length) :=
    RowFile.decode_encode_eq h guid count
  have hdecode : decode (.ofRows ⟨guid, .vertexSet, count, references⟩ ids) resolve = do
      let ids ← RowFile.decode RowFile.vertexRow guid count (RowFile.encode RowFile.vertexRow ids)
      return .vertexSet (← sorted guid ids) := by
    simp only [decode, Stored.ofRows, ofExcept_eq]
    rfl
  rw [hdecode, hread]
  split <;> rfl

/-! ### Edges -/

/-- Edges of distinct ids have one order by id. -/
theorem byId_eq_of_perm {es es' : List Edge} (hperm : es.Perm es')
    (hnodup : (es.map (·.id)).Nodup) : byId es = byId es' := by
  refine List.Perm.eq_of_pairwise ?_ (pairwise_byId es) (pairwise_byId es')
    ((byId_perm es).trans (hperm.trans (byId_perm es').symm))
  intro e e' he he' hle hge
  have hmem := (byId_perm es).mem_iff.1 he
  have hmem' := hperm.mem_iff.2 ((byId_perm es').mem_iff.1 he')
  exact List.inj_on_of_nodup_map hnodup hmem hmem' (Int64.le_antisymm hle hge)

/-! ### All kinds -/

/-- What two readings of one manifest have in common whose rows differ in their order only. -/
structure OrderFree (manifest : Manifest) (rows : List manifest.kind.Row)
    (result result' : Except Failure Entity) : Prop where
  succeeds : (∃ entity, result = .ok entity) ↔ ∃ entity, result' = .ok entity
  identical : manifest.kind ≠ .edgeBundle → ∀ entity entity', result = .ok entity →
    result' = .ok entity' → entity = entity'
  increasing : ∀ set, result = .ok (.vertexSet set) → set.mapping.Pairwise (· < ·)
  /-- Vertex sets are refused with one and the same failure. -/
  refused : manifest.kind = .vertexSet → result = result'
  repeated : manifest.kind = .vertexSet → manifest.rowCount.toNat = rows.length →
    ¬ (rows.map manifest.kind.rowId).Nodup →
    ∃ id, IsLeast {x | 2 ≤ (rows.map manifest.kind.rowId).count x} id ∧
      result = .error (.duplicateExternalId manifest.guid id)
  miscounted : manifest.kind = .vertexSet → manifest.rowCount.toNat ≠ rows.length →
    result = .error (.missingRows manifest.guid manifest.rowCount.toNat rows.length)
  edges : manifest.kind = .edgeBundle → ∀ entity entity', result = .ok entity →
    result' = .ok entity' → ∃ source destination es es',
      entity = .edgeBundle (.ofEdges source destination es) ∧
      entity' = .edgeBundle (.ofEdges source destination es') ∧ es.Perm es' ∧
      (es.Pairwise fun a b => a.id ≤ b.id) ∧ (es'.Pairwise fun a b => a.id ≤ b.id) ∧
      ((rows.map manifest.kind.rowId).Nodup → entity = entity')

section VertexSets

variable {ids ids' : List Int64}

private theorem orderFree_vertexSet
    (h : RowFile.Writable (show List Kind.vertexSet.Row from ids)) (hperm : ids.Perm ids') :
    OrderFree ⟨guid, .vertexSet, count, references⟩ ids
      (decode (.ofRows ⟨guid, .vertexSet, count, references⟩ ids) resolve)
      (decode (.ofRows ⟨guid, .vertexSet, count, references⟩ ids') resolve) := by
  have hsame : decode (.ofRows ⟨guid, .vertexSet, count, references⟩ ids) resolve
      = decode (.ofRows ⟨guid, .vertexSet, count, references⟩ ids') resolve := by
    rw [decode_ofRows_vertexSet h, decode_ofRows_vertexSet (h.of_perm hperm),
      sorted_eq_of_perm hperm, hperm.length_eq]
  rw [← hsame, decode_ofRows_vertexSet h]
  constructor
  case succeeds => exact Iff.rfl
  case identical =>
    intro _ entity entity' hentity hentity'
    exact Except.ok.inj (hentity.symm.trans hentity')
  case increasing =>
    intro set hset
    split at hset
    · obtain ⟨set', hsorted, heq⟩ := bind_eq_ok_iff.1 hset
      cases heq
      obtain ⟨hnodup, rfl⟩ := sorted_eq_ok_iff.1 hsorted
      exact pairwise_lt_ascending hnodup
    · cases hset
  case refused => exact fun _ => rfl
  case repeated =>
    intro _ hcount hrepeated
    have hids : ids.map Kind.vertexSet.rowId = ids := List.map_id ids
    rw [hids] at hrepeated ⊢
    obtain ⟨id, hleast, hsorted⟩ := sorted_of_not_nodup hrepeated guid
    refine ⟨id, hleast, ?_⟩
    have hcount' : count.toNat = ids.length := hcount
    rw [if_pos hcount', hsorted]
    rfl
  case miscounted =>
    intro _ hcount
    have hcount' : count.toNat ≠ ids.length := hcount
    rw [if_neg hcount']
    rfl
  case edges => exact nofun

end VertexSets

section Columns

variable {type : ColumnType} {rows rows' : List (Int64 × type.Cell)}

private theorem decode_column_of_perm
    (h : RowFile.Writable (show List (Kind.column type).Row from rows)) (hperm : rows.Perm rows')
    {entity : Entity}
    (hdecode : decode (.ofRows ⟨guid, .column type, count, references⟩ rows) resolve
      = .ok entity) :
    decode (.ofRows ⟨guid, .column type, count, references⟩ rows') resolve = .ok entity := by
  obtain ⟨r, hr, set, hset, read, hread, cells, hplace, rfl⟩ := decode_column_iff.1 hdecode
  obtain ⟨hcount, rfl⟩ := (RowFile.decode_encode_eq_ok_iff h guid).1 hread
  have hread' := (RowFile.decode_encode_eq_ok_iff (h.of_perm hperm) guid).2
    ⟨hcount.trans hperm.length_eq, rfl⟩
  refine decode_column_iff.2 ⟨r, hr, set, hset, rows', hread', cells, ?_, rfl⟩
  have haligned := Attribute.aligned_blank type.placeholder set.size r.guid
  rw [place_eq_ok_iff haligned, Attribute.cells_blank, List.nil_append] at hplace ⊢
  obtain ⟨hknown, hnodup, rfl⟩ := hplace
  have hcells := hperm.map (cellOf set)
  refine ⟨fun row hrow => hknown row (hperm.mem_iff.2 hrow), (hcells.map _).nodup_iff.1 hnodup, ?_⟩
  refine Attribute.ofCells_eq_of_perm type.placeholder r.guid hcells ?_ hnodup
  intro cell hcell
  obtain ⟨row, hrow, rfl⟩ := List.mem_map.1 hcell
  exact VertexSet.placeOf_lt (hknown row hrow)

private theorem orderFree_column
    (h : RowFile.Writable (show List (Kind.column type).Row from rows)) (hperm : rows.Perm rows') :
    OrderFree ⟨guid, .column type, count, references⟩ rows
      (decode (.ofRows ⟨guid, .column type, count, references⟩ rows) resolve)
      (decode (.ofRows ⟨guid, .column type, count, references⟩ rows') resolve) where
  succeeds := ⟨fun ⟨entity, hentity⟩ => ⟨entity, decode_column_of_perm h hperm hentity⟩,
    fun ⟨entity, hentity⟩ => ⟨entity, decode_column_of_perm (h.of_perm hperm) hperm.symm hentity⟩⟩
  identical _ entity entity' hentity hentity' :=
    Except.ok.inj ((decode_column_of_perm h hperm hentity).symm.trans hentity')
  increasing set hset := by
    obtain ⟨r, -, set', -, read, -, cells, -, heq⟩ := decode_column_iff.1 hset
    cases heq
  refused := nofun
  repeated := nofun
  miscounted := nofun
  edges := nofun

end Columns

section EdgeBundles

variable {rows rows' : List EdgeRow}

private theorem decode_edgeBundle_of_perm
    (h : RowFile.Writable (show List Kind.edgeBundle.Row from rows)) (hperm : rows.Perm rows')
    {entity : Entity}
    (hdecode : decode (.ofRows ⟨guid, .edgeBundle, count, references⟩ rows) resolve
      = .ok entity) :
    ∃ s d es es', entity = .edgeBundle (.ofEdges s d (byId es)) ∧ es.Perm es' ∧
      es.map (·.id) = rows.map (·.id) ∧
      decode (.ofRows ⟨guid, .edgeBundle, count, references⟩ rows') resolve
        = .ok (.edgeBundle (.ofEdges s d (byId es'))) := by
  obtain ⟨s, hs, d, hd, source, hsource, destination, hdestination, read, hread, es, hes, rfl⟩ :=
    decode_edgeBundle_iff.1 hdecode
  obtain ⟨hcount, rfl⟩ := (RowFile.decode_encode_eq_ok_iff h guid).1 hread
  have hread' := (RowFile.decode_encode_eq_ok_iff (h.of_perm hperm) guid).2
    ⟨hcount.trans hperm.length_eq, rfl⟩
  obtain ⟨hknown, rfl⟩ := edges_eq_ok_iff.1 hes
  have hes' : edges guid source destination 0 rows' = .ok (rows'.map (edgeOf source destination)) :=
    edges_eq_ok_iff.2 ⟨fun row hrow => hknown row (hperm.mem_iff.2 hrow), rfl⟩
  refine ⟨s.guid, d.guid, _, _, rfl, hperm.map (edgeOf source destination), ?_,
    decode_edgeBundle_iff.2 ⟨s, hs, d, hd, source, hsource, destination, hdestination, rows', hread',
      _, hes', rfl⟩⟩
  rw [List.map_map]
  rfl

private theorem orderFree_edgeBundle
    (h : RowFile.Writable (show List Kind.edgeBundle.Row from rows)) (hperm : rows.Perm rows') :
    OrderFree ⟨guid, .edgeBundle, count, references⟩ rows
      (decode (.ofRows ⟨guid, .edgeBundle, count, references⟩ rows) resolve)
      (decode (.ofRows ⟨guid, .edgeBundle, count, references⟩ rows') resolve) where
  succeeds := by
    constructor
    · rintro ⟨entity, hentity⟩
      obtain ⟨s, d, es, es', -, -, -, hentity'⟩ := decode_edgeBundle_of_perm h hperm hentity
      exact ⟨_, hentity'⟩
    · rintro ⟨entity, hentity⟩
      obtain ⟨s, d, es, es', -, -, -, hentity'⟩ :=
        decode_edgeBundle_of_perm (h.of_perm hperm) hperm.symm hentity
      exact ⟨_, hentity'⟩
  identical hkind := absurd rfl hkind
  increasing set hset := by
    obtain ⟨s, d, es, es', heq, -⟩ := decode_edgeBundle_of_perm h hperm hset
    cases heq
  refused := nofun
  repeated := nofun
  miscounted := nofun
  edges := by
    intro _ entity entity' hentity hentity'
    obtain ⟨s, d, es, es', rfl, hes, hids, hdecode'⟩ := decode_edgeBundle_of_perm h hperm hentity
    have heq := Except.ok.inj (hdecode'.symm.trans hentity')
    refine ⟨s, d, byId es, byId es', rfl, heq.symm,
      (byId_perm es).trans (hes.trans (byId_perm es').symm), pairwise_byId es, pairwise_byId es', ?_⟩
    intro hnodup
    have hnodup' : (es.map (·.id)).Nodup := hids ▸ hnodup
    rw [← heq, byId_eq_of_perm hes hnodup']

end EdgeBundles

/-- Rows are read alike in any order. Only edges that share an id stay in the order of their rows,
and a manifest that counts another number of rows is refused for that reason. -/
theorem decode_of_perm {manifest : Manifest} {rows rows' : List manifest.kind.Row}
    (h : RowFile.Writable rows) (hperm : rows.Perm rows')
    (resolve : Guid → Except Failure VertexSet) :
    OrderFree manifest rows (decode (.ofRows manifest rows) resolve)
      (decode (.ofRows manifest rows') resolve) := by
  obtain ⟨guid, kind, count, references⟩ := manifest
  cases kind with
  | vertexSet => exact orderFree_vertexSet h hperm
  | edgeBundle => exact orderFree_edgeBundle h hperm
  | column type => exact orderFree_column h hperm

/-- Two cells, written either way round. -/
theorem decode_of_perm_cells :
    let manifest : Manifest := ⟨Guid.filled 1, .column .double, 2, [⟨Guid.filled 2, 3⟩]⟩
    let rows : List (Kind.column .double).Row := [(8, ⟨5⟩), (7, ⟨3⟩)]
    let resolve : Guid → Except Failure VertexSet := fun _ => .ok ⟨[7, 8, 9]⟩
    let cells : Attribute Double :=
      ⟨[⟨3⟩, ⟨5⟩, Double.zero], [true, true, false], Guid.filled 2⟩
    OrderFree manifest rows (decode (.ofRows manifest rows) resolve)
        (decode (.ofRows manifest rows.reverse) resolve) ∧
      decode (.ofRows manifest rows) resolve = .ok (.column .double cells) := by
  intro manifest rows resolve cells
  have hwritable : RowFile.Writable rows := ⟨by decide, by decide⟩
  refine ⟨decode_of_perm hwritable rows.reverse_perm.symm resolve, ?_⟩
  exact decode_column_iff.2 ⟨⟨Guid.filled 2, 3⟩, rfl, ⟨[7, 8, 9]⟩, ⟨rfl, rfl⟩, rows,
    (RowFile.decode_encode_eq_ok_iff hwritable _).2 ⟨rfl, rfl⟩, cells, rfl, rfl⟩

/-- Repeated ids are not looked at if there are fewer rows than the manifest counts. -/
theorem decode_repeated_miscounted :
    let manifest : Manifest := ⟨Guid.filled 1, .vertexSet, 3, []⟩
    let ids : List Int64 := [4, 4]
    ¬ ids.Nodup ∧ decode (.ofRows manifest ids) (fun _ => .ok ⟨[]⟩)
      = (.error (.missingRows (Guid.filled 1) 3 2) : Except Failure Entity) :=
  ⟨by decide, rfl⟩

end Unordered

end GraphVault
