import GraphVault.Format.Unordered
import GraphVault.Proofs.Cells

/-!
# Positions and external ids

Between the two layouts stands one exchange: a position for the external id that the vertex set has
there, and back. `VertexSet.idAt` and `VertexSet.placeOf` are its two directions. Everything the
unordered layout does is said in them: when its steps succeed, and what they come to.
-/

namespace GraphVault

namespace VertexSet

variable {set : VertexSet} {id : Int64} {position : Nat}

/-- The external id at a position of the set, and 0 anywhere else. -/
def idAt (set : VertexSet) (position : Nat) : Int64 := (set.externalId position).getD 0

/-- The greatest position of an external id of the set, and 0 for any other. -/
def placeOf (set : VertexSet) (id : Int64) : Nat := (set.positionOf id).getD 0

private theorem getElem?_of_lastPlace {ids : List Int64} {place : Nat}
    (h : lastPlace id ids = some place) : ids[place]? = some id := by
  induction ids generalizing place with
  | nil => cases h
  | cons head tail ih =>
    rw [lastPlace] at h
    split at h
    · rename_i place' hplace
      cases h
      exact ih hplace
    · split at h
      · rename_i heq
        cases h
        rw [heq, List.getElem?_cons_zero]
      · cases h

theorem positionOf_of_mem (h : id ∈ set.mapping) : set.positionOf id = some (set.placeOf id) := by
  cases hplace : set.positionOf id with
  | none => exact absurd h (lastPlace_eq_none_iff.1 hplace)
  | some place => rw [placeOf, hplace, Option.getD_some]

theorem positionOf_eq_none_iff : set.positionOf id = none ↔ id ∉ set.mapping :=
  lastPlace_eq_none_iff

theorem mapping_placeOf (h : id ∈ set.mapping) : set.mapping[set.placeOf id]? = some id :=
  getElem?_of_lastPlace (positionOf_of_mem h)

theorem placeOf_lt (h : id ∈ set.mapping) : set.placeOf id < set.size :=
  (List.getElem?_eq_some_iff.1 (mapping_placeOf h)).1

theorem idAt_placeOf (h : id ∈ set.mapping) : set.idAt (set.placeOf id) = id := by
  rw [idAt, externalId, mapping_placeOf h, Option.getD_some]

theorem mapping_idAt (h : position < set.size) :
    set.mapping[position]? = some (set.idAt position) := by
  have hget := List.getElem?_eq_getElem h
  rw [idAt, externalId, hget, Option.getD_some]

theorem idAt_mem (h : position < set.size) : set.idAt position ∈ set.mapping :=
  List.mem_of_getElem? (mapping_idAt h)

theorem placeOf_injective {other : Int64} (h : id ∈ set.mapping) (h' : other ∈ set.mapping)
    (heq : set.placeOf id = set.placeOf other) : id = other := by
  rw [← idAt_placeOf h, heq, idAt_placeOf h']

end VertexSet

namespace Unordered

variable {guid : Guid} {source destination set : VertexSet}

theorem external_eq_ok {position : Nat} (h : position < set.size) :
    external set position = .ok (set.idAt position) := by
  have hget : set.externalId position = some (set.idAt position) := VertexSet.mapping_idAt h
  rw [external, hget]

theorem locate_eq_ok_iff {row position : Nat} {id : Int64} :
    locate guid row set id = .ok position ↔ id ∈ set.mapping ∧ set.placeOf id = position := by
  by_cases h : id ∈ set.mapping
  · simp [locate, VertexSet.positionOf_of_mem h, h]
  · simp [locate, VertexSet.positionOf_eq_none_iff.2 h, h]

theorem mapM_eq_ok {ε α β : Type} {f : α → Except ε β} {g : α → β} {items : List α}
    (h : ∀ a ∈ items, f a = .ok (g a)) : items.mapM f = .ok (items.map g) := by
  induction items with
  | nil => rfl
  | cons a items ih =>
    rw [List.mapM_cons, h a List.mem_cons_self, ih fun b hb => h b (List.mem_cons_of_mem _ hb)]
    rfl

private theorem pairwise_mergeSort_key {α : Type} (key : α → Int64) (items : List α) :
    (items.mergeSort fun a b => key a ≤ key b).Pairwise fun a b => key a ≤ key b := by
  have htrans : ∀ a b c : α, decide (key a ≤ key b) → decide (key b ≤ key c) →
      decide (key a ≤ key c) := by
    intro a b c hab hbc
    rw [decide_eq_true_iff] at *
    exact Int64.le_trans hab hbc
  have htotal : ∀ a b : α, decide (key a ≤ key b) || decide (key b ≤ key a) := by
    intro a b
    rw [Bool.or_eq_true, decide_eq_true_iff, decide_eq_true_iff]
    exact Int64.le_total (key a) (key b)
  exact (List.pairwise_mergeSort htrans htotal items).imp decide_eq_true_iff.1

/-! ### Vertex sets -/

/-- External ids in increasing order. -/
def ascending (ids : List Int64) : List Int64 := ids.mergeSort (· ≤ ·)

theorem ascending_perm (ids : List Int64) : (ascending ids).Perm ids := List.mergeSort_perm _ _

theorem pairwise_ascending (ids : List Int64) : (ascending ids).Pairwise (· ≤ ·) :=
  pairwise_mergeSort_key (fun id => id) ids

theorem ascending_of_pairwise {ids : List Int64} (h : ids.Pairwise (· ≤ ·)) :
    ascending ids = ids :=
  List.mergeSort_of_pairwise (h.imp decide_eq_true_iff.2)

private theorem firstDouble_eq_none_iff {ids : List Int64} (h : ids.Pairwise (· ≤ ·)) :
    firstDouble ids = none ↔ ids.Nodup := by
  induction ids with
  | nil => simp [firstDouble]
  | cons a rest ih =>
    cases rest with
    | nil => simp [firstDouble]
    | cons b rest =>
      obtain ⟨hhead, htail⟩ := List.pairwise_cons.1 h
      rw [firstDouble]
      split
      · rename_i heq
        simp [heq]
      · rename_i hne
        rw [ih htail, List.nodup_cons (a := a), iff_and_self]
        -- whatever equals the first id is not above the second one
        intro _ hmem
        have hab := hhead b List.mem_cons_self
        cases List.mem_cons.1 hmem with
        | inl heq => exact hne heq
        | inr hrest =>
          have hba := (List.pairwise_cons.1 htail).1 a hrest
          exact hne (Int64.le_antisymm hab hba)

theorem sorted_eq_ok_iff {ids : List Int64} :
    sorted guid ids = .ok set ↔ ids.Nodup ∧ set = ⟨ascending ids⟩ := by
  have hnone : firstDouble (ascending ids) = none ↔ ids.Nodup := by
    rw [firstDouble_eq_none_iff (pairwise_ascending ids)]
    exact (ascending_perm ids).nodup_iff
  unfold sorted
  rw [← hnone]
  dsimp only
  split
  · rename_i id h
    simp [ascending, h]
  · rename_i h
    simp [ascending, h, eq_comm]

/-- Distinct ids in order are strictly increasing. -/
theorem pairwise_lt_ascending {ids : List Int64} (h : ids.Nodup) :
    (ascending ids).Pairwise (· < ·) := by
  have hnodup := (ascending_perm ids).nodup_iff.2 h
  exact (pairwise_ascending ids).imp₂ (fun _ _ hle hne => Int64.lt_of_le_of_ne hle hne) hnodup

/-! ### Edges -/

/-- The edge of a row. -/
def edgeOf (source destination : VertexSet) (row : EdgeRow) : Edge :=
  ⟨UInt64.ofNat (source.placeOf row.source), UInt64.ofNat (destination.placeOf row.destination),
    row.id⟩

/-- The row of an edge, as far as its ends have external ids. -/
def rowOf (source destination : VertexSet) (edge : Edge) : EdgeRow :=
  ⟨edge.id, source.idAt edge.source.toNat, destination.idAt edge.destination.toNat⟩

theorem edges_eq_ok_iff {index : Nat} {rows : List EdgeRow} {es : List Edge} :
    edges guid source destination index rows = .ok es ↔
      (∀ row ∈ rows, row.source ∈ source.mapping ∧ row.destination ∈ destination.mapping) ∧
        es = rows.map (edgeOf source destination) := by
  induction rows generalizing index es with
  | nil => simp [edges, eq_comm]
  | cons row rows ih =>
    simp only [edges, bind_eq_ok_iff, locate_eq_ok_iff, ih, List.forall_mem_cons, List.map_cons]
    constructor
    · rintro ⟨s, ⟨hs, rfl⟩, d, ⟨hd, rfl⟩, es', ⟨hrows, rfl⟩, h⟩
      cases h
      exact ⟨⟨⟨hs, hd⟩, hrows⟩, rfl⟩
    · rintro ⟨⟨⟨hs, hd⟩, hrows⟩, rfl⟩
      exact ⟨_, ⟨hs, rfl⟩, _, ⟨hd, rfl⟩, _, ⟨hrows, rfl⟩, rfl⟩

theorem mapM_edgeRow {es : List Edge}
    (h : ∀ e ∈ es, e.source.toNat < source.size ∧ e.destination.toNat < destination.size) :
    es.mapM (edgeRow source destination) = .ok (es.map (rowOf source destination)) := by
  apply mapM_eq_ok
  intro e he
  obtain ⟨hs, hd⟩ := h e he
  rw [edgeRow, external_eq_ok hs, external_eq_ok hd]
  rfl

/-- The ends of the edge of a row are positions. -/
theorem edgeOf_lt {row : EdgeRow} (hs : row.source ∈ source.mapping)
    (hd : row.destination ∈ destination.mapping) :
    (edgeOf source destination row).source.toNat < source.size ∧
      (edgeOf source destination row).destination.toNat < destination.size := by
  have hsource := VertexSet.placeOf_lt hs
  have hdestination := VertexSet.placeOf_lt hd
  constructor
  · exact Nat.lt_of_le_of_lt (Nat.mod_le _ _) hsource
  · exact Nat.lt_of_le_of_lt (Nat.mod_le _ _) hdestination

theorem rowOf_edgeOf (hsource : source.size ≤ 2 ^ 64) (hdestination : destination.size ≤ 2 ^ 64)
    {row : EdgeRow} (hs : row.source ∈ source.mapping)
    (hd : row.destination ∈ destination.mapping) :
    rowOf source destination (edgeOf source destination row) = row := by
  have hsource' : source.placeOf row.source < 2 ^ 64 :=
    Nat.lt_of_lt_of_le (VertexSet.placeOf_lt hs) hsource
  have hdestination' : destination.placeOf row.destination < 2 ^ 64 :=
    Nat.lt_of_lt_of_le (VertexSet.placeOf_lt hd) hdestination
  rw [rowOf, edgeOf, UInt64.toNat_ofNat_of_lt' hsource', UInt64.toNat_ofNat_of_lt' hdestination',
    VertexSet.idAt_placeOf hs, VertexSet.idAt_placeOf hd]

/-- Edges in the order of their ids; edges of one id stay in the order that they are in. -/
def byId (es : List Edge) : List Edge := es.mergeSort fun a b => a.id ≤ b.id

theorem byId_perm (es : List Edge) : (byId es).Perm es := List.mergeSort_perm _ _

theorem byId_of_pairwise {es : List Edge} (h : es.Pairwise fun a b => a.id ≤ b.id) :
    byId es = es :=
  List.mergeSort_of_pairwise (h.imp decide_eq_true_iff.2)

theorem pairwise_byId (es : List Edge) : (byId es).Pairwise fun a b => a.id ≤ b.id :=
  pairwise_mergeSort_key (fun e => e.id) es

/-! ### Cells -/

/-- The cell of a row. -/
def cellOf {α : Type} (set : VertexSet) (row : Int64 × α) : Nat × α := (set.placeOf row.1, row.2)

/-- The row of a cell, as far as its position has an external id. -/
def cellRowOf {α : Type} (set : VertexSet) (cell : Nat × α) : Int64 × α :=
  (set.idAt cell.1, cell.2)

variable {α : Type}

theorem cellRowOf_cellOf {row : Int64 × α} (h : row.1 ∈ set.mapping) :
    cellRowOf set (cellOf set row) = row := by
  rw [cellRowOf, cellOf, VertexSet.idAt_placeOf h]

theorem mapM_cellRow {cells : List (Nat × α)} (h : ∀ cell ∈ cells, cell.1 < set.size) :
    cells.mapM (cellRow set) = .ok (cells.map (cellRowOf set)) := by
  apply mapM_eq_ok
  rintro ⟨position, value⟩ hcell
  rw [cellRow, external_eq_ok (h _ hcell)]
  rfl

/-- Rows are placed if each has an id of the set and no two of them, and none of the cells that are
there already, have one position. -/
theorem place_eq_ok_iff {column column' : Attribute α} (h : column.Aligned set.size) {index : Nat}
    {rows : List (Int64 × α)} :
    place guid set index column rows = .ok column' ↔
      (∀ row ∈ rows, row.1 ∈ set.mapping) ∧
        ((column.cells ++ rows.map (cellOf set)).map (·.1)).Nodup ∧
          column' = column.fill (rows.map (cellOf set)) := by
  induction rows generalizing index column with
  | nil => simp [place, column.nodup_positions, eq_comm]
  | cons row rows ih =>
    obtain ⟨id, value⟩ := row
    have hstep : place guid set index column ((id, value) :: rows) = .ok column' ↔
        id ∈ set.mapping ∧ set.placeOf id ∉ column.cells.map (·.1) ∧
          place guid set (index + 1) (column.define (set.placeOf id) value) rows = .ok column' := by
      simp only [place, bind_eq_ok_iff, locate_eq_ok_iff, Attribute.mem_positions_iff h]
      constructor
      · rintro ⟨position, ⟨hid, rfl⟩, hrest⟩
        split at hrest
        · cases hrest
        · rename_i hfree
          exact ⟨hid, hfree, hrest⟩
      · rintro ⟨hid, hfree, hrest⟩
        refine ⟨_, ⟨hid, rfl⟩, ?_⟩
        rw [if_neg hfree]
        exact hrest
    rw [hstep, ih (h.define _ _)]
    constructor
    · rintro ⟨hid, hfree, hrows, hnodup, rfl⟩
      have hperm := Attribute.cells_define_append_perm h (cellOf set (id, value))
        (rows.map (cellOf set)) (VertexSet.placeOf_lt hid) hfree
      exact ⟨List.forall_mem_cons.2 ⟨hid, hrows⟩, (hperm.map _).nodup_iff.1 hnodup, rfl⟩
    · rintro ⟨hrows, hnodup, rfl⟩
      obtain ⟨hid, hrows⟩ := List.forall_mem_cons.1 hrows
      have hfree := Attribute.free_of_nodup hnodup
      have hperm := Attribute.cells_define_append_perm h (cellOf set (id, value))
        (rows.map (cellOf set)) (VertexSet.placeOf_lt hid) hfree
      exact ⟨hid, hfree, hrows, (hperm.map _).nodup_iff.2 hnodup, rfl⟩

end Unordered

end GraphVault
