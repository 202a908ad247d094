import GraphVault.Proofs.DecoderSoundness
import Mathlib.Data.List.Chain

/-!
# Which rows of columns are refused

The rows of a column are looked at one by one, each in the light of those before it, and reading ends
at the first one that is out of place. What becomes of a file as a whole is said here without the
loop: which ids are accepted (`Layout.Accepts`), what a row is refused for (`Layout.Refuses`), and
that reading does the one or names the first row of the other (`Layout.decode_column_verdict`).
-/

namespace GraphVault

namespace Layout

/-- The ids that the rows of a column over the vertex set may have. -/
def Accepts : Layout → VertexSet → List Int64 → Prop
  | ordered, set, ids => ids.Pairwise (· < ·) ∧ ∀ id ∈ ids, 0 ≤ id.toInt ∧ id.toInt < set.size
  | unordered, set, ids => ids.Nodup ∧ ∀ id ∈ ids, id ∈ set.mapping

/-- The position that the id of a row stands for. -/
def Names : Layout → VertexSet → Int64 → Nat → Prop
  | ordered, _, id, position => id.toInt = position
  | unordered, set, id, position => set.positionOf id = some position

/-- A row of a column is refused with a failure, for what its id is beside those of the rows before
it: `ids` are the ids of all rows. -/
inductive Refuses (guid : Guid) (set : VertexSet) (ids : List Int64) :
    Layout → Nat → Failure → Prop where
  | repeated {index : Nat} {id : Int64} :
    ids[index]? = some id → ids[index + 1]? = some id →
      Refuses guid set ids ordered (index + 1) (.duplicatePosition guid (index + 1) id.toInt)
  | unsorted {index : Nat} {previous id : Int64} :
    ids[index]? = some previous → ids[index + 1]? = some id → id < previous →
      Refuses guid set ids ordered (index + 1)
        (.unsortedPositions guid (index + 1) id.toInt previous.toInt)
  | outside {index : Nat} {id : Int64} :
    ids[index]? = some id →
      (∀ before previous, index = before + 1 → ids[before]? = some previous → previous < id) →
      ¬ (0 ≤ id.toInt ∧ id.toInt < set.size) →
      Refuses guid set ids ordered index (.positionOutOfRange guid "id" index id.toInt set.size)
  | unknown {index : Nat} {id : Int64} :
    ids[index]? = some id → id ∉ set.mapping →
      Refuses guid set ids unordered index (.unknownExternalId guid index id)
  | again {earlier index position : Nat} {id : Int64} :
    earlier < index → ids[earlier]? = some id → ids[index]? = some id →
      set.positionOf id = some position →
      Refuses guid set ids unordered index (.duplicatePosition guid index position)

/-- What comes of the rows of a column over a resolved vertex set. -/
structure Verdict (layout : Layout) (guid sets : Guid) (set : VertexSet) (type : ColumnType)
    (rows : List (Int64 × type.Cell)) (result : Except Failure Entity) : Prop where
  accepted : (∃ entity, result = .ok entity) ↔ layout.Accepts set (rows.map (·.1))
  /-- The failure is that of the first row that is refused. -/
  refused : ¬ layout.Accepts set (rows.map (·.1)) → ∃ index failure,
    result = .error failure ∧ layout.Refuses guid set (rows.map (·.1)) index failure ∧
      ∀ earlier < index, ∀ failure', ¬ layout.Refuses guid set (rows.map (·.1)) earlier failure'
  /-- The cells are those of the rows, and no others. -/
  cells : ∀ entity, result = .ok entity → ∃ cells, entity = .column type cells ∧
    cells.vertexSet = sets ∧ cells.Aligned set.size ∧ ∀ position value,
      cells.get? position = some value ↔
        ∃ row ∈ rows, layout.Names set row.1 position ∧ row.2 = value

variable {layout : Layout} {guid : Guid} {set : VertexSet} {ids : List Int64}

/-- A row is refused for one reason only. -/
theorem Refuses.unique {index : Nat} {failure failure' : Failure}
    (h : layout.Refuses guid set ids index failure)
    (h' : layout.Refuses guid set ids index failure') : failure = failure' := by
  -- both speak of the same two ids, of which one is equal, less or greater
  cases h <;> cases h' <;>
    grind [Int64.lt_irrefl, Int64.lt_asymm, VertexSet.positionOf_eq_none_iff]

/-! ### Rows that are accepted are not refused -/

section Accepted

variable {count i j : Nat} {a b : Int64}

private theorem getElem?_of_take (hi : i < count) (ha : ids[i]? = some a) :
    (ids.take count)[i]? = some a :=
  (List.getElem?_take_of_lt hi).trans ha

private theorem rel_of_pairwise_take {R : Int64 → Int64 → Prop} (h : (ids.take count).Pairwise R)
    (hij : i < j) (hj : j < count) (ha : ids[i]? = some a) (hb : ids[j]? = some b) : R a b := by
  obtain ⟨hi', rfl⟩ := List.getElem?_eq_some_iff.1 (getElem?_of_take (Nat.lt_trans hij hj) ha)
  obtain ⟨hj', rfl⟩ := List.getElem?_eq_some_iff.1 (getElem?_of_take hj hb)
  exact List.pairwise_iff_getElem.1 h i j hi' hj' hij

/-- No row is refused that belongs to an accepted beginning. -/
theorem not_refuses_of_accepts_take (h : layout.Accepts set (ids.take count)) (hi : i < count)
    (failure : Failure) : ¬ layout.Refuses guid set ids i failure := by
  intro hrefuses
  cases hrefuses with
  | repeated ha hb =>
    exact Int64.lt_irrefl (rel_of_pairwise_take h.1 (Nat.lt_succ_self _) hi ha hb)
  | unsorted ha hb hlt =>
    exact Int64.lt_asymm hlt (rel_of_pairwise_take h.1 (Nat.lt_succ_self _) hi ha hb)
  | outside ha _ houtside =>
    exact houtside (h.2 _ (List.mem_of_getElem? (getElem?_of_take hi ha)))
  | unknown ha hunknown =>
    exact hunknown (h.2 _ (List.mem_of_getElem? (getElem?_of_take hi ha)))
  | again hearlier ha hb _ =>
    exact rel_of_pairwise_take h.1 hearlier hi ha hb rfl

end Accepted

/-! ### The first row that is refused -/

section Loops

variable {α : Type} {before : List Int64} {id : Int64} {column : Attribute α} {failure : Failure}

private theorem accepts_ordered_concat (h : ordered.Accepts set before)
    (hlast : ∀ previous ∈ before.getLast?, previous < id)
    (hrange : 0 ≤ id.toInt ∧ id.toInt < set.size) : ordered.Accepts set (before ++ [id]) := by
  obtain ⟨hsorted, hrange'⟩ := h
  constructor
  · rw [← List.isChain_iff_pairwise] at hsorted ⊢
    refine List.isChain_append.2 ⟨hsorted, .singleton id, ?_⟩
    rintro previous hprevious _ ⟨⟩
    exact hlast previous hprevious
  · exact List.forall_mem_append.2 ⟨hrange', List.forall_mem_singleton.2 hrange⟩

private theorem refuses_of_checkOrder
    (h : Ordered.checkOrder guid before.length before.getLast? id = .error failure)
    (after : List Int64) :
    ordered.Refuses guid set (before ++ id :: after) before.length failure := by
  cases hlast : before.getLast? with
  | none =>
    rw [hlast] at h
    cases h
  | some previous =>
    obtain ⟨front, rfl⟩ := List.getLast?_eq_some_iff.1 hlast
    have hlength : (front ++ [previous]).length = front.length + 1 := List.length_append
    rw [hlast, Ordered.checkOrder, hlength] at h
    rw [hlength]
    split at h
    · rename_i heq
      cases h
      exact .repeated (by simp [heq]) (by simp)
    · split at h
      · rename_i hlt
        cases h
        exact .unsorted (by simp) (by simp) hlt
      · cases h

private theorem refuses_of_position (hlast : ∀ previous ∈ before.getLast?, previous < id)
    (h : Ordered.position guid "id" before.length id set.size = .error failure)
    (after : List Int64) :
    ordered.Refuses guid set (before ++ id :: after) before.length failure := by
  unfold Ordered.position at h
  split at h
  · cases h
  · rename_i houtside
    cases h
    refine .outside (by simp) ?_ houtside
    intro i previous hlength hprevious
    have hi : i < before.length := by omega
    rw [List.getElem?_append_left hi] at hprevious
    refine hlast previous ?_
    rw [List.getLast?_eq_getElem?, hlength, Nat.add_sub_cancel]
    exact hprevious

/-- The loop over ordered rows fails at a row that is refused, behind rows that are accepted. -/
theorem refuses_of_place_ordered {rows : List (Int64 × α)} (hbefore : ordered.Accepts set before)
    (h : Ordered.place guid set.size before.length before.getLast? column rows = .error failure) :
    ∃ index, ordered.Accepts set ((before ++ rows.map (·.1)).take index) ∧
      ordered.Refuses guid set (before ++ rows.map (·.1)) index failure := by
  -- `before` are the ids of the rows that the loop has been through, all of them accepted
  induction rows generalizing before column with
  | nil => cases h
  | cons row rows ih =>
    obtain ⟨id, value⟩ := row
    have haccepted : ordered.Accepts set ((before ++ id :: rows.map (·.1)).take before.length) := by
      rwa [List.take_left]
    rw [Ordered.place] at h
    cases horder : Ordered.checkOrder guid before.length before.getLast? id with
    | error failure' =>
      rw [horder] at h
      cases h
      exact ⟨_, haccepted, refuses_of_checkOrder horder _⟩
    | ok _ =>
      have hlast := Ordered.checkOrder_eq_ok_iff.1 horder
      cases hposition : Ordered.position guid "id" before.length id set.size with
      | error failure' =>
        rw [horder, hposition] at h
        cases h
        exact ⟨_, haccepted, refuses_of_position hlast hposition _⟩
      | ok p =>
        have hrange := (Ordered.position_eq_ok_iff.1 hposition).1
        have hbefore' := accepts_ordered_concat hbefore hlast hrange
        have hrest : Ordered.place guid set.size (before ++ [id]).length (before ++ [id]).getLast?
            (column.define p value) rows = .error failure := by
          rw [List.length_append, List.length_singleton, List.getLast?_concat]
          rwa [horder, hposition] at h
        have hrefuses := ih hbefore' hrest
        rwa [List.append_assoc] at hrefuses

private theorem accepts_unordered_concat (h : unordered.Accepts set before) (hnew : id ∉ before)
    (hid : id ∈ set.mapping) : unordered.Accepts set (before ++ [id]) := by
  obtain ⟨hnodup, hknown⟩ := h
  constructor
  · exact List.concat_eq_append ▸ hnodup.concat hnew
  · exact List.forall_mem_append.2 ⟨hknown, List.forall_mem_singleton.2 hid⟩

private theorem positions_define (hcolumn : column.Aligned set.size)
    (hpositions : ∀ p, p ∈ column.cells.map (·.1) ↔ p ∈ before.map set.placeOf)
    (hid : id ∈ set.mapping) (hfree : set.placeOf id ∉ column.cells.map (·.1)) (value : α) (p : Nat) :
    p ∈ (column.define (set.placeOf id) value).cells.map (·.1) ↔
      p ∈ (before ++ [id]).map set.placeOf := by
  have hperm := Attribute.cells_define_perm hcolumn (VertexSet.placeOf_lt hid) hfree
  rw [((hperm value).map _).mem_iff, List.map_cons, List.mem_cons, hpositions, List.map_append,
    List.mem_append, List.map_singleton, List.mem_singleton, or_comm]

/-- The loop over unordered rows fails at a row that is refused, behind rows that are accepted. The
cells that are there are those of the rows before. -/
theorem refuses_of_place_unordered {rows : List (Int64 × α)} (hcolumn : column.Aligned set.size)
    (hbefore : unordered.Accepts set before)
    (hpositions : ∀ p, p ∈ column.cells.map (·.1) ↔ p ∈ before.map set.placeOf)
    (h : Unordered.place guid set before.length column rows = .error failure) :
    ∃ index, unordered.Accepts set ((before ++ rows.map (·.1)).take index) ∧
      unordered.Refuses guid set (before ++ rows.map (·.1)) index failure := by
  induction rows generalizing before column with
  | nil => cases h
  | cons row rows ih =>
    obtain ⟨id, value⟩ := row
    have haccepted :
        unordered.Accepts set ((before ++ id :: rows.map (·.1)).take before.length) := by
      rwa [List.take_left]
    have hat : (before ++ id :: rows.map (·.1))[before.length]? = some id := by simp
    rw [Unordered.place] at h
    by_cases hid : id ∈ set.mapping
    · have hlocate : Unordered.locate guid before.length set id = .ok (set.placeOf id) :=
        Unordered.locate_eq_ok_iff.2 ⟨hid, rfl⟩
      rw [hlocate] at h
      by_cases hdefined : column.defined[set.placeOf id]? = some true
      · -- the position is taken, so that a row before has the same id
        have hfailure : failure = .duplicatePosition guid before.length (set.placeOf id) := by
          simpa [bind, Except.bind, hdefined, throw, throwThe, MonadExceptOf.throw] using h.symm
        have hmem := (hpositions _).1 ((Attribute.mem_positions_iff hcolumn).2 hdefined)
        obtain ⟨id', hid', heq⟩ := List.mem_map.1 hmem
        have hsame := VertexSet.placeOf_injective (hbefore.2 id' hid') hid heq
        subst hsame hfailure
        obtain ⟨earlier, hearlier, hget⟩ := List.getElem_of_mem hid'
        refine ⟨_, haccepted, .again hearlier ?_ hat (VertexSet.positionOf_of_mem hid)⟩
        rw [List.getElem?_append_left hearlier, List.getElem?_eq_getElem hearlier, hget]
      · have hfree := mt (Attribute.mem_positions_iff hcolumn).1 hdefined
        have hnew : id ∉ before := fun hmem =>
          hfree ((hpositions _).2 (List.mem_map_of_mem hmem))
        have hrest : Unordered.place guid set (before ++ [id]).length
            (column.define (set.placeOf id) value) rows = .error failure := by
          rw [List.length_append, List.length_singleton]
          simpa [bind, Except.bind, hdefined] using h
        have hrefuses := ih (hcolumn.define _ _) (accepts_unordered_concat hbefore hnew hid)
          (positions_define hcolumn hpositions hid hfree value) hrest
        rwa [List.append_assoc] at hrefuses
    · rw [Unordered.locate, VertexSet.positionOf_eq_none_iff.2 hid] at h
      cases h
      exact ⟨_, haccepted, .unknown hat hid⟩

end Loops

/-! ### Files of rows -/

section Files

variable {sets : Guid} {type : ColumnType} {rows : List (Int64 × type.Cell)}

theorem accepts_iff_place_ordered {column : Attribute type.Cell} :
    (∃ cells, Ordered.place guid set.size 0 none column rows = .ok cells) ↔
      ordered.Accepts set (rows.map (·.1)) := by
  simp only [Ordered.place_eq_ok_iff, Accepts, List.forall_mem_map]
  constructor
  · rintro ⟨cells, hsorted, hrange, -⟩
    exact ⟨hsorted, hrange⟩
  · rintro ⟨hsorted, hrange⟩
    exact ⟨_, hsorted, hrange, rfl⟩

/-- Distinct ids of the set have distinct positions, however often the set itself has an id. -/
private theorem nodup_places (h : unordered.Accepts set ids) : (ids.map set.placeOf).Nodup :=
  h.1.map_on fun _ hid _ hid' heq =>
    VertexSet.placeOf_injective (h.2 _ hid) (h.2 _ hid') heq

theorem accepts_iff_place_unordered {placeholder : type.Cell} :
    (∃ cells, Unordered.place guid set 0 (.blank placeholder set.size sets) rows = .ok cells) ↔
      unordered.Accepts set (rows.map (·.1)) := by
  simp only [Unordered.place_eq_ok_iff (Attribute.aligned_blank _ _ _), Attribute.cells_blank,
    List.nil_append, List.map_map]
  constructor
  · rintro ⟨cells, hknown, hnodup, -⟩
    refine ⟨List.Nodup.of_map set.placeOf ?_, List.forall_mem_map.2 hknown⟩
    rwa [List.map_map]
  · intro h
    have hnodup := nodup_places h
    rw [List.map_map] at hnodup
    exact ⟨_, List.forall_mem_map.1 h.2, hnodup, rfl⟩

/-- Cells at distinct positions are found there. -/
private theorem get?_ofCells_iff (place : Int64 → Nat)
    (hnames : ∀ row ∈ rows, ∀ position, layout.Names set row.1 position ↔ place row.1 = position)
    (hlt : ∀ row ∈ rows, place row.1 < set.size) (hnodup : (rows.map fun row => place row.1).Nodup)
    (placeholder value : type.Cell) (position : Nat) :
    (Attribute.ofCells placeholder set.size sets
        (rows.map fun row => (place row.1, row.2))).get? position = some value ↔
      ∃ row ∈ rows, layout.Names set row.1 position ∧ row.2 = value := by
  have hlt' : ∀ cell ∈ rows.map fun row => (place row.1, row.2), cell.1 < set.size :=
    List.forall_mem_map.2 hlt
  have hnodup' : ((rows.map fun row => (place row.1, row.2)).map (·.1)).Nodup := by
    rwa [List.map_map]
  have hperm := Attribute.cells_ofCells_perm placeholder set.size sets hlt' hnodup'
  rw [Attribute.get?_eq_some_iff, hperm.mem_iff, List.mem_map]
  refine exists_congr fun row => and_congr_right fun hrow => ?_
  rw [Prod.mk.injEq, hnames row hrow]

/-- The verdict is that of the loop. -/
private theorem verdict_of_place {placed : Except Failure (Attribute type.Cell)}
    (haccepts : (∃ cells, placed = .ok cells) ↔ layout.Accepts set (rows.map (·.1)))
    (hrefuses : ∀ failure, placed = .error failure → ∃ index,
      layout.Accepts set ((rows.map (·.1)).take index) ∧
        layout.Refuses guid set (rows.map (·.1)) index failure)
    (hcells : ∀ cells, placed = .ok cells → cells.vertexSet = sets ∧ cells.Aligned set.size ∧
      ∀ position value, cells.get? position = some value ↔
        ∃ row ∈ rows, layout.Names set row.1 position ∧ row.2 = value) :
    layout.Verdict guid sets set type rows (Entity.column type <$> placed) := by
  cases placed with
  | error failure =>
    constructor
    case accepted =>
      constructor
      · rintro ⟨entity, ⟨⟩⟩
      · intro h
        obtain ⟨cells, ⟨⟩⟩ := haccepts.2 h
    case refused =>
      intro _
      obtain ⟨index, haccepted, hindex⟩ := hrefuses failure rfl
      exact ⟨index, failure, rfl, hindex, fun earlier hlt => not_refuses_of_accepts_take haccepted hlt⟩
    case cells => exact nofun
  | ok cells =>
    have haccepted := haccepts.1 ⟨cells, rfl⟩
    constructor
    case accepted => exact iff_of_true ⟨_, rfl⟩ haccepted
    case refused => exact fun h => absurd haccepted h
    case cells =>
      rintro _ ⟨⟩
      exact ⟨cells, rfl, hcells cells rfl⟩

theorem verdict_ordered (placeholder : type.Cell) :
    ordered.Verdict guid sets set type rows (Entity.column type <$>
      Ordered.place guid set.size 0 none (.blank placeholder set.size sets) rows) := by
  refine verdict_of_place accepts_iff_place_ordered (fun failure h => ?_) fun cells h => ?_
  · have hempty : ordered.Accepts set [] := ⟨.nil, nofun⟩
    exact refuses_of_place_ordered hempty h
  · obtain ⟨-, hrange⟩ := accepts_iff_place_ordered.1 ⟨cells, h⟩
    obtain ⟨rfl, -, hlt, hsorted⟩ := Ordered.of_place h
    have hnames (row : Int64 × type.Cell) (hrow : row ∈ rows) (position : Nat) :
        ordered.Names set row.1 position ↔ row.1.toInt.toNat = position := by
      have hnonneg := (hrange row.1 (List.mem_map_of_mem hrow)).1
      change row.1.toInt = position ↔ row.1.toInt.toNat = position
      omega
    have hnodup : (rows.map fun row => row.1.toInt.toNat).Nodup :=
      List.pairwise_map.2 ((List.pairwise_map.1 hsorted).imp fun hlt => Nat.ne_of_lt hlt)
    exact ⟨Attribute.vertexSet_ofCells _ _ _ _, Attribute.aligned_ofCells _ _ _ _,
      fun position value => get?_ofCells_iff (fun id => id.toInt.toNat) hnames
        (List.forall_mem_map.1 hlt) hnodup placeholder value position⟩

theorem verdict_unordered (placeholder : type.Cell) :
    unordered.Verdict guid sets set type rows (Entity.column type <$>
      Unordered.place guid set 0 (.blank placeholder set.size sets) rows) := by
  have hblank := Attribute.aligned_blank placeholder set.size sets
  refine verdict_of_place accepts_iff_place_unordered (fun failure h => ?_) fun cells h => ?_
  · have hpositions (p : Nat) : p ∈ (Attribute.blank placeholder set.size sets).cells.map (·.1) ↔
        p ∈ ([] : List Int64).map set.placeOf := by
      rw [Attribute.cells_blank]
      rfl
    exact refuses_of_place_unordered hblank ⟨.nil, nofun⟩ hpositions h
  · have haccepted := accepts_iff_place_unordered.1 ⟨cells, h⟩
    obtain ⟨hknown, -, rfl⟩ := (Unordered.place_eq_ok_iff hblank).1 h
    have hnames (row : Int64 × type.Cell) (hrow : row ∈ rows) (position : Nat) :
        unordered.Names set row.1 position ↔ set.placeOf row.1 = position := by
      rw [Names, VertexSet.positionOf_of_mem (hknown row hrow), Option.some.injEq]
    have hnodup := nodup_places haccepted
    rw [List.map_map] at hnodup
    exact ⟨Attribute.vertexSet_ofCells _ _ _ _, Attribute.aligned_ofCells _ _ _ _,
      fun position value => get?_ofCells_iff set.placeOf hnames
        (fun row hrow => VertexSet.placeOf_lt (hknown row hrow)) hnodup placeholder value position⟩

variable {count : UInt64} {references : List Reference} {bytes : Bytes} {r : Reference}
  {resolve : Guid → Except Failure VertexSet}

/-- Columns are read if all of their rows are accepted. Else the failure is that of the first row
that is not, for its first fault. -/
theorem decode_column_verdict (hr : references[0]? = some r) (hset : resolve r.guid = .ok set)
    (hsize : set.size = r.size.toNat)
    (hrows : RowFile.decode (RowFile.cellRow type) guid count bytes = .ok rows) (layout : Layout) :
    layout.Verdict guid r.guid set type rows
      (layout.decode ⟨⟨guid, .column type, count, references⟩, bytes⟩ resolve) := by
  have hreference : Manifest.reference ⟨guid, .column type, count, references⟩ 0 = .ok r :=
    Manifest.reference_eq_ok_iff.2 hr
  have hresolve : r.resolve guid resolve = .ok set := Reference.resolve_eq_ok_iff.2 ⟨hset, hsize⟩
  cases layout with
  | ordered =>
    have hdecode : Ordered.decode ⟨⟨guid, .column type, count, references⟩, bytes⟩ resolve
        = Entity.column type <$> Ordered.place guid set.size 0 none
          (.blank type.placeholder set.size r.guid) rows := by
      simp only [Ordered.decode, ofExcept_eq, map_eq_pure_bind, hreference, hresolve, hrows, bind,
        Except.bind]
    rw [decode, hdecode]
    exact verdict_ordered type.placeholder
  | unordered =>
    have hdecode : Unordered.decode ⟨⟨guid, .column type, count, references⟩, bytes⟩ resolve
        = Entity.column type <$> Unordered.place guid set 0
          (.blank type.placeholder set.size r.guid) rows := by
      simp only [Unordered.decode, ofExcept_eq, map_eq_pure_bind, hreference, hresolve, hrows, bind,
        Except.bind]
    rw [decode, hdecode]
    exact verdict_unordered type.placeholder

/-- A position that comes twice: the second of the two rows is refused. -/
theorem decode_column_verdict_repeated :
    let set : VertexSet := ⟨[7, 8, 9]⟩
    let rows : List (Int64 × ColumnType.double.Cell) := [(0, ⟨5⟩), (2, ⟨6⟩), (2, ⟨7⟩)]
    let bytes : Bytes := [0x53, 0x50, 0x48, 0x58, 1, 3, 0, 0, 0, 0, 0, 0, 0,
      0, 5, 0, 0, 0, 0, 0, 0, 0, 4, 6, 0, 0, 0, 0, 0, 0, 0, 4, 7, 0, 0, 0, 0, 0, 0, 0]
    let result : Except Failure Entity :=
      ordered.decode ⟨⟨Guid.filled 1, .column .double, 3, [⟨Guid.filled 2, 3⟩]⟩, bytes⟩
        fun _ => .ok set
    ordered.Verdict (Guid.filled 1) (Guid.filled 2) set .double rows result ∧
      result = .error (.duplicatePosition (Guid.filled 1) 2 2) := by
  have hr : [(⟨Guid.filled 2, 3⟩ : Reference)][0]? = some ⟨Guid.filled 2, 3⟩ := rfl
  exact ⟨decode_column_verdict hr rfl rfl rfl ordered, rfl⟩

end Files

end Layout

end GraphVault
