import GraphVault.Format.Ordered
import GraphVault.Proofs.OrderedRoundTrip
import Mathlib.Data.List.Sort

/-!
# Cells of columns

A column is read by defining one cell after the other in a blank one. Whatever the order, this comes
to the column that has exactly these cells (`Attribute.cells_ofCells_perm`) and placeholders
everywhere else (`Attribute.settled_ofCells`), and there is only one such column
(`Attribute.settled_eq_of_cells`).
-/

namespace GraphVault.Attribute

variable {α : Type} {placeholder : α} {column : Attribute α} {size : Nat}

theorem mem_cells_iff {cell : Nat × α} :
    cell ∈ column.cells ↔
      column.values[cell.1]? = some cell.2 ∧ column.defined[cell.1]? = some true := by
  obtain ⟨position, value⟩ := cell
  have hzip : ((value, true), position) ∈ (column.values.zip column.defined).zipIdx ↔
      column.values[position]? = some value ∧ column.defined[position]? = some true := by
    rw [List.mem_zipIdx_iff_getElem?, List.getElem?_zip_eq_some]
  rw [← hzip, cells, List.mem_filterMap]
  constructor
  · rintro ⟨⟨⟨value', isDefined⟩, position'⟩, hmem, heq⟩
    cases isDefined with
    | false => cases heq
    | true =>
      cases heq
      exact hmem
  · intro h
    exact ⟨_, h, rfl⟩

theorem get?_eq_some_iff {position : Nat} {value : α} :
    column.get? position = some value ↔ (position, value) ∈ column.cells := by
  rw [mem_cells_iff, get?]
  split
  · rename_i h
    simp [h]
  · rename_i h
    constructor
    · exact nofun
    · rintro ⟨-, hdefined⟩
      exact (h hdefined).elim

/-- Cells are listed by increasing position. -/
theorem pairwise_cells (column : Attribute α) : column.cells.Pairwise fun a b => a.1 < b.1 := by
  have hindices : (column.values.zip column.defined).zipIdx.Pairwise fun a b => a.2 < b.2 := by
    rw [← List.pairwise_map, List.zipIdx_map_snd]
    exact List.pairwise_lt_range' 1
  rw [cells, List.pairwise_filterMap]
  refine hindices.imp ?_
  rintro ⟨⟨value, isDefined⟩, position⟩ ⟨⟨value', isDefined'⟩, position'⟩ hlt cell hcell cell' hcell'
  cases isDefined with
  | false => cases hcell
  | true =>
    cases isDefined' with
    | false => cases hcell'
    | true =>
      cases hcell
      cases hcell'
      exact hlt

theorem nodup_positions (column : Attribute α) : (column.cells.map (·.1)).Nodup := by
  rw [List.Nodup, List.pairwise_map]
  exact column.pairwise_cells.imp fun hlt => Nat.ne_of_lt hlt

theorem mem_positions_iff (h : column.Aligned size) {position : Nat} :
    position ∈ column.cells.map (·.1) ↔ column.defined[position]? = some true := by
  rw [List.mem_map]
  constructor
  · rintro ⟨cell, hcell, rfl⟩
    exact (mem_cells_iff.1 hcell).2
  · intro hdefined
    obtain ⟨hlt, -⟩ := List.getElem?_eq_some_iff.1 hdefined
    rw [h.length_defined, ← h.length_values] at hlt
    have hvalue := List.getElem?_eq_getElem hlt
    exact ⟨(position, column.values[position]), mem_cells_iff.2 ⟨hvalue, hdefined⟩, rfl⟩

theorem nodup_cells (column : Attribute α) : column.cells.Nodup :=
  column.nodup_positions.of_map _

/-- Cells by increasing position are in the order of the column. -/
theorem eq_cells_of_perm {cells : List (Nat × α)} (hperm : column.cells.Perm cells)
    (hsorted : cells.Pairwise fun a b => a.1 < b.1) : column.cells = cells := by
  refine List.Perm.eq_of_pairwise ?_ column.pairwise_cells hsorted hperm
  intro a b _ _ hlt hgt
  omega

/-! ### Defining one cell -/

@[simp] theorem vertexSet_define (position : Nat) (value : α) :
    (column.define position value).vertexSet = column.vertexSet := rfl

theorem Aligned.define (h : column.Aligned size) (position : Nat) (value : α) :
    (column.define position value).Aligned size := by
  constructor
  · rw [Attribute.define, List.length_set, h.length_values]
  · rw [Attribute.define, List.length_set, h.length_defined]

/-- A cell is added where there was none. -/
theorem cells_define_perm (h : column.Aligned size) {position : Nat} (hposition : position < size)
    (hfree : position ∉ column.cells.map (·.1)) (value : α) :
    (column.define position value).cells.Perm ((position, value) :: column.cells) := by
  have hmem (v : α) : (position, v) ∉ column.cells := by
    intro hcell
    exact hfree (List.mem_map_of_mem hcell)
  have hnodup : ((position, value) :: column.cells).Nodup :=
    List.nodup_cons.2 ⟨hmem value, column.nodup_cells⟩
  rw [List.perm_ext_iff_of_nodup (nodup_cells _) hnodup]
  rintro ⟨p, v⟩
  rw [List.mem_cons, mem_cells_iff]
  simp only [define, List.getElem?_set, h.length_values, h.length_defined, hposition, if_true]
  by_cases hp : position = p
  · subst hp
    simp [hmem v, eq_comm]
  · simp [hp, Ne.symm hp, mem_cells_iff]

/-- Defining the first of further cells comes to the same cells, up to their order. -/
theorem cells_define_append_perm (h : column.Aligned size) (cell : Nat × α)
    (cells : List (Nat × α)) (hlt : cell.1 < size) (hfree : cell.1 ∉ column.cells.map (·.1)) :
    ((column.define cell.1 cell.2).cells ++ cells).Perm (column.cells ++ cell :: cells) :=
  ((cells_define_perm h hlt hfree cell.2).append_right cells).trans List.perm_middle.symm

theorem free_of_nodup {cell : Nat × α} {cells : List (Nat × α)}
    (hnodup : ((column.cells ++ cell :: cells).map (·.1)).Nodup) :
    cell.1 ∉ column.cells.map (·.1) := by
  have hfirst := (List.perm_middle.map _).nodup_iff.1 hnodup
  rw [List.map_cons, List.nodup_cons, List.map_append, List.mem_append, not_or] at hfirst
  exact hfirst.1.1

theorem settled_define (position : Nat) (value : α) :
    (column.define position value).settled placeholder
      = (column.settled placeholder).define position value := by
  have hvalues : ((column.values.set position value).zip (column.defined.set position true)).map
        (settledCell placeholder)
      = ((column.values.zip column.defined).map (settledCell placeholder)).set position value := by
    have hvalue : value = settledCell placeholder (value, true) := rfl
    rw [hvalue, ← List.map_set, ← hvalue]
    congr 1
    apply List.ext_getElem?
    intro i
    rw [Option.ext_iff]
    rintro ⟨v, d⟩
    simp only [List.getElem?_zip_eq_some, List.getElem?_set, List.length_zip]
    by_cases hi : position = i
    · simp only [hi, if_true]
      grind
    · simp only [hi, if_false, List.getElem?_zip_eq_some]
  simp only [define, settled, hvalues]

/-! ### Defining cells one after the other -/

/-- The column with cells defined at their positions, the first one first. -/
def fill (column : Attribute α) (cells : List (Nat × α)) : Attribute α :=
  cells.foldl (fun filled cell => filled.define cell.1 cell.2) column

@[simp] theorem fill_nil : column.fill [] = column := rfl

@[simp] theorem fill_cons (cell : Nat × α) (cells : List (Nat × α)) :
    column.fill (cell :: cells) = (column.define cell.1 cell.2).fill cells := rfl

@[simp] theorem vertexSet_fill (cells : List (Nat × α)) :
    (column.fill cells).vertexSet = column.vertexSet := by
  induction cells generalizing column with
  | nil => rfl
  | cons cell cells ih => rw [fill_cons, ih, vertexSet_define]

theorem Aligned.fill (h : column.Aligned size) (cells : List (Nat × α)) :
    (column.fill cells).Aligned size := by
  induction cells generalizing column with
  | nil => exact h
  | cons cell cells ih => exact ih (h.define _ _)

theorem settled_fill (cells : List (Nat × α)) :
    (column.fill cells).settled placeholder = (column.settled placeholder).fill cells := by
  induction cells generalizing column with
  | nil => rfl
  | cons cell cells ih => rw [fill_cons, ih, settled_define, fill_cons]

theorem cells_fill_perm (h : column.Aligned size) {cells : List (Nat × α)}
    (hlt : ∀ cell ∈ cells, cell.1 < size)
    (hnodup : ((column.cells ++ cells).map (·.1)).Nodup) :
    (column.fill cells).cells.Perm (column.cells ++ cells) := by
  induction cells generalizing column with
  | nil => rw [fill_nil, List.append_nil]
  | cons cell cells ih =>
    have hdefine := cells_define_append_perm h cell cells (hlt cell List.mem_cons_self)
      (free_of_nodup hnodup)
    have hnodup' : (((column.define cell.1 cell.2).cells ++ cells).map (·.1)).Nodup :=
      (hdefine.map _).nodup_iff.2 hnodup
    have hfill := ih (h.define _ _) (fun c hc => hlt c (List.mem_cons_of_mem _ hc)) hnodup'
    exact hfill.trans hdefine

/-! ### Columns of given cells -/

/-- The column of `size` positions that has the given cells. -/
def ofCells (placeholder : α) (size : Nat) (vertexSet : Guid) (cells : List (Nat × α)) :
    Attribute α :=
  (blank placeholder size vertexSet).fill cells

variable (placeholder) (size) (vertexSet : Guid) (cells : List (Nat × α))

theorem aligned_blank : (blank placeholder size vertexSet).Aligned size :=
  ⟨List.length_replicate, List.length_replicate⟩

theorem cells_blank : (blank placeholder size vertexSet).cells = [] := by
  rw [List.eq_nil_iff_forall_not_mem]
  intro cell hcell
  have hdefined := (mem_cells_iff.1 hcell).2
  simp [blank, List.getElem?_replicate] at hdefined

theorem settled_blank :
    (blank placeholder size vertexSet).settled placeholder = blank placeholder size vertexSet := by
  simp [blank, settled, settledCell]

@[simp] theorem vertexSet_ofCells : (ofCells placeholder size vertexSet cells).vertexSet = vertexSet :=
  vertexSet_fill cells

theorem aligned_ofCells : (ofCells placeholder size vertexSet cells).Aligned size :=
  (aligned_blank placeholder size vertexSet).fill cells

theorem settled_ofCells :
    (ofCells placeholder size vertexSet cells).settled placeholder
      = ofCells placeholder size vertexSet cells := by
  rw [ofCells, settled_fill, settled_blank]

variable {cells}

theorem cells_ofCells_perm (hlt : ∀ cell ∈ cells, cell.1 < size)
    (hnodup : (cells.map (·.1)).Nodup) :
    (ofCells placeholder size vertexSet cells).cells.Perm cells := by
  have hblank := aligned_blank placeholder size vertexSet
  have hfill := cells_fill_perm hblank hlt (by rwa [cells_blank, List.nil_append])
  rwa [cells_blank, List.nil_append] at hfill

variable {size}

theorem settled_eq_ofOptions (h : column.Aligned size) :
    column.settled placeholder
      = ofOptions placeholder column.vertexSet ((List.range size).map column.get?) := by
  have hvalues : (column.values.zip column.defined).map (settledCell placeholder)
      = ((List.range size).map column.get?).map (·.getD placeholder) := by
    apply List.ext_getElem
    · simp [h.length_values, h.length_defined]
    · intro i hi hi'
      have hv : i < column.values.length := by simp at hi; omega
      have hd : i < column.defined.length := by simp at hi; omega
      cases hmark : column.defined[i] with
      | false => simp [settledCell, get?, hmark, hd]
      | true => simp [settledCell, get?, hmark, hd, hv]
  have hdefined : column.defined = ((List.range size).map column.get?).map (·.isSome) := by
    apply List.ext_getElem
    · simp [h.length_defined]
    · intro i hd hi'
      have hv : i < column.values.length := by rw [h.length_values, ← h.length_defined]; exact hd
      cases hmark : column.defined[i] with
      | false => simp [get?, hmark, hd]
      | true => simp [get?, hmark, hd, hv]
  rw [settled, ofOptions, hvalues, ← hdefined]

/-- Apart from placeholders a column is its cells. -/
theorem settled_eq_of_cells {other : Attribute α} (h : column.Aligned size)
    (h' : other.Aligned size) (hset : column.vertexSet = other.vertexSet)
    (hcells : column.cells = other.cells) :
    column.settled placeholder = other.settled placeholder := by
  have hget : column.get? = other.get? := by
    funext position
    apply Option.ext
    intro value
    rw [get?_eq_some_iff, get?_eq_some_iff, hcells]
  rw [settled_eq_ofOptions placeholder h, settled_eq_ofOptions placeholder h', hset, hget]

/-- The cells of a column define it again. -/
theorem ofCells_cells (h : column.Aligned size) :
    ofCells placeholder size column.vertexSet column.cells = column.settled placeholder := by
  have hlt : ∀ cell ∈ column.cells, cell.1 < size := fun _ hcell => h.position_lt hcell
  have hperm := cells_ofCells_perm placeholder size column.vertexSet hlt column.nodup_positions
  have hcells := eq_cells_of_perm hperm column.pairwise_cells
  have haligned := aligned_ofCells placeholder size column.vertexSet column.cells
  rw [← settled_ofCells]
  apply settled_eq_of_cells placeholder haligned h (vertexSet_ofCells _ _ _ _) hcells

end GraphVault.Attribute
