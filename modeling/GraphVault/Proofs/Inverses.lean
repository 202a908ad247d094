import GraphVault.Entity.Inverse
import GraphVault.Proofs.Content
import GraphVault.Proofs.ExternalIds

/-!
# Inverses that are kept

A look-up and a check make the inverse of a vertex set in different ways, and what is made first
stays. It is the same map either way, so that the order in which a set is asked never shows in an
answer (`VertexSet.calls_answered`).
-/

namespace GraphVault

namespace VertexSet

variable {id : Int64} {ids seen : List Int64} {vertices : VertexSet} {guid : Guid}

/-! ### What the mapping alone answers -/

theorem lastPlace_eq_some_iff {place : Nat} : lastPlace id ids = some place ↔
    ids[place]? = some id ∧ ∀ other, ids[other]? = some id → other ≤ place := by
  induction ids generalizing place with
  | nil => simp [lastPlace]
  | cons head tail ih =>
    rw [lastPlace]
    cases hlast : lastPlace id tail with
    | some last =>
      obtain ⟨hat, hgreatest⟩ := ih.1 hlast
      simp only [Option.some.injEq]
      constructor
      · rintro rfl
        refine ⟨hat, fun other hother => ?_⟩
        cases other with
        | zero => omega
        | succ other => exact Nat.succ_le_succ (hgreatest other hother)
      · rintro ⟨hplace, hlater⟩
        have hle := hlater (last + 1) hat
        cases place with
        | zero => omega
        | succ place =>
          have hge := hgreatest place hplace
          omega
    | none =>
      have habsent (other : Nat) : tail[other]? ≠ some id := fun hother =>
        lastPlace_eq_none_iff.1 hlast (List.mem_of_getElem? hother)
      simp only
      split_ifs with hhead
      · subst hhead
        constructor
        · rintro ⟨⟩
          refine ⟨List.getElem?_cons_zero, fun other hother => ?_⟩
          cases other with
          | zero => exact Nat.le_refl 0
          | succ other => exact absurd hother (habsent other)
        · rintro ⟨hplace, -⟩
          cases place with
          | zero => rfl
          | succ place => exact absurd hplace (habsent place)
      · refine iff_of_false not_false ?_
        rintro ⟨hplace, -⟩
        cases place with
        | zero => exact hhead (Option.some.inj hplace)
        | succ place => exact absurd hplace (habsent place)

/-- The id at a place is also at an earlier one, or among those seen before. -/
def Repeats (seen ids : List Int64) (place : Nat) : Prop :=
  ∃ id, ids[place]? = some id ∧ (id ∈ seen ∨ id ∈ ids.take place)

private theorem repeats_cons_iff {head : Int64} {tail : List Int64} {place : Nat} :
    Repeats seen (head :: tail) (place + 1) ↔ Repeats (head :: seen) tail place := by
  refine exists_congr fun id => ?_
  rw [List.getElem?_cons_succ, List.take_succ_cons, List.mem_cons, List.mem_cons, or_left_comm,
    or_assoc]

theorem firstRepeat_eq_some_iff : firstRepeat seen ids = some id ↔
    ∃ place, ids[place]? = some id ∧ Repeats seen ids place ∧
      ∀ earlier < place, ¬ Repeats seen ids earlier := by
  induction ids generalizing seen with
  | nil => simp [firstRepeat]
  | cons head tail ih =>
    have hzero : Repeats seen (head :: tail) 0 ↔ head ∈ seen := by simp [Repeats]
    rw [firstRepeat]
    split_ifs with hhead
    · constructor
      · rintro ⟨⟩
        exact ⟨0, rfl, hzero.2 hhead, fun earlier h => absurd h (Nat.not_lt_zero earlier)⟩
      · rintro ⟨place, hplace, -, hfirst⟩
        cases place with
        | zero => exact hplace
        | succ place => exact absurd (hzero.2 hhead) (hfirst 0 (Nat.succ_pos place))
    · rw [ih]
      constructor
      · rintro ⟨place, hplace, hrepeats, hfirst⟩
        refine ⟨place + 1, hplace, repeats_cons_iff.2 hrepeats, fun earlier hearlier => ?_⟩
        cases earlier with
        | zero => exact fun h => hhead (hzero.1 h)
        | succ earlier => exact fun h => hfirst earlier (by omega) (repeats_cons_iff.1 h)
      · rintro ⟨place, hplace, hrepeats, hfirst⟩
        cases place with
        | zero => exact absurd (hzero.1 hrepeats) hhead
        | succ place =>
          refine ⟨place, hplace, repeats_cons_iff.1 hrepeats, fun earlier hearlier h => ?_⟩
          exact hfirst (earlier + 1) (by omega) (repeats_cons_iff.2 h)

theorem positionOf_eq_some_iff {position : Nat} : vertices.positionOf id = some position ↔
    vertices.mapping[position]? = some id ∧
      ∀ other, vertices.mapping[other]? = some id → other ≤ position :=
  lastPlace_eq_some_iff

/-- A set is refused for the id at the first place that repeats an earlier one. -/
theorem validate_eq_error_iff {failure : Failure} : vertices.validate guid = .error failure ↔
    ∃ place id, vertices.mapping[place]? = some id ∧ Repeats [] vertices.mapping place ∧
      (∀ earlier < place, ¬ Repeats [] vertices.mapping earlier) ∧
      failure = .duplicateExternalId guid id := by
  rw [validate]
  constructor
  · intro h
    split at h
    · rename_i id hid
      obtain ⟨place, hplace, hrepeats, hfirst⟩ := firstRepeat_eq_some_iff.1 hid
      exact ⟨place, id, hplace, hrepeats, hfirst, (Except.error.inj h).symm⟩
    · cases h
  · rintro ⟨place, id, hplace, hrepeats, hfirst, rfl⟩
    rw [firstRepeat_eq_some_iff.2 ⟨place, hplace, hrepeats, hfirst⟩]

/-- Where no id is repeated, positions and ids stand for each other. -/
theorem positionOf_eq_some_iff_of_nodup (h : vertices.mapping.Nodup) {position : Nat} :
    vertices.positionOf id = some position ↔ vertices.externalId position = some id := by
  rw [positionOf_eq_some_iff, externalId]
  refine and_iff_left_of_imp fun hposition other hother => ?_
  have hlt := (List.getElem?_eq_some_iff.1 hother).1
  exact Nat.le_of_eq ((List.getElem?_inj hlt h).1 (hother.trans hposition.symm))

end VertexSet

/-! ### What the inverse answers -/

namespace Inverse

open VertexSet

variable {inverse : Inverse} {id : Int64} {ids seen : List Int64} {guid : Guid}

/-- The last place of an id counts, and ids that are not there are as before. -/
theorem get?_collect (inverse : Inverse) (position : Nat) (ids : List Int64) (id : Int64) :
    (collect inverse position ids).get? id = match lastPlace id ids with
      | some place => some (position + place)
      | none => inverse.get? id := by
  induction ids generalizing inverse position with
  | nil => rfl
  | cons head tail ih =>
    rw [collect, ih, lastPlace]
    cases lastPlace id tail with
    | some place => exact congrArg some (by omega)
    | none =>
      simp only
      split_ifs with hhead
      · subst hhead
        exact SortedMap.get?_insert_self _ _ _
      · exact SortedMap.get?_insert_of_ne _ _ (Ne.symm hhead)

/-- Checking while collecting refuses what the check alone refuses, and collects the same. -/
theorem collectNew_eq (guid : Guid) (position : Nat) (ids : List Int64)
    (h : ∀ id, inverse.contains id ↔ id ∈ seen) :
    collectNew guid inverse position ids = match firstRepeat seen ids with
      | some id => .error (.duplicateExternalId guid id)
      | none => .ok (collect inverse position ids) := by
  induction ids generalizing inverse seen position with
  | nil => rfl
  | cons head tail ih =>
    rw [collectNew, firstRepeat]
    by_cases hhead : head ∈ seen
    · rw [if_pos ((h head).2 hhead), if_pos hhead]
    · rw [if_neg fun hcontains => hhead ((h head).1 hcontains), if_neg hhead, collect]
      apply ih
      intro id
      by_cases hid : id = head
      · subst hid
        simp [SortedMap.contains]
      · have hkept : (inverse.insert head position).contains id = inverse.contains id :=
          congrArg Option.isSome (SortedMap.get?_insert_of_ne _ _ hid)
        rw [hkept, h id, List.mem_cons, or_iff_right hid]

end Inverse

namespace VertexSet

variable {id : Int64} {vertices : VertexSet} {guid : Guid} {cache : Option Inverse}

/-- The inverse of a vertex set. -/
def inverse (vertices : VertexSet) : Inverse := .collect SortedMap.empty 0 vertices.mapping

theorem get?_inverse (vertices : VertexSet) (id : Int64) :
    vertices.inverse.get? id = vertices.positionOf id := by
  rw [inverse, Inverse.get?_collect, positionOf]
  cases lastPlace id vertices.mapping with
  | some place => exact congrArg some (Nat.zero_add place)
  | none => rfl

theorem collectNew_mapping (vertices : VertexSet) (guid : Guid) :
    Inverse.collectNew guid SortedMap.empty 0 vertices.mapping =
      (vertices.validate guid).map fun _ => vertices.inverse := by
  have hempty : ∀ id : Int64, (SortedMap.empty : Inverse).contains id ↔ id ∈ ([] : List Int64) :=
    fun id => iff_of_false nofun List.not_mem_nil
  rw [Inverse.collectNew_eq guid 0 vertices.mapping hempty, validate]
  cases firstRepeat [] vertices.mapping <;> rfl

/-- What is kept for a vertex set is its inverse, if anything. -/
def Keeps (vertices : VertexSet) (cache : Option Inverse) : Prop :=
  ∀ kept ∈ cache, kept = vertices.inverse

theorem Keeps.inverse_eq (h : vertices.Keeps cache) :
    (InverseM.inverse vertices).run cache = (vertices.inverse, some vertices.inverse) := by
  cases cache with
  | none => rfl
  | some kept =>
    rw [h kept rfl]
    rfl

theorem Keeps.validate_eq (h : vertices.Keeps cache) (guid : Guid) :
    ((InverseM.validate vertices guid).run cache).1 = vertices.validate guid ∧
      vertices.Keeps ((InverseM.validate vertices guid).run cache).2 := by
  rw [InverseM.validate, collectNew_mapping]
  cases vertices.validate guid with
  | error failure => exact ⟨rfl, h⟩
  | ok verdict =>
    refine ⟨rfl, ?_⟩
    intro kept hkept
    cases cache with
    | none => exact (Option.some.inj hkept).symm
    | some before =>
      obtain rfl := Option.some.inj hkept
      exact h _ rfl

/-- Each call is answered as the mapping alone answers it, and leaves nothing but the inverse. -/
theorem Keeps.perform (h : vertices.Keeps cache) (call : Call) :
    ((call.perform vertices).run cache).1 = call.answer vertices ∧
      vertices.Keeps ((call.perform vertices).run cache).2 := by
  cases call with
  | positionOf id =>
    simp only [Call.perform, InverseM.positionOf, StateT.run_bind, h.inverse_eq]
    exact ⟨congrArg Answer.position (get?_inverse vertices id), fun kept hkept =>
      (Option.some.inj hkept).symm⟩
  | externalId position => exact ⟨rfl, h⟩
  | validate guid =>
    obtain ⟨hverdict, hkeeps⟩ := h.validate_eq guid
    exact ⟨congrArg Answer.verdict hverdict, hkeeps⟩

/-- So are calls one after the other. -/
theorem Keeps.perform_all (h : vertices.Keeps cache) (calls : List Call) :
    ((calls.mapM (Call.perform vertices)).run cache).1 = calls.map (Call.answer vertices) ∧
      vertices.Keeps ((calls.mapM (Call.perform vertices)).run cache).2 := by
  induction calls generalizing cache with
  | nil => exact ⟨rfl, h⟩
  | cons call calls ih =>
    obtain ⟨hanswer, hkeeps⟩ := h.perform call
    obtain ⟨hanswers, hlast⟩ := ih hkeeps
    rw [List.mapM_cons, List.map_cons, ← hanswer, ← hanswers]
    exact ⟨rfl, hlast⟩

/-- Whatever is asked of a vertex set, in whatever order, is answered by its mapping alone: the
position of an id is the greatest that has it, and a check refuses the id at the first place that
repeats an earlier one. Where it refuses none, positions and ids stand for each other one to one. -/
theorem calls_answered (vertices : VertexSet) (calls : List Call) :
    ((calls.mapM (Call.perform vertices)).run none).1 = calls.map (Call.answer vertices) ∧
    (∀ id, (vertices.positionOf id = none ↔ id ∉ vertices.mapping) ∧
      ∀ position, vertices.positionOf id = some position ↔
        vertices.mapping[position]? = some id ∧
          ∀ other, vertices.mapping[other]? = some id → other ≤ position) ∧
    (∀ guid, (vertices.validate guid = .ok () ↔ vertices.mapping.Nodup) ∧
      ∀ failure, vertices.validate guid = .error failure ↔
        ∃ place id, vertices.mapping[place]? = some id ∧ Repeats [] vertices.mapping place ∧
          (∀ earlier < place, ¬ Repeats [] vertices.mapping earlier) ∧
          failure = .duplicateExternalId guid id) ∧
    ∀ guid, vertices.validate guid = .ok () →
      (∀ id position, vertices.positionOf id = some position ↔
        vertices.externalId position = some id) ∧
      (∀ id, (∃ position, vertices.positionOf id = some position) ↔ id ∈ vertices.mapping) ∧
      ∀ position, (∃ id, vertices.externalId position = some id) ↔ position < vertices.size := by
  have hnothing : vertices.Keeps none := nofun
  refine ⟨(hnothing.perform_all calls).1,
    fun id => ⟨positionOf_eq_none_iff, fun position => positionOf_eq_some_iff⟩,
    fun guid => ⟨validate_eq_ok_iff, fun failure => validate_eq_error_iff⟩, fun guid hvalid => ?_⟩
  have hnodup := validate_eq_ok_iff.1 hvalid
  refine ⟨fun id position => positionOf_eq_some_iff_of_nodup hnodup, fun id => ?_,
    fun position => ?_⟩
  · rw [← Option.isSome_iff_exists, Option.isSome_iff_ne_none, Ne, positionOf_eq_none_iff,
      Decidable.not_not]
  · rw [← Option.isSome_iff_exists, externalId, isSome_getElem?]
    exact Iff.rfl

/-- A set with a repeated id is asked before and after it is refused. -/
example : (([.positionOf 7, .validate ⟨List.replicate 32 0, rfl⟩, .positionOf 7, .externalId 0] :
      List Call).mapM (Call.perform ⟨[7, 8, 7]⟩)).run' none =
    [.position (some 2), .verdict (.error (.duplicateExternalId ⟨List.replicate 32 0, rfl⟩ 7)),
      .position (some 2), .id (some 7)] := by rfl

end VertexSet

end GraphVault
