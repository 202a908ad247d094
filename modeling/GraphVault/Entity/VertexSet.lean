import GraphVault.Failure

/-!
# Vertex sets

A vertex set numbers external ids: the id at place `p` of its mapping is the one of position `p`.
Main statements: `positionOf` finds the greatest position of an id, and `validate` refuses exactly
the mappings that repeat an id.
-/

namespace GraphVault

/-- External ids by position. -/
structure VertexSet where
  mapping : List Int64
  deriving DecidableEq

namespace VertexSet

/-- The number of positions. -/
def size (set : VertexSet) : Nat := set.mapping.length

/-- The external id at a position. -/
def externalId (set : VertexSet) (position : Nat) : Option Int64 := set.mapping[position]?

/-- The last place of an id in a list. -/
def lastPlace (id : Int64) : List Int64 → Option Nat
  | [] => none
  | head :: tail =>
    match lastPlace id tail with
    | some place => some (place + 1)
    | none => if head = id then some 0 else none

/-- The greatest position of an external id. -/
def positionOf (set : VertexSet) (id : Int64) : Option Nat := lastPlace id set.mapping

/-- The first id of a list that occurred before, in the list or among `seen`. -/
def firstRepeat (seen : List Int64) : List Int64 → Option Int64
  | [] => none
  | head :: tail => if head ∈ seen then some head else firstRepeat (head :: seen) tail

/-- Accepts a set whose external ids are distinct. -/
def validate (set : VertexSet) (guid : Guid) : Except Failure Unit :=
  match firstRepeat [] set.mapping with
  | some id => .error (.duplicateExternalId guid id)
  | none => .ok ()

theorem lastPlace_eq_none_iff {id : Int64} {ids : List Int64} :
    lastPlace id ids = none ↔ id ∉ ids := by
  induction ids with
  | nil => simp [lastPlace]
  | cons head tail ih =>
    rw [lastPlace]
    split
    · rename_i place h
      have : id ∈ tail := by
        rw [← Decidable.not_not (p := id ∈ tail), ← ih, h]
        simp
      simp [this]
    · rename_i h
      have hid := ih.1 h
      split
      · rename_i heq
        simp [heq]
      · rename_i hne
        simp [hid, Ne.symm hne]

theorem firstRepeat_eq_none_iff {seen ids : List Int64} :
    firstRepeat seen ids = none ↔ ids.Nodup ∧ ∀ id ∈ ids, id ∉ seen := by
  induction ids generalizing seen with
  | nil => simp [firstRepeat]
  | cons head tail ih =>
    rw [firstRepeat]
    split
    · rename_i h
      simp [h]
    · rename_i h
      simp only [ih, List.nodup_cons, List.mem_cons, not_or, forall_eq_or_imp]
      constructor
      · rintro ⟨hnodup, hseen⟩
        exact ⟨⟨fun hmem => (hseen head hmem).1 rfl, hnodup⟩, h, fun id hid => (hseen id hid).2⟩
      · rintro ⟨⟨hhead, hnodup⟩, -, hseen⟩
        exact ⟨hnodup, fun id hid => ⟨fun heq => hhead (heq ▸ hid), hseen id hid⟩⟩

end VertexSet

end GraphVault
