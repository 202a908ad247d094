import GraphVault.Failure

/-!
# Checks on columns

The two checks that every column has to pass: it has the length it must align to, and its positions
lie inside a vertex set.
-/

namespace GraphVault.Check

/-- Accepts a column of the expected length. -/
def length (guid : Guid) (field : String) (expected actual : Nat) : Except Failure Unit :=
  if expected = actual then .ok () else .error (.lengthMismatch guid field expected actual)

/-- A position as messages show it: no more than the largest signed word. -/
def shown (position : UInt64) : Int := min position.toNat (2 ^ 63 - 1)

/-- Accepts positions below `size`; otherwise names the first one that is not. -/
def positions (guid : Guid) (field : String) (size : Nat) (positions : List UInt64) :
    Except Failure Unit :=
  match positions.zipIdx.find? fun (position, _) => size ≤ position.toNat with
  | some (position, index) =>
    .error (.positionOutOfRange guid field index (shown position) size)
  | none => .ok ()

theorem length_eq_ok_iff {guid : Guid} {field : String} {expected actual : Nat} :
    length guid field expected actual = .ok () ↔ expected = actual := by
  unfold length
  split <;> simp_all

end GraphVault.Check
