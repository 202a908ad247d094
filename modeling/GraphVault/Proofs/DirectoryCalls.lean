import GraphVault.Proofs.DirectoryContents
import Mathlib.Data.List.Induction

/-!
# Calls of entity directories

What may be asked of the entity directories below a root, and how a map of copies that are written
once answers it: the copies in the map are those that stand, each the first that was written of its
entity since the entity was last removed (`EntityDirectory.get?_copiesAfter`).
-/

namespace GraphVault.EntityDirectory

/-- What may be asked of the entity directories below a root. -/
inductive Call where
  | write (stored : Stored)
  | read (guid : Guid)
  | remove (guid : Guid)
  | contains (guid : Guid)
  | list

/-- What a call is answered that does not fail. -/
inductive Answer where
  | done
  | copy (found : Except Failure Stored)
  | present (isPresent : Bool)
  | guids (guids : List Guid)

namespace Call

/-- Asks it of the directories on a disk. -/
def perform (root : String) : Call → DiskM Answer
  | .write stored => do
    EntityDirectory.write root stored
    return .done
  | .read guid => return .copy (EntityDirectory.read (← get) root guid)
  | .remove guid => do
    EntityDirectory.remove root guid
    return .done
  | .contains guid => return .present (EntityDirectory.contains (← get) root guid)
  | .list => return .guids (EntityDirectory.list (← get) root)

/-- The answer where these are the copies. -/
def answer (copies : SortedMap Guid Stored) : Call → Answer
  | .write _ => .done
  | .read guid =>
    .copy (match copies.get? guid with
      | some stored => .ok stored
      | none => .error (.missingEntity guid))
  | .remove _ => .done
  | .contains guid => .present (copies.contains guid)
  | .list => .guids copies.keys

/-- The copies afterwards. One that is there is not written again. -/
def change (copies : SortedMap Guid Stored) : Call → SortedMap Guid Stored
  | .write stored =>
    if copies.contains stored.manifest.guid then copies
    else copies.insert stored.manifest.guid stored
  | .remove guid => copies.erase guid
  | _ => copies

/-- The directory of an entity may be changed. -/
def Changes (guid : Guid) : Call → Prop
  | .write stored => stored.manifest.guid = guid
  | .remove other => other = guid
  | _ => False

/-- What is written can be read. -/
def Readable : Call → Prop
  | .write stored => EntityDirectory.Readable stored
  | _ => True

end Call

/-- The answers to calls, one after the other, from when these are the copies. -/
def answers (copies : SortedMap Guid Stored) : List Call → List Answer
  | [] => []
  | call :: calls => call.answer copies :: answers (call.change copies) calls

/-- The copies after calls, before which there were none. -/
def copiesAfter (calls : List Call) : SortedMap Guid Stored := calls.foldl Call.change .empty

/-! ### What stands after calls -/

/-- Whatever was written of an entity has been removed. -/
def Vacant (calls : List Call) (guid : Guid) : Prop :=
  ∀ front stored back, calls = front ++ .write stored :: back → stored.manifest.guid = guid →
    .remove guid ∈ back

/-- A copy is the first that was written of its entity since the entity was last removed. -/
def Standing (calls : List Call) (guid : Guid) (stored : Stored) : Prop :=
  ∃ front back, calls = front ++ .write stored :: back ∧ stored.manifest.guid = guid ∧
    Vacant front guid ∧ .remove guid ∉ back

variable {calls : List Call} {call : Call} {copies : SortedMap Guid Stored} {g : Guid}
  {stored : Stored}

theorem vacant_append_iff : Vacant (calls ++ [call]) g ↔
    call = .remove g ∨ Vacant calls g ∧ ¬ call.Changes g := by
  constructor
  · intro h
    by_cases hremove : call = .remove g
    · exact .inl hremove
    · refine .inr ⟨fun front stored back heq hguid => ?_, ?_⟩
      · have hmem := h front stored (back ++ [call])
          (append_singleton_eq_iff.2 (.inr ⟨back, rfl, heq⟩)) hguid
        rw [List.mem_append, List.mem_singleton] at hmem
        exact hmem.resolve_right fun heq => hremove heq.symm
      · intro hchanges
        cases call with
        | write stored =>
          exact List.not_mem_nil
            (h calls stored [] (append_singleton_eq_iff.2 (.inl ⟨rfl, rfl, rfl⟩)) hchanges)
        | remove other => exact hremove (congrArg Call.remove hchanges)
        | _ => exact hchanges
  · intro h front stored back heq hguid
    rcases append_singleton_eq_iff.1 heq with ⟨rfl, -, rfl⟩ | ⟨rest, rfl, hcalls⟩
    · rcases h with hremove | hvacant
      · cases hremove
      · exact absurd hguid hvacant.2
    · rw [List.mem_append, List.mem_singleton]
      rcases h with hremove | hvacant
      · exact .inr hremove.symm
      · exact .inl (hvacant.1 front stored rest hcalls hguid)

theorem standing_append_iff : Standing (calls ++ [call]) g stored ↔
    Standing calls g stored ∧ call ≠ .remove g ∨
      call = .write stored ∧ stored.manifest.guid = g ∧ Vacant calls g := by
  constructor
  · rintro ⟨front, back, heq, hguid, hvacant, hkept⟩
    rcases append_singleton_eq_iff.1 heq with ⟨rfl, rfl, rfl⟩ | ⟨rest, rfl, hcalls⟩
    · exact .inr ⟨rfl, hguid, hvacant⟩
    · rw [List.mem_append, List.mem_singleton, not_or] at hkept
      exact .inl ⟨⟨front, rest, hcalls, hguid, hvacant, hkept.1⟩, fun heq => hkept.2 heq.symm⟩
  · rintro (⟨⟨front, back, rfl, hguid, hvacant, hkept⟩, hcall⟩ | ⟨rfl, hguid, hvacant⟩)
    · refine ⟨front, back ++ [call], by simp, hguid, hvacant, ?_⟩
      rw [List.mem_append, List.mem_singleton, not_or]
      exact ⟨hkept, fun heq => hcall heq.symm⟩
    · exact ⟨calls, [], rfl, hguid, hvacant, List.not_mem_nil⟩

private theorem get?_change_write (copies : SortedMap Guid Stored) (stored : Stored) (g : Guid) :
    ((Call.write stored).change copies).get? g =
      if stored.manifest.guid = g ∧ copies.get? g = none then some stored else copies.get? g := by
  rw [Call.change]
  by_cases hguid : stored.manifest.guid = g
  · subst hguid
    rw [SortedMap.contains]
    cases hget : copies.get? stored.manifest.guid with
    | none => simp
    | some kept => simp [hget]
  · have hother : (copies.insert stored.manifest.guid stored).get? g = copies.get? g :=
      SortedMap.get?_insert_of_ne _ _ fun heq => hguid heq.symm
    simp only [hguid, false_and, if_false]
    split
    · rfl
    · exact hother

private theorem get?_change_remove (copies : SortedMap Guid Stored) (other g : Guid) :
    ((Call.remove other).change copies).get? g = if other = g then none else copies.get? g := by
  rw [Call.change]
  by_cases hguid : other = g
  · rw [hguid, if_pos rfl, SortedMap.get?_erase_self]
  · rw [if_neg hguid, SortedMap.get?_erase_of_ne _ fun heq => hguid heq.symm]

theorem copiesAfter_append (calls : List Call) (call : Call) :
    copiesAfter (calls ++ [call]) = call.change (copiesAfter calls) := by
  rw [copiesAfter, List.foldl_append]
  rfl

/-- The copies after calls are those that stand. -/
theorem get?_copiesAfter (calls : List Call) (g : Guid) :
    ((copiesAfter calls).get? g = none ↔ Vacant calls g) ∧
      ∀ stored, (copiesAfter calls).get? g = some stored ↔ Standing calls g stored := by
  induction calls using List.reverseRecOn with
  | nil =>
    refine ⟨iff_of_true rfl fun front stored back heq => ?_, fun stored => iff_of_false nofun ?_⟩
    · simp at heq
    · rintro ⟨front, back, heq, -⟩
      simp at heq
  | append_singleton calls call ih =>
    obtain ⟨hnone, hsome⟩ := ih
    simp only [copiesAfter_append, vacant_append_iff, standing_append_iff, ← hnone, ← hsome]
    generalize copiesAfter calls = copies
    cases call with
    | write written =>
      rw [get?_change_write]
      by_cases hwritten : written.manifest.guid = g ∧ copies.get? g = none
      · obtain ⟨rfl, hget⟩ := hwritten
        simp [hget, Call.Changes, eq_comm]
      · rw [if_neg hwritten]
        refine ⟨?_, fun stored => ?_⟩
        · simp only [Call.Changes, reduceCtorEq, false_or]
          tauto
        · simp only [Call.write.injEq, ne_eq, reduceCtorEq, not_false_eq_true, and_true]
          refine (or_iff_left ?_).symm
          rintro ⟨rfl, hguid, hget⟩
          exact hwritten ⟨hguid, hget⟩
    | remove other =>
      rw [get?_change_remove]
      by_cases hguid : other = g
      · simp [hguid]
      · simp [hguid, Call.Changes]
    | read other => simp [Call.change, Call.Changes]
    | contains other => simp [Call.change, Call.Changes]
    | list => simp [Call.change, Call.Changes]

end GraphVault.EntityDirectory
