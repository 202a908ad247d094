import GraphVault.Dag
import GraphVault.Proofs.Yields

/-!
# Graphs of instances

A graph comprises the instances that it is made of, and knows the producer of each of their outputs.
It can be made of any instances whose guids are derived, if no two of them share a guid and no guid
is an output twice.
-/

namespace GraphVault

/-- An instance takes an output of another one. -/
def Instance.Uses (i j : Instance) : Prop := ∃ input ∈ i.inputs.values, input ∈ j.outputs.values

namespace Dag

variable {dag after : Dag} {listed : List Instance} {i j : Instance} {guid output : Guid}

/-! ### What a graph comprises -/

/-- A graph of listed instances. -/
structure Comprises (listed : List Instance) (dag : Dag) : Prop where
  instances : ∀ guid i, dag.instances.get? guid = some i ↔ i ∈ listed ∧ i.guid = guid
  producers : ∀ output guid, dag.producers.get? output = some guid ↔
    ∃ i ∈ listed, i.guid = guid ∧ output ∈ i.outputs.values
  verified : ∀ i ∈ listed, i.verify = .ok ()
  outputs : ∀ i ∈ listed, i.outputs.values.Nodup

/-- Instances that can be in one graph. -/
structure Compatible (listed : List Instance) : Prop where
  verified : ∀ i ∈ listed, i.verify = .ok ()
  guids : ∀ i ∈ listed, ∀ j ∈ listed, i.guid = j.guid → i = j
  outputs : ∀ i ∈ listed, i.outputs.values.Nodup
  producers : ∀ i ∈ listed, ∀ j ∈ listed, ∀ output ∈ i.outputs.values,
    output ∈ j.outputs.values → i = j

private theorem claim_eq_ok {producer : Guid} {outputs : List Guid}
    {producers claimed : SortedMap Guid Guid}
    (h : claim producer outputs producers = .ok claimed) :
    outputs.Nodup ∧ (∀ output ∈ outputs, producers.get? output = none) ∧
      ∀ output guid, claimed.get? output = some guid ↔
        output ∈ outputs ∧ guid = producer ∨ producers.get? output = some guid := by
  induction outputs generalizing producers with
  | nil =>
    cases h
    exact ⟨List.nodup_nil, nofun, fun _ _ => by simp⟩
  | cons first outputs ih =>
    rw [claim] at h
    split at h
    · cases h
    rename_i hfree
    have hnone : producers.get? first = none := by
      simpa [SortedMap.contains] using hfree
    obtain ⟨hnodup, hfree, hclaimed⟩ := ih h
    have hnotin : first ∉ outputs := by
      intro hmem
      have hget := hfree first hmem
      rw [SortedMap.get?_insert_self] at hget
      cases hget
    refine ⟨List.nodup_cons.2 ⟨hnotin, hnodup⟩, fun output houtput => ?_, fun output guid => ?_⟩
    · cases List.mem_cons.1 houtput with
      | inl heq => exact heq ▸ hnone
      | inr hmem =>
        have hne : output ≠ first := fun heq => hnotin (heq ▸ hmem)
        rw [← SortedMap.get?_insert_of_ne producers producer hne]
        exact hfree output hmem
    · rw [hclaimed output guid, List.mem_cons]
      by_cases heq : output = first
      · subst heq
        simp [hnone, hnotin, eq_comm]
      · rw [SortedMap.get?_insert_of_ne _ _ heq]
        simp [heq]

private theorem exists_claim (producer : Guid) {outputs : List Guid}
    {producers : SortedMap Guid Guid} (hnodup : outputs.Nodup)
    (hfree : ∀ output ∈ outputs, producers.get? output = none) :
    ∃ claimed, claim producer outputs producers = .ok claimed := by
  induction outputs generalizing producers with
  | nil => exact ⟨_, rfl⟩
  | cons first outputs ih =>
    obtain ⟨hnotin, hnodup⟩ := List.nodup_cons.1 hnodup
    have hnone : producers.contains first = false := by
      rw [SortedMap.contains, hfree first List.mem_cons_self]
      rfl
    simp only [claim, hnone, Bool.false_eq_true, if_false]
    refine ih hnodup fun output houtput => ?_
    have hne : output ≠ first := fun heq => hnotin (heq ▸ houtput)
    rw [SortedMap.get?_insert_of_ne _ _ hne]
    exact hfree output (List.mem_cons_of_mem first houtput)

theorem comprises_empty : Comprises [] empty :=
  ⟨fun _ _ => by simp [empty], fun _ _ => by simp [empty], nofun, nofun⟩

theorem Comprises.get? (h : dag.Comprises listed) (hi : i ∈ listed) :
    dag.instances.get? i.guid = some i := (h.instances i.guid i).2 ⟨hi, rfl⟩

theorem Comprises.of_mem_iff (h : dag.Comprises listed) {others : List Instance}
    (hmem : ∀ i, i ∈ others ↔ i ∈ listed) : dag.Comprises others := by
  constructor
  · intro guid i
    rw [h.instances, hmem]
  · intro output guid
    simp only [h.producers, hmem]
  · exact fun i hi => h.verified i ((hmem i).1 hi)
  · exact fun i hi => h.outputs i ((hmem i).1 hi)

/-- An instance under a new guid is one more. -/
private theorem Comprises.get?_insert (h : dag.Comprises listed)
    (hget : dag.instances.get? i.guid = none) (guid : Guid) (x : Instance) :
    (dag.instances.insert i.guid i).get? guid = some x ↔ x ∈ listed ++ [i] ∧ x.guid = guid := by
  have hnew : ∀ x ∈ listed, x.guid ≠ i.guid := by
    intro x hx heq
    have hx' := h.get? hx
    rw [heq, hget] at hx'
    cases hx'
  rw [List.mem_append, List.mem_singleton]
  by_cases heq : guid = i.guid
  · subst heq
    rw [SortedMap.get?_insert_self, Option.some.injEq]
    constructor
    · rintro rfl
      exact ⟨.inr rfl, rfl⟩
    · rintro ⟨hx | rfl, hguid⟩
      · exact absurd hguid (hnew x hx)
      · rfl
  · rw [SortedMap.get?_insert_of_ne _ _ heq, h.instances]
    constructor
    · exact fun hx => ⟨.inl hx.1, hx.2⟩
    · rintro ⟨hx | rfl, hguid⟩
      · exact ⟨hx, hguid⟩
      · exact absurd hguid.symm heq

theorem Comprises.add (h : dag.Comprises listed) (hadd : dag.add i = .ok after) :
    after.Comprises (listed ++ [i]) := by
  simp only [Dag.add, check_bind_eq_ok_iff] at hadd
  obtain ⟨hverified, hadd⟩ := hadd
  cases hget : dag.instances.get? i.guid with
  | some other =>
    rw [hget] at hadd
    dsimp only at hadd
    split at hadd
    · rename_i heq
      cases hadd
      subst heq
      have hother := ((h.instances _ _).1 hget).1
      refine h.of_mem_iff fun x => ?_
      rw [List.mem_append, List.mem_singleton, or_iff_left_iff_imp]
      rintro rfl
      exact hother
    · cases hadd
  | none =>
    rw [hget] at hadd
    obtain ⟨claimed, hclaim, hafter⟩ := bind_eq_ok_iff.1 hadd
    cases hafter
    obtain ⟨hnodup, -, hclaimed⟩ := claim_eq_ok hclaim
    constructor
    case instances => exact h.get?_insert hget
    case producers =>
      intro output guid
      simp only [hclaimed, h.producers, List.mem_append, List.mem_singleton]
      constructor
      · rintro (⟨houtput, rfl⟩ | ⟨x, hx, hguid, houtput⟩)
        · exact ⟨i, .inr rfl, rfl, houtput⟩
        · exact ⟨x, .inl hx, hguid, houtput⟩
      · rintro ⟨x, hx | rfl, rfl, houtput⟩
        · exact .inr ⟨x, hx, rfl, houtput⟩
        · exact .inl ⟨houtput, rfl⟩
    case verified =>
      intro x hx
      rcases List.mem_append.1 hx with hx | hx
      · exact h.verified x hx
      · rw [List.mem_singleton.1 hx]
        exact hverified
    case outputs =>
      intro x hx
      rcases List.mem_append.1 hx with hx | hx
      · exact h.outputs x hx
      · rw [List.mem_singleton.1 hx]
        exact hnodup

private theorem Comprises.exists_add (h : dag.Comprises listed)
    (hcompatible : Compatible (listed ++ [i])) : ∃ after, dag.add i = .ok after := by
  have hi : i ∈ listed ++ [i] := List.mem_append_right _ (List.mem_singleton_self i)
  have hmem {x : Instance} (hx : x ∈ listed) : x ∈ listed ++ [i] := List.mem_append_left _ hx
  have hverified := hcompatible.verified i hi
  cases hget : dag.instances.get? i.guid with
  | some other =>
    obtain ⟨hother, hguid⟩ := (h.instances _ _).1 hget
    have heq := hcompatible.guids other (hmem hother) i hi hguid
    refine ⟨dag, ?_⟩
    simp only [Dag.add, hverified, hget, heq, if_true]
    rfl
  | none =>
    have hfree : ∀ output ∈ i.outputs.values, dag.producers.get? output = none := by
      intro output houtput
      rw [Option.eq_none_iff_forall_ne_some]
      intro guid hguid
      obtain ⟨x, hx, -, hx'⟩ := (h.producers _ _).1 hguid
      have heq := hcompatible.producers x (hmem hx) i hi output hx' houtput
      rw [← heq, h.get? hx] at hget
      cases hget
    obtain ⟨claimed, hclaim⟩ := exists_claim i.guid (hcompatible.outputs i hi) hfree
    refine ⟨⟨dag.instances.insert i.guid i, claimed⟩, ?_⟩
    simp only [Dag.add, hverified, hget, hclaim]
    rfl

/-- A graph that is made of a list comprises it. -/
theorem comprises_of_ofList (h : ofList listed = .ok dag) : dag.Comprises listed := by
  have hgrown {more : List Instance} {start : Dag} {known : List Instance}
      (hstart : start.Comprises known) (hfold : more.foldlM Dag.add start = .ok dag) :
      dag.Comprises (known ++ more) := by
    induction more generalizing start known with
    | nil =>
      cases hfold
      rwa [List.append_nil]
    | cons i more ih =>
      rw [List.foldlM_cons] at hfold
      obtain ⟨between, hadd, hrest⟩ := bind_eq_ok_iff.1 hfold
      rw [List.append_cons]
      exact ih (hstart.add hadd) hrest
  exact hgrown comprises_empty h

theorem Comprises.compatible (h : dag.Comprises listed) : Compatible listed := by
  have hguids : ∀ i ∈ listed, ∀ j ∈ listed, i.guid = j.guid → i = j := by
    intro i hi j hj heq
    have hi' := h.get? hi
    rw [heq, h.get? hj, Option.some.injEq] at hi'
    exact hi'.symm
  refine ⟨h.verified, hguids, h.outputs, fun i hi j hj output houtput houtput' => ?_⟩
  have hi' := (h.producers output i.guid).2 ⟨i, hi, rfl, houtput⟩
  rw [(h.producers output j.guid).2 ⟨j, hj, rfl, houtput'⟩, Option.some.injEq] at hi'
  exact hguids i hi j hj hi'.symm

theorem Compatible.of_mem_iff (h : Compatible listed) {others : List Instance}
    (hmem : ∀ i, i ∈ others ↔ i ∈ listed) : Compatible others := by
  constructor
  · exact fun i hi => h.verified i ((hmem i).1 hi)
  · exact fun i hi j hj => h.guids i ((hmem i).1 hi) j ((hmem j).1 hj)
  · exact fun i hi => h.outputs i ((hmem i).1 hi)
  · exact fun i hi j hj => h.producers i ((hmem i).1 hi) j ((hmem j).1 hj)

/-- A verified instance can be in a graph by itself. -/
theorem compatible_single (hverify : i.verify = .ok ()) (hnodup : i.outputs.values.Nodup) :
    Compatible [i] := by
  constructor <;> simp only [List.mem_singleton, forall_eq, implies_true]
  case verified => exact hverify
  case outputs => exact hnodup

/-- Two verified instances that make nothing in common can be in a graph. -/
theorem compatible_pair (hi : Compatible [i]) (hj : Compatible [j]) (hguid : i.guid ≠ j.guid)
    (hapart : ∀ output ∈ i.outputs.values, output ∉ j.outputs.values) : Compatible [i, j] := by
  have hcases {k : Instance} (hk : k ∈ [i, j]) : k = i ∨ k = j := by simpa using hk
  constructor
  case verified =>
    intro k hk
    obtain rfl | rfl := hcases hk
    · exact hi.verified k (List.mem_singleton_self k)
    · exact hj.verified k (List.mem_singleton_self k)
  case guids =>
    intro k hk l hl heq
    obtain rfl | rfl := hcases hk <;> obtain rfl | rfl := hcases hl
    · rfl
    · exact absurd heq hguid
    · exact absurd heq.symm hguid
    · rfl
  case outputs =>
    intro k hk
    obtain rfl | rfl := hcases hk
    · exact hi.outputs k (List.mem_singleton_self k)
    · exact hj.outputs k (List.mem_singleton_self k)
  case producers =>
    intro k hk l hl output houtput houtput'
    obtain rfl | rfl := hcases hk <;> obtain rfl | rfl := hcases hl
    · rfl
    · exact absurd houtput' (hapart output houtput)
    · exact absurd houtput (hapart output houtput')
    · rfl

/-- Instances that can be in one graph make one. -/
theorem Compatible.exists_ofList (h : Compatible listed) :
    ∃ dag, ofList listed = .ok dag ∧ dag.Comprises listed := by
  have hgrown {more : List Instance} {start : Dag} {known : List Instance}
      (hstart : start.Comprises known) (hcompatible : Compatible (known ++ more)) :
      ∃ dag, more.foldlM Dag.add start = .ok dag := by
    induction more generalizing start known with
    | nil => exact ⟨start, rfl⟩
    | cons i more ih =>
      rw [List.append_cons] at hcompatible
      have hfirst : Compatible (known ++ [i]) := by
        have hmem {x : Instance} (hx : x ∈ known ++ [i]) : x ∈ known ++ [i] ++ more :=
          List.mem_append_left _ hx
        exact ⟨fun x hx => hcompatible.verified x (hmem hx),
          fun x hx y hy => hcompatible.guids x (hmem hx) y (hmem hy),
          fun x hx => hcompatible.outputs x (hmem hx),
          fun x hx y hy => hcompatible.producers x (hmem hx) y (hmem hy)⟩
      obtain ⟨between, hadd⟩ := hstart.exists_add hfirst
      obtain ⟨dag, hdag⟩ := ih (hstart.add hadd) hcompatible
      refine ⟨dag, ?_⟩
      rw [List.foldlM_cons]
      exact bind_eq_ok_iff.2 ⟨between, hadd, hdag⟩
  obtain ⟨dag, hdag⟩ := hgrown comprises_empty h
  exact ⟨dag, hdag, comprises_of_ofList hdag⟩

end Dag

end GraphVault
