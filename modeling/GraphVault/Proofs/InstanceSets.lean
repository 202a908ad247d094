import GraphVault.Proofs.Layering
import Mathlib.Data.List.Dedup

/-!
# Sets of instances

Whether a list of instances makes a graph, and which one, depends on nothing but the set of the
instances in it (`Dag.ofList_settled`): neither their order nor how often they are listed matters.
-/

namespace GraphVault

namespace Dag

variable {dag other : Dag} {listed : List Instance}

/-- A graph is determined by the instances that it comprises. -/
theorem Comprises.unique (h : dag.Comprises listed) (h' : other.Comprises listed) :
    dag = other := by
  have hinstances : dag.instances = other.instances := by
    refine SortedMap.ext fun guid => Option.ext fun i => ?_
    rw [h.instances, h'.instances]
  have hproducers : dag.producers = other.producers := by
    refine SortedMap.ext fun output => Option.ext fun guid => ?_
    rw [h.producers, h'.producers]
  exact (Dag.mk.injEq ..).mpr ⟨hinstances, hproducers⟩

/-- The instances of a graph are the listed ones, each of them once. -/
theorem Comprises.perm_dedup (h : dag.Comprises listed) :
    dag.instances.values.Perm listed.dedup := by
  have hkey {entry : Guid × Instance} (hentry : entry ∈ dag.instances.entries) :
      entry.2 ∈ listed ∧ entry.2.guid = entry.1 :=
    (h.instances _ _).1 (SortedMap.get?_eq_some_iff.2 hentry)
  have hnodup : dag.instances.values.Nodup := by
    refine List.pairwise_map.2 (dag.instances.sorted.imp_of_mem fun ha hb hlt heq => ?_)
    rw [← (hkey ha).2, ← (hkey hb).2, heq] at hlt
    simp at hlt
  rw [List.perm_ext_iff_of_nodup hnodup listed.nodup_dedup]
  intro i
  rw [List.mem_dedup]
  constructor
  · intro hi
    obtain ⟨entry, hentry, rfl⟩ := List.mem_map.1 hi
    exact (hkey hentry).1
  · intro hi
    exact List.mem_map.2 ⟨(i.guid, i), SortedMap.get?_eq_some_iff.1 (h.get? hi), rfl⟩

/-- Instances make a graph exactly if they can be in one. The graph has as many instances as the
list has different ones, an instance depends on the listed ones whose outputs it takes, and every
list of the same instances makes the same graph, and so the same waves. -/
theorem ofList_settled (listed : List Instance) :
    ((∃ dag, ofList listed = .ok dag) ↔ Compatible listed) ∧
      ∀ dag, ofList listed = .ok dag →
        dag.instances.values.Perm listed.dedup ∧ dag.size = listed.dedup.length ∧
        (∀ i guid, guid ∈ dag.dependencies i ↔ ∃ j ∈ listed, j.guid = guid ∧ i.Uses j) ∧
        ∀ others, (∀ i, i ∈ others ↔ i ∈ listed) → ofList others = .ok dag := by
  refine ⟨⟨?_, fun h => ?_⟩, fun dag hdag => ?_⟩
  · rintro ⟨dag, hdag⟩
    exact (comprises_of_ofList hdag).compatible
  · obtain ⟨dag, hdag, -⟩ := h.exists_ofList
    exact ⟨dag, hdag⟩
  have hcomprises := comprises_of_ofList hdag
  have hperm := hcomprises.perm_dedup
  have hsize : dag.size = listed.dedup.length := by
    rw [← hperm.length_eq, SortedMap.values, List.length_map]
    rfl
  refine ⟨hperm, hsize, fun i guid => hcomprises.mem_dependencies_iff, fun others hmem => ?_⟩
  obtain ⟨again, hagain, hsame⟩ := (hcomprises.compatible.of_mem_iff hmem).exists_ofList
  have heq : again = dag := (hsame.of_mem_iff fun i => (hmem i).symm).unique hcomprises
  rw [hagain, heq]

/-- The two instances of the sample plan, in the other order and one of them twice. -/
theorem ofList_settled_sample :
    ∃ dag, ofList [Session.exampleInstance, Plan.columnInstance] = .ok dag ∧ dag.size = 2 ∧
      ofList [Plan.columnInstance, Session.exampleInstance, Plan.columnInstance] = .ok dag := by
  obtain ⟨hmakes, hsettled⟩ := ofList_settled [Session.exampleInstance, Plan.columnInstance]
  obtain ⟨dag, hdag⟩ := hmakes.2 Plan.compatible_sample
  obtain ⟨-, hsize, -, hothers⟩ := hsettled dag hdag
  have hdistinct : Session.exampleInstance ≠ Plan.columnInstance := fun heq =>
    absurd (congrArg Instance.className heq) (by decide)
  have hdedup : [Session.exampleInstance, Plan.columnInstance].dedup.length = 2 := by
    rw [List.dedup_eq_self.2 (by simpa using hdistinct)]
    rfl
  refine ⟨dag, hdag, hsize.trans hdedup, hothers _ fun i => ?_⟩
  simp only [List.mem_cons, List.not_mem_nil, or_false]
  rw [or_left_comm, or_self]

end Dag

end GraphVault
