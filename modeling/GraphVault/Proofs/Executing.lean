import GraphVault.Executor
import GraphVault.Operation.Builtin
import GraphVault.Proofs.Yields

/-!
# Executing many instances

Whatever the execution of single instances keeps is kept by a run, in which an operation that gives
up has failed. A run executes those instances that its waves reach.
-/

namespace GraphVault

namespace Executor

variable {registry : Registry} {inv : Vault → Prop} {tolerated : Failure → Prop} {vault : Vault}

theorem isCached_iff {i : Instance} : isCached vault i ↔
    (∃ output, output ∈ i.outputs.values) ∧
      ∀ output ∈ i.outputs.values, vault.has output ∨ vault.hasPersisted output := by
  have hempty : i.outputs.isEmpty = i.outputs.values.isEmpty := by
    simp [SortedMap.isEmpty, SortedMap.values]
  rw [isCached, Bool.and_eq_true, hempty, List.all_eq_true, Bool.not_eq_true',
    List.isEmpty_eq_false_iff_exists_mem]
  simp only [Bool.or_eq_true]

/-- An instance that is cached is not run again. -/
theorem execute_of_cached {i : Instance} (hverify : i.verify = .ok ())
    (hcached : isCached vault i = true) :
    Yields (execute registry i) vault (fun outcome after => outcome = .cached ∧ after = vault)
      fun _ _ => False := by
  rw [execute, hverify, yields_bind, yields_ofExcept_ok, yields_bind, yields_get, hcached, if_pos rfl]
  exact ⟨rfl, rfl⟩

/-- Executing an instance keeps an invariant, and fails only as is tolerated. -/
def Sustains (registry : Registry) (inv : Vault → Prop) (tolerated : Failure → Prop)
    (i : Instance) : Prop :=
  Keeps inv tolerated (fun _ => True) (execute registry i)

/-- Failures that a run may add to those of its executions. -/
structure Frail (tolerated : Failure → Prop) : Prop where
  failed : ∀ className reason, tolerated (.operationFailed className reason)
  cycle : ∀ guid, tolerated (.cycle guid)

theorem Sustains.keeps_attempt {i : Instance} (h : Sustains registry inv tolerated i)
    (hfrail : Frail tolerated) :
    Keeps inv tolerated (Computes tolerated fun _ => True) (attempt registry i) := by
  have hexecute : Keeps inv tolerated (Computes tolerated fun _ => True)
      (Except.ok <$> execute registry i) := Keeps.map h fun _ _ => trivial
  refine hexecute.tryCatch fun failure hfailure => ?_
  split
  · exact .pure (hfrail.failed _ _)
  · exact .pure hfailure

/-- Where no result is a failure, there are as many outcomes, each related as its result is. -/
theorem computes_outcomes {α : Type} {related : α → Guid × Outcome → Prop} {origins : List α}
    {results : List (Guid × Except Failure Outcome)}
    (h : List.Forall₂ (fun a result =>
      Computes tolerated (fun outcome => related a (result.1, outcome)) result.2) origins results) :
    Computes tolerated (fun outcomes => List.Forall₂ related origins outcomes ∧
        ∀ result ∈ results, ∃ outcome, result.2 = .ok outcome)
      (results.mapM fun (guid, result) => result.map fun outcome => (guid, outcome)) := by
  induction h with
  | nil => exact ⟨.nil, nofun⟩
  | @cons a result origins results hresult hrest ih =>
    obtain ⟨guid, failure | outcome⟩ := result
    · exact hresult
    have hhead : Computes tolerated (related a)
        ((Except.ok outcome : Except Failure Outcome).map fun outcome => (guid, outcome)) := hresult
    rw [List.mapM_cons]
    refine hhead.bind fun entry hentry => ?_
    refine ih.bind fun outcomes houtcomes => ⟨.cons hentry houtcomes.1, fun result hresult => ?_⟩
    cases List.mem_cons.1 hresult with
    | inl heq => exact ⟨_, congrArg Prod.snd heq⟩
    | inr hmem => exact houtcomes.2 result hmem

theorem keeps_executeWave {wave : List Instance}
    (hwave : ∀ i ∈ wave, Sustains registry inv tolerated i) (hfrail : Frail tolerated) :
    Keeps inv tolerated (fun _ => True) (executeWave registry wave) := by
  have hresults : Keeps inv tolerated
      (fun results => ∀ result ∈ results, ∃ i ∈ wave,
        Computes tolerated (fun _ => True) result.2)
      (wave.mapM fun i => return (i.guid, ← attempt registry i)) :=
    .mapM fun i hi => ((hwave i hi).keeps_attempt hfrail).bind fun _ hresult => .pure hresult
  refine hresults.bind fun results hresults => ?_
  have hsettled : List.Forall₂ (fun _ result => Computes tolerated (fun _ => True) result.2) results
      results := by
    refine List.forall₂_same.2 fun result hresult => ?_
    obtain ⟨i, -, hcomputes⟩ := hresults result hresult
    exact hcomputes
  have houtcomes : Computes tolerated (fun outcomes => List.Forall₂ (fun _ _ => True) results outcomes
      ∧ ∀ result ∈ results, ∃ outcome, result.2 = .ok outcome) _ := computes_outcomes hsettled
  exact houtcomes.keeps.mono (fun _ _ => trivial) fun _ hfailure => hfailure

/-- The instances that are reached by waves, of which each one starts behind those before it. -/
def Reached (vault : Vault) (waves : List (List Instance)) (i : Instance) : Prop :=
  ∃ before wave after outcomes vault', waves = before ++ wave :: after ∧
    before.mapM (executeWave Registry.builtin) vault = .ok outcomes vault' ∧ i ∈ wave

private theorem waves_yields {waves : List (List Instance)} (hfrail : Frail tolerated)
    (hvault : inv vault)
    (hreached : ∀ i, Reached vault waves i → Sustains Registry.builtin inv tolerated i) :
    Yields (waves.mapM (executeWave Registry.builtin)) vault (fun _ after => inv after)
      fun failure after => inv after ∧ tolerated failure := by
  induction waves generalizing vault with
  | nil => exact hvault
  | cons wave waves ih =>
    have hhead : ∀ i ∈ wave, Sustains Registry.builtin inv tolerated i := by
      intro i hi
      exact hreached i ⟨[], wave, waves, [], vault, rfl, rfl, hi⟩
    have hwave := (keeps_executeWave hhead hfrail).yields vault hvault
    rw [List.mapM_cons, yields_bind]
    apply hwave.remember.mono
    · intro outcome next hnext
      rw [yields_bind]
      apply ih hnext.1.1
      intro i hi
      obtain ⟨before, behind, after, outcomes, vault', hwaves, hbefore, hmem⟩ := hi
      refine hreached i ⟨wave :: before, behind, after, outcome :: outcomes, vault', ?_, ?_, hmem⟩
      · rw [hwaves]
        rfl
      · rw [List.mapM_cons]
        simp only [bind, EStateM.bind, hnext.2, hbefore]
        rfl
    · intro failure next hnext
      exact hnext

/-- A run keeps what the executions of the instances that it reaches keep. -/
theorem run_yields {dag : Dag} (hfrail : Frail tolerated) (hvault : inv vault)
    (hreached : ∀ waves, dag.waves = .ok waves → ∀ i, Reached vault waves i →
      Sustains Registry.builtin inv tolerated i) :
    Yields (run Registry.builtin dag) vault (fun _ after => inv after)
      fun failure after => inv after ∧ tolerated failure := by
  rw [run, yields_bind]
  apply yields_ofExcept
  · intro waves hwaves
    rw [yields_bind]
    exact waves_yields hfrail hvault (hreached waves hwaves)
  · intro failure hfailure
    refine ⟨hvault, ?_⟩
    unfold Dag.waves at hfailure
    dsimp only at hfailure
    split at hfailure
    · cases hfailure
      exact hfrail.cycle _
    · cases hfailure

/-- A run keeps what the executions of all instances of its graph keep. -/
theorem keeps_run {dag : Dag} (hfrail : Frail tolerated)
    (hdag : ∀ guid i, dag.instances.get? guid = some i → Sustains registry inv tolerated i) :
    Keeps inv tolerated (fun _ => True) (run registry dag) := by
  have hwaves : Computes tolerated
      (fun waves => ∀ wave ∈ waves, ∀ i ∈ wave, Sustains registry inv tolerated i) dag.waves := by
    unfold Dag.waves
    dsimp only
    split
    · exact hfrail.cycle _
    · intro wave hwave i hi
      obtain ⟨guids, -, rfl⟩ := List.mem_map.1 hwave
      obtain ⟨guid, -, hget⟩ := List.mem_filterMap.1 hi
      exact hdag guid i hget
  refine hwaves.keeps.bind fun waves hwaves => ?_
  have hrun : Keeps inv tolerated (fun outcomes => ∀ outcome ∈ outcomes, ∃ wave ∈ waves, True)
      (waves.mapM (executeWave registry)) :=
    .mapM fun wave hwave => keeps_executeWave (hwaves wave hwave) hfrail
  exact hrun.bind fun _ _ => .pure trivial

end Executor

end GraphVault
