import GraphVault.Proofs.Fetching
import GraphVault.Proofs.Operations
import GraphVault.Proofs.Runs
import GraphVault.Session

/-!
# The executions of a session

A session executes instances one after the other, some on request and some in the runs of graphs.
Each execution starts where the one before it has left the store, whether that one succeeded or not.
All that a request or a run does to a store is done by its executions. A run that succeeds executes
every instance of its graph, and reports what came of it (`Executor.run_leads`).
-/

namespace GraphVault

/-- The state that work ends in, whatever comes of it. -/
def settle {ε σ α : Type} (work : EStateM ε σ α) (s : σ) : σ :=
  match work s with
  | .ok _ t => t
  | .error _ t => t

theorem Moves.settle {ε σ α : Type} {r : σ → σ → Prop} {work : EStateM ε σ α} (h : Moves r work)
    (s : σ) : r s (settle work s) := by
  have hyields := h s
  unfold Yields at hyields
  unfold GraphVault.settle
  generalize work s = result at hyields ⊢
  cases result with
  | ok a t => exact hyields
  | error e t => exact hyields

namespace Executor

/-- The execution of an instance: the store in which it starts, and the instance. -/
abbrev Execution := Vault × Instance

variable (registry : Registry)

/-- The executions of a wave. -/
def waveExecutions : List Instance → Vault → List Execution
  | [], _ => []
  | i :: wave, vault => (vault, i) :: waveExecutions wave (settle (execute registry i) vault)

/-- The executions of waves. No wave starts behind one that failed. -/
def wavesExecutions : List (List Instance) → Vault → List Execution
  | [], _ => []
  | wave :: waves, vault =>
    waveExecutions registry wave vault ++
      match executeWave registry wave vault with
      | .ok _ after => wavesExecutions waves after
      | .error _ _ => []

/-- The executions of a run. -/
def runExecutions (dag : Dag) (vault : Vault) : List Execution :=
  match dag.waves with
  | .ok waves => wavesExecutions registry waves vault
  | .error _ => []

/-- Executions that lead from a store to another, one after the other. -/
inductive Leads : Vault → List Execution → Vault → Prop where
  | done (vault : Vault) : Leads vault [] vault
  | step {vault after : Vault} {i : Instance} {rest : List Execution}
      (hrest : Leads (settle (execute registry i) vault) rest after) :
      Leads vault ((vault, i) :: rest) after

/-- The outcome of an execution, by the guid of its instance. -/
def Reported (execution : Execution) (entry : Guid × Outcome) : Prop :=
  entry.1 = execution.2.guid ∧
    ∃ after, execute registry execution.2 execution.1 = .ok entry.2 after

/-- Whether an execution computes outputs that are saved, so that its instance is recorded. -/
def saves (execution : Execution) : Bool :=
  execution.1.settings.persistOutputs &&
    match execute registry execution.2 execution.1 with
    | .ok .computed _ => true
    | _ => false

/-- The instances that executions record, in order. -/
def saved (executions : List Execution) : List Instance :=
  (executions.filter (saves registry)).map (·.2)

variable {registry} {vault between after : Vault} {executions more : List Execution}
  {wave listed : List Instance} {waves : List (List Instance)} {dag : Dag} {i : Instance}

theorem Leads.append (h : Leads registry vault executions between)
    (hmore : Leads registry between more after) : Leads registry vault (executions ++ more) after := by
  induction h with
  | done vault => exact hmore
  | step _ ih => exact .step (ih hmore)

@[simp] theorem saved_append :
    saved registry (executions ++ more) = saved registry executions ++ saved registry more := by
  simp [saved]

@[simp] theorem instances_waveExecutions (registry : Registry) (wave : List Instance)
    (vault : Vault) : (waveExecutions registry wave vault).map (·.2) = wave := by
  induction wave generalizing vault with
  | nil => rfl
  | cons i wave ih => rw [waveExecutions, List.map_cons, ih]

theorem execute_settles (registry : Registry) (i : Instance) (vault : Vault) :
    Yields (execute registry i) vault
      (fun outcome after => after = settle (execute registry i) vault ∧
        execute registry i vault = .ok outcome after)
      fun _ after => after = settle (execute registry i) vault := by
  unfold Yields settle
  cases execute registry i vault with
  | ok outcome after => exact ⟨rfl, rfl⟩
  | error failure after => rfl

/-- An attempt does what the execution does. -/
private theorem attempt_yields (registry : Registry) (i : Instance) (vault : Vault) :
    Yields (attempt registry i) vault
      (fun result after => after = settle (execute registry i) vault ∧
        Computes (fun _ => True) (fun outcome => Reported registry (vault, i) (i.guid, outcome)) result)
      fun _ _ => False := by
  rw [attempt, yields_tryCatch, yields_map]
  apply (execute_settles registry i vault).mono
  · exact fun _ after h => ⟨h.1, rfl, after, h.2⟩
  · intro failure after hafter
    split
    · exact ⟨hafter, trivial⟩
    · exact ⟨hafter, trivial⟩

private theorem attempts_yields (registry : Registry) (wave : List Instance) (vault : Vault) :
    Yields (wave.mapM fun i => return (i.guid, ← attempt registry i)) vault
      (fun results after => Leads registry vault (waveExecutions registry wave vault) after ∧
        List.Forall₂ (fun execution result => Computes (fun _ => True)
            (fun outcome => Reported registry execution (result.1, outcome)) result.2)
          (waveExecutions registry wave vault) results) fun _ _ => False := by
  induction wave generalizing vault with
  | nil =>
    rw [List.mapM_nil, yields_pure]
    exact ⟨.done vault, .nil⟩
  | cons i wave ih =>
    simp only [List.mapM_cons, yields_bind, yields_pure]
    apply (attempt_yields registry i vault).mono ?_ fun _ _ hfalse => hfalse
    rintro result between ⟨rfl, hresult⟩
    apply (ih _).mono ?_ fun _ _ hfalse => hfalse
    exact fun results after hrest => ⟨.step hrest.1, .cons hresult hrest.2⟩

private theorem guids_of_reported {outcomes : List (Guid × Outcome)}
    (h : List.Forall₂ (Reported registry) executions outcomes) :
    outcomes.map (·.1) = (executions.map (·.2)).map Instance.guid := by
  induction h with
  | nil => rfl
  | cons hreported _ ih => rw [List.map_cons, List.map_cons, List.map_cons, hreported.1, ih]

/-- All instances of a wave are executed. If the wave does not fail, all of them come to outcomes. -/
private theorem executeWave_leads (registry : Registry) (wave : List Instance) (vault : Vault) :
    Yields (executeWave registry wave) vault
      (fun outcomes after => Leads registry vault (waveExecutions registry wave vault) after ∧
        List.Forall₂ (Reported registry) (waveExecutions registry wave vault) outcomes)
      fun _ after => Leads registry vault (waveExecutions registry wave vault) after := by
  rw [executeWave, yields_bind]
  apply (attempts_yields registry wave vault).mono ?_ fun _ _ => False.elim
  rintro results after ⟨hleads, hresults⟩
  refine yields_ofExcept (fun outcomes houtcomes => ⟨hleads, ?_⟩) fun _ _ => hleads
  have hreported := computes_outcomes hresults
  rw [houtcomes] at hreported
  exact hreported.1

private theorem waves_leads (registry : Registry) (waves : List (List Instance)) (vault : Vault) :
    Yields (waves.mapM (executeWave registry)) vault
      (fun outcomes after => Leads registry vault (wavesExecutions registry waves vault) after ∧
        (wavesExecutions registry waves vault).map (·.2) = waves.flatten ∧
        List.Forall₂ (Reported registry) (wavesExecutions registry waves vault) outcomes.flatten)
      fun _ after => Leads registry vault (wavesExecutions registry waves vault) after := by
  induction waves generalizing vault with
  | nil => exact ⟨.done vault, rfl, .nil⟩
  | cons wave waves ih =>
    have hwave := executeWave_leads registry wave vault
    simp only [List.mapM_cons, yields_bind, yields_pure]
    rw [wavesExecutions]
    unfold Yields at hwave ⊢
    cases hresult : executeWave registry wave vault with
    | ok outcomes between =>
      simp only [hresult] at hwave ⊢
      apply (ih between).mono
      · rintro rest after ⟨hleads, hinstances, hreported⟩
        refine ⟨hwave.1.append hleads, ?_, List.rel_append hwave.2 hreported⟩
        rw [List.map_append, instances_waveExecutions, hinstances, List.flatten_cons]
      · exact fun _ after hleads => hwave.1.append hleads
    | error failure after =>
      simp only [hresult] at hwave ⊢
      rw [List.append_nil]
      exact hwave

/-- Only instances of the graph are executed in a run. -/
theorem mem_of_runExecutions (h : dag.Comprises listed) {execution : Execution}
    (hmem : execution ∈ runExecutions registry dag vault) : execution.2 ∈ listed := by
  rw [runExecutions] at hmem
  split at hmem
  · rename_i waves hwaves
    rw [← Dag.mem_waves_iff h hwaves]
    clear hwaves
    induction waves generalizing vault with
    | nil => cases hmem
    | cons wave waves ih =>
      rw [List.flatten_cons]
      rcases List.mem_append.1 hmem with hmem | hmem
      · have hinstance := List.mem_map_of_mem (f := Prod.snd) hmem
        rw [instances_waveExecutions] at hinstance
        exact List.mem_append_left _ hinstance
      · split at hmem
        · exact List.mem_append_right _ (ih hmem)
        · cases hmem
  · cases hmem

/-- A run does to a store what its executions do. If it does not fail, it has executed every instance
of its graph, and reports the outcome. -/
theorem run_leads (registry : Registry) (dag : Dag) (vault : Vault) :
    Yields (run registry dag) vault
      (fun report after => Leads registry vault (runExecutions registry dag vault) after ∧
        ∀ listed, dag.Comprises listed → report.Covers listed fun i outcome =>
          ∃ now last, (now, i) ∈ runExecutions registry dag vault ∧
            execute registry i now = .ok outcome last)
      fun _ after => Leads registry vault (runExecutions registry dag vault) after := by
  rw [run, runExecutions, yields_bind]
  cases hwaves : dag.waves with
  | ok waves =>
    rw [yields_ofExcept_ok, yields_bind]
    apply (waves_leads registry waves vault).mono ?_ fun _ _ hleads => hleads
    rintro outcomes after ⟨hleads, hinstances, hreported⟩
    refine ⟨hleads, fun listed hdag => ?_⟩
    have hkeys : outcomes.flatten.map (·.1) = waves.flatten.map Instance.guid := by
      rw [← hinstances]
      exact guids_of_reported hreported
    refine covers_of_reports hdag (fun i => Dag.mem_waves_iff hdag hwaves) hkeys fun entry hentry => ?_
    obtain ⟨⟨now, i⟩, hexecution, hguid, last, hlast⟩ :=
      exists_left_of_forall₂ hreported entry hentry
    refine ⟨i, ?_, hguid, now, last, hexecution, hlast⟩
    rw [← hinstances]
    exact List.mem_map_of_mem hexecution
  | error failure =>
    rw [yields_ofExcept_error]
    exact .done vault

end Executor

/-! ### What executions hand over -/

/-- Running a description does not change which outputs are declared. -/
def Registry.Faithful (registry : Registry) : Prop :=
  ∀ (i : Instance) inputs context,
    registry.run i.description (Context.start i inputs) = .ok context → context.declared = i.outputs

/-- The built-in operations do nothing with a context but look at its inputs and hand over outputs. -/
theorem Registry.faithful_builtin : builtin.Faithful := by
  intro i inputs context hrun
  have hmakes := makes_run i inputs
  rw [hrun] at hmakes
  exact hmakes.declared

namespace Executor

variable {registry : Registry}

open Vault

theorem loads_resolveInputs (i : Instance) : Moves (Loads Anything) (resolveInputs i) := by
  refine .bind (.mapM fun input _ => .bind (.tryCatch ?_ fun _ => .throw _) fun _ => .pure _)
    fun _ => .pure _
  exact (loads_getOrLoad input.2).mono fun _ _ hloads => hloads.anything

/-- What is produced goes under all the output guids of the instance, and under no others. -/
theorem produce_yields (hfaithful : registry.Faithful) (i : Instance) (vault : Vault) :
    Yields (produce registry i) vault
      (fun outputs after => Loads Anything vault after ∧
        ∀ guid, guid ∈ outputs.map (·.1) ↔ guid ∈ i.outputs.values)
      fun _ after => Loads Anything vault after := by
  rw [produce, yields_bind]
  apply (loads_resolveInputs i vault).mono ?_ fun _ _ hloads => hloads
  intro inputs after hloads
  rw [yields_bind]
  refine yields_ofExcept (fun context hrun => ?_) fun _ _ => hloads
  rw [yields_bind]
  refine yields_ofExcept (fun outputs houtputs => ⟨hloads, fun guid => ?_⟩) fun _ _ => hloads
  have hserves : context.Serves i fun _ _ => True :=
    ⟨hfaithful i inputs context hrun, fun _ _ _ => trivial⟩
  have hhands := hserves.computes_outputs
  rw [houtputs] at hhands
  have hsorted : i.Hands (fun _ _ => True)
      (outputs.mergeSort fun a b => a.2.publishRank ≤ b.2.publishRank) :=
    hhands.perm (List.mergeSort_perm _ _)
  exact hsorted.mem_guids_iff

end Executor

/-! ### The executions of requests -/

/-- The executions of a request to an open store. -/
def Request.executions (registry : Registry) (vault : Vault) : Request → List Executor.Execution
  | .execute i => [(vault, i)]
  | .run dag => Executor.runExecutions registry dag vault
  | _ => []

namespace Session

variable {registry : Registry} {allowed : Session → Request → Prop} {session : Session}
  {requests more : List Request}

/-- The executions of a request. Nothing is executed while no store is open. -/
def executionsOf (registry : Registry) (request : Request) : Session → List Executor.Execution
  | opened vault => request.executions registry vault
  | closed _ => []

/-- The executions of requests that are made one after the other. -/
def executions (registry : Registry) : Session → List Request → List Executor.Execution
  | _, [] => []
  | session, request :: requests =>
    executionsOf registry request session ++
      executions registry (session.next registry request).2 requests

theorem executions_append (registry : Registry) (start : Session) (requests more : List Request) :
    executions registry start (requests ++ more) = executions registry start requests ++
      executions registry
        (requests.foldl (fun now request => (now.next registry request).2) start) more := by
  induction requests generalizing start with
  | nil => rfl
  | cons request requests ih =>
    rw [List.cons_append, executions, executions, ih, List.append_assoc, List.foldl_cons]

end Session

end GraphVault
