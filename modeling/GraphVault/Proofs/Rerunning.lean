import GraphVault.Proofs.Availability
import GraphVault.Proofs.Durability

/-!
# Running again

Once an instance with outputs has been executed, its outputs are known, and they stay known as long
as nothing is dropped. So from then on the instance is cached, a run that has succeeded does nothing
when it is made again, and no instance with outputs is ever computed twice.
-/

namespace GraphVault

-- What these do is known from what they yield, so that they need not be looked into.
attribute [local irreducible] EntityDirectory.contains EntityDirectory.write

variable {registry : Registry} {vault after last : Vault} {i : Instance} {outcome : Outcome}
  {listed wave : List Instance} {waves : List (List Instance)} {dag : Dag} {report : Report}

namespace Executor

open Vault

variable {executions more : List Execution}

/-! ### One execution -/

private theorem puts_yield (outputs : List (Guid × Entity)) (vault : Vault) :
    Yields (outputs.forM fun (guid, entity) => do let _ ← Vault.put guid entity) vault
      (fun _ after => Loads Anything vault after ∧ ∀ output ∈ outputs, after.has output.1)
      fun _ _ => True := by
  induction outputs generalizing vault with
  | nil => exact ⟨Std.Refl.refl vault, nofun⟩
  | cons output outputs ih =>
    have hput := (loads_put output.1 output.2 vault).and
      (putWith_yields finds_getOrLoad output.1 output.2 vault)
    simp only [List.forM_eq_forM, List.forM_cons, yields_bind, yields_pure]
    apply hput.mono ?_ fun _ _ _ => trivial
    rintro found between ⟨hloads, -, hget⟩
    apply (ih between).mono ?_ fun _ _ _ => trivial
    rintro - after ⟨hrest, hhas⟩
    refine ⟨Trans.trans hloads.anything hrest, fun other hother => ?_⟩
    cases List.mem_cons.1 hother with
    | inl heq => exact hrest.kept _ (heq ▸ has_iff.2 ⟨found, hget⟩)
    | inr hmem => exact hhas other hmem

/-- An instance is reported as cached just if its outputs are known, and otherwise they are made
known. -/
private theorem execute_yields (hfaithful : registry.Faithful) (i : Instance) (vault : Vault) :
    Yields (execute registry i) vault
      (fun outcome after => i.verify = .ok () ∧ (outcome = .cached ↔ isCached vault i) ∧
        (vault.settings.Steady → ∀ output ∈ i.outputs.values, after.Knows output))
      fun _ _ => True := by
  rw [execute, yields_bind]
  refine yields_ofExcept (fun _ hverify => ?_) fun _ _ => trivial
  rw [yields_bind, yields_get]
  split
  · rename_i hcached
    exact ⟨hverify, iff_of_true rfl hcached, fun _ => (isCached_iff.1 hcached).2⟩
  · rename_i hcached
    have hsaves (outputs : List (Guid × Entity)) (now : Vault) : Yields (do
        if (← get).settings.persistOutputs then persistOutputs i outputs
        return Outcome.computed : VaultM Outcome) now
        (fun outcome after => outcome = .computed ∧ now.Accrues after) fun _ _ => True := by
      rw [yields_bind, yields_get]
      split
      · rw [yields_bind]
        exact (Accrues.additive.moves_persistOutputs i outputs now).mono
          (fun _ _ hafter => ⟨rfl, hafter⟩) fun _ _ _ => trivial
      · exact ⟨rfl, Std.Refl.refl now⟩
    rw [yields_bind]
    apply (produce_yields hfaithful i vault).mono ?_ fun _ _ _ => trivial
    rintro outputs between ⟨hproduced, hguids⟩
    rw [yields_bind]
    apply (puts_yield outputs between).mono ?_ fun _ _ _ => trivial
    rintro - now ⟨hput, hhas⟩
    apply (hsaves outputs now).mono ?_ fun _ _ _ => trivial
    rintro outcome after ⟨rfl, haccrues⟩
    refine ⟨hverify, iff_of_false (by simp) hcached, fun hsteady output houtput => ?_⟩
    obtain ⟨entry, hentry, rfl⟩ := List.mem_map.1 ((hguids output).2 houtput)
    have hsteady' : now.settings.Steady := by
      rw [hput.settings, hproduced.settings]
      exact hsteady
    exact haccrues.knows hsteady' _ (.inl (hhas entry hentry))

/-- What is known of an execution that has come to an outcome. -/
private theorem of_execute (hfaithful : registry.Faithful)
    (h : execute registry i vault = .ok outcome last) :
    i.verify = .ok () ∧ (outcome = .cached ↔ isCached vault i) ∧
      (vault.settings.Steady → ∀ output ∈ i.outputs.values, last.Knows output) := by
  have hyields := execute_yields hfaithful i vault
  unfold Yields at hyields
  rwa [h] at hyields

private theorem isCached_of_knows (houtputs : i.outputs.values ≠ [])
    (h : ∀ output ∈ i.outputs.values, vault.Knows output) : isCached vault i :=
  isCached_iff.2 ⟨List.exists_mem_of_ne_nil _ houtputs, h⟩

theorem execute_accrues (registry : Registry) (i : Instance) (vault : Vault) :
    vault.Accrues (settle (execute registry i) vault) :=
  (Accrues.additive.moves_execute registry i).settle vault

/-! ### Many executions -/

/-- Executions that are made between two stores one after the other, with other work that drops
nothing before, between and behind them. -/
structure Strung (registry : Registry) (vault : Vault) (executions : List Execution)
    (after : Vault) : Prop where
  whole : vault.Accrues after
  before : ∀ e ∈ executions, vault.Accrues e.1
  behind : ∀ e ∈ executions, (settle (execute registry e.2) e.1).Accrues after
  between : executions.Pairwise fun e e' => (settle (execute registry e.2) e.1).Accrues e'.1

theorem Strung.of_accrues (h : vault.Accrues after) : Strung registry vault [] after :=
  ⟨h, nofun, nofun, .nil⟩

theorem Strung.append (h : Strung registry vault executions after)
    (hmore : Strung registry after more last) :
    Strung registry vault (executions ++ more) last := by
  refine ⟨Trans.trans h.whole hmore.whole, fun e he => ?_, fun e he => ?_, ?_⟩
  · exact (List.mem_append.1 he).elim (h.before e) fun he => Trans.trans h.whole (hmore.before e he)
  · cases List.mem_append.1 he with
    | inl he => exact Trans.trans (h.behind e he) hmore.whole
    | inr he => exact hmore.behind e he
  · refine List.pairwise_append.2 ⟨h.between, hmore.between, fun e he e' he' => ?_⟩
    exact Trans.trans (h.behind e he) (hmore.before e' he')

theorem Strung.execution (registry : Registry) (i : Instance) (vault : Vault) :
    Strung registry vault [(vault, i)] (settle (execute registry i) vault) := by
  refine ⟨execute_accrues registry i vault, ?_, ?_, List.pairwise_singleton _ _⟩
  · intro e he
    rw [List.mem_singleton.1 he]
    exact Std.Refl.refl vault
  · intro e he
    rw [List.mem_singleton.1 he]
    exact Std.Refl.refl _

theorem Leads.strung (h : Leads registry vault executions after) :
    Strung registry vault executions after := by
  induction h with
  | done vault => exact .of_accrues (Std.Refl.refl vault)
  | @step vault after i rest _ ih => exact (Strung.execution registry i vault).append ih

/-- Whether an execution computes outputs. -/
def computes (registry : Registry) (execution : Execution) : Bool :=
  match execute registry execution.2 execution.1 with
  | .ok .computed _ => true
  | _ => false

private theorem computes_iff {execution : Execution} : computes registry execution ↔
    ∃ last, execute registry execution.2 execution.1 = .ok .computed last := by
  unfold computes
  split
  · rename_i last hresult
    exact iff_of_true rfl ⟨last, hresult⟩
  · rename_i hother
    exact iff_of_false Bool.false_ne_true fun ⟨last, hresult⟩ => hother last hresult

private theorem countP_le_one {α : Type} {p : α → Bool} {items : List α}
    (h : items.Pairwise fun a b => ¬ (p a ∧ p b)) : items.countP p ≤ 1 := by
  have hfilter := h.filter p
  rw [List.countP_eq_length_filter]
  match hitems : items.filter p with
  | [] => exact Nat.zero_le 1
  | [_] => exact Nat.le_refl 1
  | a :: b :: rest =>
    have hsatisfies : ∀ x ∈ a :: b :: rest, p x := fun x hx =>
      (List.mem_filter.1 (hitems ▸ hx)).2
    rw [hitems] at hfilter
    have hboth := List.rel_of_pairwise_cons hfilter (List.mem_cons_self : b ∈ b :: rest)
    exact absurd ⟨hsatisfies a (by simp), hsatisfies b (by simp)⟩ hboth

/-- Of executions made one after the other, at most one computes an instance with outputs. -/
theorem Strung.countP_le_one (hfaithful : registry.Faithful)
    (h : Strung registry vault executions after) (hsteady : vault.settings.Steady)
    (houtputs : i.outputs.values ≠ []) :
    executions.countP (fun e => e.2 = i && computes registry e) ≤ 1 := by
  refine Executor.countP_le_one (h.between.imp_of_mem ?_)
  rintro ⟨now, j⟩ ⟨now', j'⟩ hmem - haccrues ⟨hfirst, hsecond⟩
  obtain ⟨hj, hcomputed⟩ : j = i ∧ computes registry (now, j) := by simpa using hfirst
  obtain ⟨hj', hcomputed'⟩ : j' = i ∧ computes registry (now', j') := by simpa using hsecond
  subst hj hj'
  obtain ⟨last, hresult⟩ := computes_iff.1 hcomputed
  obtain ⟨last', hresult'⟩ := computes_iff.1 hcomputed'
  have hsteadyNow : now.settings.Steady := (h.before _ hmem).settings ▸ hsteady
  have hknows := (of_execute hfaithful hresult).2.2 hsteadyNow
  have hlast : last = settle (execute registry j') now := by rw [settle, hresult]
  rw [hlast] at hknows
  have hsteadyLast : (settle (execute registry j') now).settings.Steady :=
    (execute_accrues registry j' now).settings ▸ hsteadyNow
  have hcached : isCached now' j' := isCached_of_knows houtputs fun output houtput =>
    haccrues.knows hsteadyLast output (hknows output houtput)
  exact absurd ((of_execute hfaithful hresult').2.1.2 hcached) (by simp)

/-! ### Runs -/

/-- A run over instances that are all cached does nothing, and reports just that. -/
theorem run_of_cached (registry : Registry) (hdag : dag.Comprises listed)
    (hwaves : dag.waves = .ok waves)
    (hcached : ∀ i ∈ listed, i.verify = .ok () ∧ isCached vault i) :
    Yields (run registry dag) vault
      (fun report after => after = vault ∧ report.Covers listed fun _ outcome => outcome = .cached)
      fun _ _ => False := by
  have hattempt {i : Instance} (hi : i ∈ listed) : Keeps (· = vault) (fun _ => False)
      (fun result => result = .ok .cached) (attempt registry i) := by
    have hexecute : Keeps (· = vault) (fun _ => False) (· = .cached) (execute registry i) := by
      constructor
      rintro _ rfl
      exact (execute_of_cached (hcached i hi).1 (hcached i hi).2).mono (fun _ _ h => ⟨h.2, h.1⟩)
        fun _ _ => False.elim
    have hresult : Keeps (· = vault) (fun _ => False)
        (fun result : Except Failure Outcome => result = .ok .cached)
        (Except.ok <$> execute registry i) := hexecute.map fun _ houtcome => by rw [houtcome]
    exact hresult.tryCatch fun _ => False.elim
  have hwave {wave : List Instance} (h : ∀ i ∈ wave, i ∈ listed) :
      Keeps (· = vault) (fun _ => False)
        (List.Forall₂ (Reports fun _ outcome => outcome = .cached) wave)
        (executeWave registry wave) := by
    have hresults : Keeps (· = vault) (fun _ => False)
        (List.Forall₂ (fun i result => result = (i.guid, .ok .cached)) wave)
        (wave.mapM fun i => return (i.guid, ← attempt registry i)) := by
      refine .mapM_forall₂ fun i hi => (hattempt (h i hi)).bind ?_
      rintro _ rfl
      exact .pure rfl
    refine hresults.bind fun results hresults => ?_
    have houtcomes : Computes (fun _ => False) (fun outcomes =>
        List.Forall₂ (Reports fun _ outcome => outcome = .cached) wave outcomes ∧
          ∀ result ∈ results, ∃ outcome, result.2 = .ok outcome) _ :=
      computes_outcomes (hresults.imp fun i result heq => by
        subst heq
        exact ⟨rfl, rfl⟩)
    exact houtcomes.keeps.mono (fun _ houtcomes => houtcomes.1) fun _ => False.elim
  have hmem (i : Instance) : i ∈ waves.flatten ↔ i ∈ listed := Dag.mem_waves_iff hdag hwaves
  have hall : Keeps (· = vault) (fun _ => False)
      (List.Forall₂ (List.Forall₂ (Reports fun _ outcome => outcome = .cached)) waves)
      (waves.mapM (executeWave registry)) :=
    .mapM_forall₂ fun wave hwaves => hwave fun i hi =>
      (hmem i).1 (List.mem_flatten.2 ⟨wave, hwaves, hi⟩)
  rw [run, yields_bind, hwaves, yields_ofExcept_ok, yields_bind]
  apply (hall.yields vault rfl).mono ?_ fun _ _ hfalse => hfalse.2
  rintro outcomes after ⟨rfl, hreports⟩
  have hflat := List.rel_flatten hreports
  exact ⟨rfl, covers_of_reports hdag hmem (guids_of_reports hflat) (exists_left_of_forall₂ hflat)⟩

/-- A run that succeeds has executed the instances of its graph, and knows all their outputs. -/
private theorem of_run (hfaithful : registry.Faithful) (hsteady : vault.settings.Steady)
    (hdag : dag.Comprises listed) (hrun : run registry dag vault = .ok report after) :
    (∃ waves, dag.waves = .ok waves) ∧ after.settings.Steady ∧
      report.Covers listed fun i _ =>
        i.verify = .ok () ∧ ∀ output ∈ i.outputs.values, after.Knows output := by
  have hwaves : ∃ waves, dag.waves = .ok waves := by
    cases hwaves : dag.waves with
    | ok waves => exact ⟨waves, rfl⟩
    | error failure =>
      rw [run, hwaves] at hrun
      cases hrun
  have hyields := run_leads registry dag vault
  unfold Yields at hyields
  rw [hrun] at hyields
  obtain ⟨hleads, hcovers⟩ := hyields
  have hstrung := hleads.strung
  refine ⟨hwaves, hstrung.whole.settings ▸ hsteady, ?_⟩
  refine (hcovers listed hdag).mono (fun _ => Iff.rfl) fun i _ outcome hexecuted => ?_
  obtain ⟨now, last, hmem, hresult⟩ := hexecuted
  obtain ⟨hverify, -, hknows⟩ := of_execute hfaithful hresult
  have hsteadyNow : now.settings.Steady := (hstrung.before _ hmem).settings ▸ hsteady
  have hlast : last = settle (execute registry i) now := by rw [settle, hresult]
  have hsteadyLast : (settle (execute registry i) now).settings.Steady :=
    (execute_accrues registry i now).settings ▸ hsteadyNow
  rw [hlast] at hknows
  exact ⟨hverify, fun output houtput =>
    (hstrung.behind _ hmem).knows hsteadyLast output (hknows hsteadyNow output houtput)⟩

end Executor

/-! ### Sessions -/

namespace Session

open Disk EntityDirectory Vault Executor

variable {requests : List Request} {session : Session}

/-- What a request that drops nothing does to a store is done by its executions, and by other work
that drops nothing. -/
private theorem executions_strung {request : Request} (hadding : request.Adding) (vault : Vault) :
    ∃ after, ((opened vault).next registry request).2 = opened after ∧
      Strung registry vault (request.executions registry vault) after := by
  have hwork : Yields (request.work registry) vault
      (fun _ after => Strung registry vault (request.executions registry vault) after)
      fun _ after => Strung registry vault (request.executions registry vault) after := by
    have hother (hnone : request.executions registry vault = []) :
        Yields (request.work registry) vault
          (fun _ after => Strung registry vault (request.executions registry vault) after)
          fun _ after => Strung registry vault (request.executions registry vault) after := by
      rw [hnone]
      exact (Accrues.additive.moves_work registry hadding vault).mono (fun _ _ => .of_accrues)
        fun _ _ => .of_accrues
    cases request with
    | execute i =>
      change Yields (execute registry i >>= fun _ => pure ()) vault _ _
      rw [yields_bind]
      apply (execute_settles registry i vault).mono
      · rintro _ after ⟨rfl, -⟩
        exact .execution registry i vault
      · rintro _ after rfl
        exact .execution registry i vault
    | run dag =>
      change Yields (run registry dag >>= fun _ => pure ()) vault _ _
      rw [yields_bind]
      exact (run_leads registry dag vault).mono (fun _ _ h => h.1.strung) fun _ _ h => h.strung
    | _ => exact hother rfl
  apply next_of_yields (fun answer => ∃ after, answer.2 = opened after ∧
    Strung registry vault (request.executions registry vault) after)
  · rintro settings rfl
    exact hadding
  · rintro rfl
    exact hadding
  · exact hwork.mono (fun _ after hafter => ⟨after, rfl, hafter⟩) fun _ after hafter =>
      ⟨after, rfl, hafter⟩

private theorem History.strung
    (h : History registry (fun _ => Request.Adding) (opened vault) requests session) :
    ∃ now, session = opened now ∧
      Strung registry vault (executions registry (opened vault) requests) now := by
  induction h with
  | start => exact ⟨vault, rfl, .of_accrues (Std.Refl.refl vault)⟩
  | @step requests session request before hadding ih =>
    obtain ⟨now, rfl, hstrung⟩ := ih
    obtain ⟨after, hafter, hmore⟩ := executions_strung hadding now
    refine ⟨after, hafter, ?_⟩
    rw [executions_append, ← before.eq_foldl, executions, executions, List.append_nil]
    exact hstrung.append hmore

/-- Where the data directory stands, a run that has succeeded over instances with outputs has an
outcome of each of them, and their outputs are known. Whatever the store is asked for then but to
drop something, the same run succeeds again, without doing anything, and every outcome is that the
instance is cached. Nor is any of the instances ever computed twice. -/
theorem history_rerun (hfaithful : registry.Faithful) (hsteady : vault.settings.Steady)
    (hdag : Dag.ofList listed = .ok dag) (houtputs : ∀ i ∈ listed, i.outputs.values ≠ [])
    (hrun : run registry dag vault = .ok report after) :
    (∀ guid, report.outcomes.contains guid ↔ ∃ i ∈ listed, i.guid = guid) ∧
      (∀ i ∈ listed, ∀ output ∈ i.outputs.values, after.Knows output) ∧
      (∀ requests session,
        History registry (fun _ => Request.Adding) (opened after) requests session →
          ∃ later report', session = opened later ∧ run registry dag later = .ok report' later ∧
            report'.Covers listed fun _ outcome => outcome = .cached) ∧
      ∀ requests session,
        History registry (fun _ => Request.Adding) (opened vault) requests session →
          ∀ i ∈ listed, (executions registry (opened vault) requests).countP
            (fun e => e.2 = i && computes registry e) ≤ 1 := by
  have hcomprises := Dag.comprises_of_ofList hdag
  obtain ⟨⟨waves, hwaves⟩, hsteady', hcovers⟩ := of_run hfaithful hsteady hcomprises hrun
  have hdone : ∀ i ∈ listed,
      i.verify = .ok () ∧ ∀ output ∈ i.outputs.values, after.Knows output := by
    intro i hi
    obtain ⟨_, -, hdone⟩ := hcovers.complete i hi
    exact hdone
  refine ⟨fun guid => ⟨hcovers.sound guid, ?_⟩, fun i hi => (hdone i hi).2, ?_, ?_⟩
  · rintro ⟨i, hi, rfl⟩
    obtain ⟨outcome, houtcome, -⟩ := hcovers.complete i hi
    exact Option.isSome_iff_exists.2 ⟨outcome, houtcome⟩
  · intro requests session hhistory
    obtain ⟨later, rfl, haccrues⟩ := hhistory.additive Accrues.additive
    have hcached : ∀ i ∈ listed, i.verify = .ok () ∧ isCached later i := fun i hi =>
      ⟨(hdone i hi).1, isCached_of_knows (houtputs i hi) fun output houtput =>
        haccrues.knows hsteady' output ((hdone i hi).2 output houtput)⟩
    obtain ⟨report', _, hagain, rfl, hreport⟩ :=
      (run_of_cached registry hcomprises hwaves hcached).exists_ok
    exact ⟨_, report', rfl, hagain, hreport⟩
  · intro requests session hhistory i hi
    obtain ⟨now, -, hstrung⟩ := hhistory.strung
    exact hstrung.countP_le_one hfaithful hsteady (houtputs i hi)

/-- The example graph is run, something is exported, and the graph is run again. -/
theorem history_rerun_exampleGraph :
    let requests : List Request :=
      [.put (Guid.filled 1) (.vertexSet ⟨[7]⟩), .exportUnordered (Guid.filled 1)]
    ∃ vault dag report after later report', vault.settings = exampleSettings ∧
      Dag.ofList [exampleInstance] = .ok dag ∧
      run Registry.builtin dag vault = .ok report after ∧
      report.outcomes.get? exampleInstance.guid = some .computed ∧
      requests.foldl (fun session request => (session.next Registry.builtin request).2)
        (opened after) = opened later ∧
      run Registry.builtin dag later = .ok report' later ∧
      report'.outcomes.get? exampleInstance.guid = some .cached := by
  intro requests
  obtain ⟨vault, dag, report, after, -, hsettings, hdag, hrun, houtcome, -⟩ :=
    history_runs restorable_example fresh_sample archives_example (runs_exampleInstance _)
      (fun _ hhistory => accepted_example hhistory) rfl
  have hsteady : vault.settings.Steady :=
    hsettings ▸ fresh_sample.ready.steady archives_example.dataDir archives_example.unorderedDir
  have houtputs : ∀ i ∈ [exampleInstance], i.outputs.values ≠ [] := by
    intro i hi
    rw [List.mem_singleton.1 hi]
    exact List.ne_nil_of_mem (Instance.mem_values_of_get? vertices_exampleInstance)
  have hstart : History Registry.builtin (fun _ => Request.Adding) (opened after) [] _ := .start
  have hput := hstart.step
    (show (Request.put (Guid.filled 1) (.vertexSet ⟨[7]⟩)).Adding from trivial)
  have hexport := hput.step (show (Request.exportUnordered (Guid.filled 1)).Adding from trivial)
  obtain ⟨-, -, hagain, -⟩ :=
    history_rerun Registry.faithful_builtin hsteady hdag houtputs hrun
  obtain ⟨later, report', hlater, hrun', hcovers⟩ := hagain _ _ hexport
  obtain ⟨_, hcached, rfl⟩ := hcovers.complete exampleInstance (List.mem_singleton_self _)
  exact ⟨vault, dag, report, after, later, report', hsettings, hdag, hrun, houtcome, hlater, hrun',
    hcached⟩

/-! ### A data directory within an exchange copy -/

/-- The data directory is itself an entity directory below the root for exchange copies. -/
def nestedSettings : Settings := ⟨(Guid.filled 1).text, ".", .reject, false, false⟩

/-- The graph of the example, of which only the vertices are asked for. -/
def verticesInstance : Instance := .derive ⟨"ExampleGraph", []⟩ SortedMap.empty ["vertices"]

/-- A complete copy of the vertices of the example. -/
def verticesCopy : Stored :=
  ⟨⟨exampleVertices, .vertexSet, 4, []⟩, RowFile.encode RowFile.vertexRow [0, 1, 2, 3]⟩

/-- A store that has just been opened over that copy. -/
def nestedVault : Vault where
  settings := nestedSettings
  entities := SortedMap.empty
  catalog := none
  disk := settle (EntityDirectory.write nestedSettings.dataDir verticesCopy) Disk.empty

private theorem outputs_verticesInstance : verticesInstance.outputs.values = [exampleVertices] := by
  obtain ⟨hexample, houtputs⟩ := Instance.verify_eq_ok_iff.1 verify_exampleInstance
  have hguid : verticesInstance.guid = exampleInstance.guid := hexample.symm
  have hvertices : Derivation.outputGuid exampleInstance.guid "vertices" = exampleVertices :=
    (houtputs "vertices" exampleVertices vertices_exampleInstance).symm
  have houtputs : verticesInstance.outputs.values
      = [Derivation.outputGuid verticesInstance.guid "vertices"] := rfl
  rw [houtputs, hguid, hvertices]

private theorem base_dot : base "." = .ok workingDirectory := by
  rfl

/-- A copy below an entity directory of the working directory is complete, while this entity
directory itself is not. -/
private theorem settle_write_within (h : Guid) (copy : Stored) :
    EntityDirectory.contains (settle (EntityDirectory.write h.text copy) Disk.empty) h.text
        copy.manifest.guid ∧
      EntityDirectory.contains (settle (EntityDirectory.write h.text copy) Disk.empty) "." h
        = false ∧
      UsableRoot "." workingDirectory (settle (EntityDirectory.write h.text copy) Disk.empty) := by
  have hroot := usableRoot_empty h.plain_text
  have hnew : EntityDirectory.contains Disk.empty h.text copy.manifest.guid = false := by
    rw [Bool.eq_false_iff]
    exact fun hcontains => not_marked_empty _ _ (marked_of_contains hroot hcontains)
  obtain ⟨_, _, hresult, hwrote, grown, hgrows, -, rfl⟩ :=
    ((write_of_not_contains hroot rfl hnew).and (write_publishes hroot copy hnew)).mono
      (fun _ _ h => h) (fun _ _ h => h.1) |>.exists_ok
  have hsettle : settle (EntityDirectory.write h.text copy) Disk.empty
      = publish grown ([h.text] ++ [copy.manifest.guid.text]) copy := by
    rw [settle, hresult]
  rw [hsettle]
  -- only directories are made on the way to the copy
  have hnode {a : Address} (ha : ¬ [h.text] ++ [copy.manifest.guid.text] <+: a) :
      (publish grown ([h.text] ++ [copy.manifest.guid.text]) copy).Passable a := by
    intro node hthere
    rw [publish_agreesOff grown _ copy a ha] at hthere
    exact ((passable_empty a).grows hgrows) node hthere
  have hfile : ¬ [h.text] ++ [copy.manifest.guid.text]
      <+: workingDirectory ++ [h.text, marker] := by
    intro hprefix
    have hlast := (List.cons_prefix_cons.1 hprefix).2
    exact Guid.text_ne (by decide) (List.cons_prefix_cons.1 hlast).1
  refine ⟨hwrote.contains, ?_, ?_⟩
  · rw [Bool.eq_false_iff]
    intro hcontains
    obtain ⟨-, b, hreaches, -, node, hmarker, hne⟩ := contains_iff.1 hcontains
    obtain rfl : workingDirectory = b := Except.ok.inj (base_dot.symm.trans hreaches.base_eq)
    exact hne (hnode hfile node hmarker)
  · have hworking : (publish grown ([h.text] ++ [copy.manifest.guid.text]) copy).HasDirectory
        workingDirectory := node?_of_permanent rfl
    have houtside : ¬ Inside workingDirectory workingDirectory := by
      rintro ⟨name, rest, heq, -⟩
      cases heq
    have hpassable (g : Guid) :
        ¬ [h.text] ++ [copy.manifest.guid.text] <+: workingDirectory ++ [g.text] :=
      fun hprefix => absurd hprefix.length_le (by simp [workingDirectory])
    have hthere : ¬ Inside workingDirectory workingDirectory ∧
        (publish grown ([h.text] ++ [copy.manifest.guid.text]) copy).Passable workingDirectory :=
      ⟨houtside, fun node heq => (Option.some.inj (hworking.symm.trans heq)).symm⟩
    refine ⟨by decide, by decide, ?_, fun _ _ => hworking, fun g => hnode (hpassable g)⟩
    exact .enter hthere rfl (.done hthere)

/-- What is exported takes the place of the data directory. -/
private theorem export_yields (g : Guid) {h : Guid} {set : VertexSet} {now : Vault}
    (hget : now.get? h = some (.vertexSet set)) (hexchange : now.settings.unorderedDir = ".")
    (husable : UsableRoot "." workingDirectory now.disk)
    (hnew : EntityDirectory.contains now.disk "." h = false) :
    Yields (exportUnordered h) now
      (fun _ after => after.entities = now.entities ∧ after.settings = now.settings ∧
        EntityDirectory.contains after.disk h.text g = false) fun _ _ => False := by
  rw [exportUnordered, yields_bind]
  apply (findWith_of_registered hget).mono ?_ fun _ _ hfalse => hfalse
  rintro _ _ ⟨rfl, rfl⟩
  simp only [Unordered.encode, yields_bind, yields_pure, yields_get, Vault.write, hexchange,
    onDisk_yields_iff]
  apply (write_publishes husable _ hnew).mono ?_ fun _ _ hfalse => hfalse
  rintro - after ⟨grown, -, -, rfl⟩
  refine ⟨trivial, trivial, ?_⟩
  rw [Bool.eq_false_iff]
  intro hcontains
  obtain ⟨-, b, hreaches, -, hfile⟩ := contains_iff.1 hcontains
  have hbase := (usableRoot_empty h.plain_text).way.walk_eq
  obtain rfl : [h.text] = b := Except.ok.inj (hbase.symm.trans hreaches.base_eq)
  exact absurd (publish_flat grown workingDirectory h _ hfile) (by simp)

private theorem execute_fails {now : Vault} (h : isCached now verticesInstance = false) :
    Yields (execute Registry.builtin verticesInstance) now (fun _ _ => False)
      fun failure after => after = now ∧ failure.Ordinary := by
  have hrun : Registry.builtin.run verticesInstance.description
      (Context.start verticesInstance SortedMap.empty)
      = .error (.unexpectedOutput "ExampleGraph" "edges") := rfl
  have hinputs : resolveInputs verticesInstance = pure SortedMap.empty := rfl
  have hverify : verticesInstance.verify = .ok () := Instance.verify_derive _ _ _
  rw [execute, hverify, yields_bind, yields_ofExcept_ok, yields_bind, yields_get, h,
    if_neg Bool.false_ne_true, yields_bind, produce, hinputs, yields_bind, yields_pure, yields_bind,
    hrun, yields_ofExcept_error]
  exact ⟨rfl, fun _ => by simp⟩

/-- A graph of one instance is not run if the instance fails at once. -/
private theorem run_fails {now : Vault} (hdag : dag.Comprises [i]) (hinputs : i.inputs.values = [])
    (h : Yields (execute registry i) now (fun _ _ => False)
      fun failure after => after = now ∧ failure.Ordinary) :
    Yields (run registry dag) now (fun _ _ => False) fun _ _ => True := by
  have hprogresses : Progresses registry [i] (fun _ vault => vault = now) (fun _ _ => False)
      Failure.Ordinary := by
    refine ⟨fun _ hordinary => hordinary, ?_⟩
    intro done other vault hother _ _ hinv
    rw [List.mem_singleton.1 hother, hinv]
    exact h.mono (fun _ _ => False.elim) fun _ _ hfailure => hfailure
  apply (hprogresses.run_yields hdag (Dag.backward_single hinputs) rfl).mono ?_ fun _ _ _ => trivial
  rintro report _ ⟨hcovers, -⟩
  obtain ⟨_, -, hfalse⟩ := hcovers.complete i (List.mem_singleton_self i)
  exact hfalse

private theorem verify_verticesInstance : verticesInstance.verify = .ok () :=
  Instance.verify_derive _ _ _

private theorem inputs_verticesInstance : verticesInstance.inputs.values = [] := rfl

-- The digests in it are not to be computed again.
attribute [local irreducible] verticesInstance

/-- What is exported may take the place of the data directory. Then a run that has succeeded fails
when it is made again. -/
theorem not_rerun_nested :
    ∃ dag report later, Dag.ofList [verticesInstance] = .ok dag ∧
      run Registry.builtin dag nestedVault = .ok report nestedVault ∧
      report.outcomes.get? verticesInstance.guid = some .cached ∧
      History Registry.builtin (fun _ => Request.Adding) (opened nestedVault)
        [.put (Guid.filled 1) (.vertexSet ⟨[7]⟩), .exportUnordered (Guid.filled 1)] (opened later) ∧
      ∀ report' last, run Registry.builtin dag later ≠ .ok report' last := by
  obtain ⟨hcontains, hnew, husable⟩ := settle_write_within (Guid.filled 1) verticesCopy
  have hverify := verify_verticesInstance
  have hinputs := inputs_verticesInstance
  have hnodup : verticesInstance.outputs.values.Nodup := by
    rw [outputs_verticesInstance]
    exact List.nodup_singleton _
  obtain ⟨dag, hdag, hcomprises⟩ := (Dag.compatible_single hverify hnodup).exists_ofList
  have hcached : isCached nestedVault verticesInstance := by
    rw [isCached_iff, outputs_verticesInstance]
    refine ⟨⟨_, List.mem_singleton_self _⟩, fun output houtput => .inr ?_⟩
    rw [List.mem_singleton.1 houtput]
    exact hcontains
  obtain ⟨report, _, hrun, ⟨_, houtcome, rfl⟩, rfl⟩ :=
    (run_single hcomprises hinputs (execute_of_cached hverify hcached)).exists_ok
  have hstart : History Registry.builtin (fun _ => Request.Adding) (opened nestedVault) [] _ :=
    .start
  have hfits : (Entity.vertexSet ⟨[7]⟩).Fits nestedVault.registered := List.nodup_singleton 7
  obtain ⟨now, hput, rfl⟩ := hstart.step_of_yields (.put (Guid.filled 1) (.vertexSet ⟨[7]⟩)) trivial
    trivial rfl (put_of_fits rfl hfits)
  obtain ⟨later, hexport, hentities, hsettings, hlost⟩ := hput.step_of_yields
    (.exportUnordered (Guid.filled 1)) trivial trivial rfl
    (export_yields exampleVertices (get?_insert_self _ _ _) rfl husable hnew)
  have hfails : isCached later verticesInstance = false := by
    rw [Bool.eq_false_iff, Ne, isCached_iff, outputs_verticesInstance]
    rintro ⟨-, hknows⟩
    cases hknows _ (List.mem_singleton_self _) with
    | inl hhas =>
      have hne : exampleVertices ≠ Guid.filled 1 := by decide +kernel
      rw [Vault.has, hentities] at hhas
      obtain ⟨entity, hentity⟩ := has_iff.1 hhas
      rw [get?_insert_of_ne _ _ hne] at hentity
      cases hentity
    | inr hpersisted =>
      rw [hasPersisted, hsettings] at hpersisted
      exact Bool.false_ne_true (hlost.symm.trans hpersisted)
  refine ⟨dag, report, later, hdag, hrun, houtcome, hexport, fun report' last hrun' => ?_⟩
  have hyields := run_fails hcomprises hinputs (execute_fails hfails)
  unfold Yields at hyields
  rw [hrun'] at hyields
  exact hyields

end Session

end GraphVault
