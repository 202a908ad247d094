import GraphVault.Proofs.Journals

/-!
# What success leaves on disk

A store that saves what it executes has complete copies of all outputs of an instance that it has
computed, and a record of the instance. But an instance whose outputs are all in memory is not
computed, and then nothing of it is saved. So when a run has succeeded, a store that is opened over
the same roots finds those instances done of which all outputs have complete copies, and these are
not always all (`Session.history_durable`).
-/

namespace GraphVault

open Disk Executor

-- What these do is known from what they yield, so that they need not be looked into.
attribute [local irreducible] EntityDirectory.contains

variable {site : Site} {registry : Registry} {vault after : Vault} {i : Instance} {dag : Dag}
  {report : Report} {listed : List Instance} {guid : Guid} {disk : Disk} {settings : Settings}
  {requests : List Request}

namespace Executor

variable {executions : List Execution} {execution : Execution} {now last : Vault}

theorem mem_saved_iff : i ∈ saved registry executions ↔
    ∃ now, (now, i) ∈ executions ∧ saves registry (now, i) := by
  simp [saved]

/-- Every execution starts in a store that those before it lead to, and those behind it lead on. -/
theorem Leads.split (h : Leads registry vault executions after) (hmem : execution ∈ executions) :
    ∃ front back, executions = front ++ execution :: back ∧
      Leads registry vault front execution.1 ∧
      Leads registry execution.1 (execution :: back) after := by
  induction h with
  | done => cases hmem
  | @step vault after i rest hrest ih =>
    cases List.mem_cons.1 hmem with
    | inl heq =>
      subst heq
      exact ⟨[], rest, rfl, .done vault, .step hrest⟩
    | inr hmem =>
      obtain ⟨front, back, rfl, hfront, hback⟩ := ih hmem
      exact ⟨(vault, i) :: front, back, rfl, .step hfront, hback⟩

private theorem isCached_of_execute (hfaithful : registry.Faithful) (h : vault.Mirrors site)
    (hresult : execute registry i vault = .ok .cached last) : isCached vault i = true := by
  have hleaves := execute_amends hfaithful h i
  unfold Yields at hleaves
  rw [hresult] at hleaves
  exact hleaves.1

/-- An instance that is not executed again has outputs, all of which are known ever after; any other
one that comes to an outcome is saved. -/
theorem Leads.saved_or_knows (hfaithful : registry.Faithful)
    (hleads : Leads registry vault executions after) (h : vault.Mirrors site)
    (hsaving : vault.settings.persistOutputs = true) (hmem : (now, i) ∈ executions)
    {outcome : Outcome} (hresult : execute registry i now = .ok outcome last) :
    outcome = .computed ∧ i ∈ saved registry executions ∨
      outcome = .cached ∧ i.outputs.values ≠ [] ∧
        ∀ output ∈ i.outputs.values, after.Knows output := by
  obtain ⟨front, back, -, hfront, hback⟩ := hleads.split hmem
  have hstart : vault.Amends site _ _ now := hfront.amends hfaithful h
  have hend : now.Amends site _ _ after := hback.amends hfaithful hstart.mirrors
  cases outcome with
  | computed =>
    refine .inl ⟨rfl, mem_saved_iff.2 ⟨now, hmem, ?_⟩⟩
    simp [saves, hresult, hstart.settings, hsaving]
  | cached =>
    obtain ⟨⟨output, houtput⟩, hknows⟩ :=
      isCached_iff.1 (isCached_of_execute hfaithful hstart.mirrors hresult)
    refine .inr ⟨rfl, List.ne_nil_of_mem houtput, fun output houtput => ?_⟩
    refine (hend.knows hstart.mirrors (hknows output houtput)).resolve_right ?_
    simp [licenceOf]

/-- An instance is reported as cached just if it is. -/
theorem execute_cached_iff (hfaithful : registry.Faithful) (h : vault.Mirrors site)
    (hverify : i.verify = .ok ()) :
    (∃ last, execute registry i vault = .ok .cached last) ↔ isCached vault i := by
  constructor
  · rintro ⟨last, hresult⟩
    exact isCached_of_execute hfaithful h hresult
  · intro hcached
    obtain ⟨_, last, hresult, rfl, -⟩ := (execute_of_cached hverify hcached).exists_ok
    exact ⟨last, hresult⟩

end Executor

/-! ### Stores over the same roots -/

namespace Session

/-- A store that is opened over the same roots finds an instance done if it has outputs and there are
complete copies of all of them, and only then. -/
theorem Mirrors.reopens (hfaithful : registry.Faithful) (h : vault.Mirrors site)
    (hsettings : Mirroring site (opened vault) (.open settings)) :
    ∃ next last, Vault.open settings vault.close = .ok next last ∧
      ∀ i, i.verify = .ok () → ((∃ last, execute registry i next = .ok .cached last) ↔
        i.outputs.values ≠ [] ∧ ∀ output ∈ i.outputs.values, vault.hasPersisted output) := by
  have hopened : (opened vault).Mirrors site := h
  obtain ⟨hready, hdisk⟩ : site.Ready none vault.close ∧ vault.close.Mirrors site :=
    Session.Mirrors.closed hopened
  have husable : UsableRoot site.dataDir site.dataBase vault.close :=
    hready.data.mono fun _ hx => hx.1
  obtain ⟨next, last, hopen, hnext, -, hentities, hbelow, -⟩ :=
    (hdisk.open_yields hready hsettings.1 hsettings.2.1 hsettings.2.2 Licence.none).exists_ok
  have hcopies (guid : Guid) : vault.hasPersisted guid ↔
      EntityDirectory.contains vault.close site.dataDir guid := by
    obtain ⟨-, hclosing, hopened⟩ := close_amends h Licence.none
    rw [Vault.hasPersisted, h.dataDir]
    exact ⟨fun hguid => (hclosing.copies guid hguid).resolve_right not_false,
      fun hguid => (hopened.copies guid hguid).resolve_right not_false⟩
  -- there is nothing in memory yet
  have hknows (guid : Guid) :
      next.has guid ∨ next.hasPersisted guid ↔ vault.hasPersisted guid := by
    rw [hcopies, hdisk.contains_iff husable, ← hbelow, ← hnext.hasPersisted_iff, Vault.has,
      hentities]
    exact or_iff_right Bool.false_ne_true
  refine ⟨next, last, hopen, fun i hverify => ?_⟩
  rw [execute_cached_iff hfaithful hnext hverify, isCached_iff]
  simp only [hknows]
  rw [← List.isEmpty_eq_false_iff_exists_mem, List.isEmpty_eq_false_iff]

/-- The executions of a run come behind those of all requests before. -/
private theorem History.executions_run {allowed : Session → Request → Prop} {start : Session}
    (h : History registry allowed start requests (opened vault)) (dag : Dag) :
    executions registry start (requests ++ [.run dag])
      = executions registry start requests ++ runExecutions registry dag vault := by
  rw [executions_append, ← h.eq_foldl, executions, executions, List.append_nil]
  rfl

/-- A store with a catalog that saves what it executes is asked for whatever it may be, except that
nothing is purged, and then to run a graph. If the run succeeds, it reports an outcome of every
instance: the instance was computed and saved, or else it has outputs, and these are known. Of every
instance that was saved by then, in this run or before, there are complete copies of all outputs, and
the catalog records it, or a later one of the same guid. A store that is opened over the same roots
finds just those instances done that have outputs and complete copies of all of them. -/
theorem history_durable (hfaithful : registry.Faithful) (hfresh : site.Fresh disk)
    (hhistory : History registry (Mirroring site) (closed disk) requests (opened vault))
    (hkept : ∀ guid, .purge guid ∉ requests) (hsaving : vault.settings.persistOutputs = true)
    (hdag : Dag.ofList listed = .ok dag) (hrun : Executor.run registry dag vault = .ok report after)
    (hmeasured : ∀ i ∈ saved registry (executions registry (closed disk) (requests ++ [.run dag])),
      i.Measured ∧ i.outputs.size < 2 ^ 64) :
    (∀ i ∈ listed,
      report.outcomes.get? i.guid = some .computed ∧
          i ∈ saved registry (executions registry (closed disk) (requests ++ [.run dag])) ∨
        report.outcomes.get? i.guid = some .cached ∧ i.outputs.values ≠ [] ∧
          ∀ output ∈ i.outputs.values, after.Knows output) ∧
    (∀ i ∈ saved registry (executions registry (closed disk) (requests ++ [.run dag])),
      (∀ output ∈ i.outputs.values, after.hasPersisted output) ∧
      ∃ catalog recorded, after.records? = some catalog ∧
        catalog.instance? i.guid = .ok (some recorded) ∧ recorded.guid = i.guid ∧
        Catalog.Latest Instance.guid
          (saved registry (executions registry (closed disk) (requests ++ [.run dag]))) recorded) ∧
    ∀ settings, Mirroring site (opened after) (.open settings) →
      ∃ next last, Vault.open settings after.close = .ok next last ∧
        ∀ i, i.verify = .ok () → ((∃ last, execute registry i next = .ok .cached last) ↔
          i.outputs.values ≠ [] ∧ ∀ output ∈ i.outputs.values, after.hasPersisted output) := by
  have hwork : Yields (Executor.run registry dag) vault (fun _ last => last = after)
      fun _ _ => False := by
    unfold Yields
    rw [hrun]
  obtain ⟨_, hwhole, rfl⟩ := hhistory.step_of_yields (.run dag) trivial trivial rfl hwork
  obtain ⟨hmirrors, hamends, htable⟩ := hwhole.recorded hfaithful hfresh
  have hexecutions := hhistory.executions_run dag
  refine ⟨fun i hi => ?_, fun i hi => ⟨fun output houtput => ?_, ?_⟩, fun settings hsettings =>
    Mirrors.reopens hfaithful hmirrors hsettings⟩
  · have hvault : vault.Mirrors site := (hhistory.recorded hfaithful hfresh).1
    have hleads := run_leads registry dag vault
    unfold Yields at hleads
    rw [hrun] at hleads
    obtain ⟨outcome, houtcome, now, last, hmem, hresult⟩ :=
      (hleads.2 listed (Dag.comprises_of_ofList hdag)).complete i hi
    rw [houtcome, Option.some.injEq, Option.some.injEq, hexecutions, saved_append]
    exact (hleads.1.saved_or_knows hfaithful hvault hsaving hmem hresult).imp_left
      fun hcomputed => ⟨hcomputed.1, List.mem_append_right _ hcomputed.2⟩
  · rw [Vault.hasPersisted, hmirrors.dataDir]
    refine (hamends.saved i hi output houtput).resolve_right fun hpurged => ?_
    cases List.mem_append.1 hpurged with
    | inl hmem => exact hkept output hmem
    | inr hmem => cases List.mem_singleton.1 hmem
  · have hrestores {j : Instance} (hj : j ∈ saved registry
        (executions registry (closed disk) (requests ++ [.run dag]))) :
        Instance.codec.Restores j := Instance.restores_codec (hmeasured j hj).1 (hmeasured j hj).2
    obtain ⟨recorded, hlatest, hguid⟩ := Catalog.exists_latest hi
    refine ⟨_, recorded, hmirrors.records_eq, ?_, hguid, hlatest⟩
    rw [← hguid, Catalog.instance?, htable]
    exact Catalog.find_of_holds (hrestores hlatest.mem)
      ((Catalog.holds_fileAll_iff (fun _ => hrestores) (hrestores hlatest.mem)).2 hlatest)

/-- A store over fresh roots runs a graph of one instance that needs nothing. -/
theorem history_runs {executed : Instance → Prop} (h : Restorable executed)
    (hfresh : site.Fresh disk) (hsettings : site.Archives settings) (hruns : i.Runs executed)
    (hi : ∀ vault, History Registry.builtin (Archiving site) (closed disk) [.open settings]
      (opened vault) → Accepted executed i)
    (hinputs : i.inputs.values = []) :
    ∃ vault dag report after, History Registry.builtin (Mirroring site) (closed disk)
        [.open settings] (opened vault) ∧
      vault.settings = settings ∧ Dag.ofList [i] = .ok dag ∧
      Executor.run Registry.builtin dag vault = .ok report after ∧
      report.outcomes.get? i.guid = some .computed ∧
      ∀ j ∈ saved Registry.builtin
        (executions Registry.builtin (closed disk) ([.open settings] ++ [.run dag])), j = i := by
  obtain ⟨vault, hhistory, -, hsame, -⟩ := history_opens Registry.builtin hfresh hsettings
  have haccepted := hi vault hhistory
  obtain ⟨dag, hdag, hcomprises⟩ :=
    (Dag.compatible_single haccepted.verified (h.nodup_outputs haccepted)).exists_ofList
  have hcomputes := computes_first h hfresh hsettings hhistory haccepted hruns hinputs
  obtain ⟨report, after, hrun, ⟨_, houtcome, rfl⟩, -⟩ :=
    (run_single hcomprises hinputs hcomputes).exists_ok
  refine ⟨vault, dag, report, after, hhistory.mono fun _ _ => Archiving.mirroring, hsame, hdag, hrun,
    houtcome, fun j hj => ?_⟩
  have hnothing : executions Registry.builtin (closed disk) [.open settings] = [] := rfl
  rw [hhistory.executions_run, hnothing, List.nil_append] at hj
  obtain ⟨now, hmem, -⟩ := mem_saved_iff.1 hj
  exact List.mem_singleton.1 (mem_of_runExecutions hcomprises hmem)

/-- The example graph is run over fresh roots, and then it is found done. -/
theorem history_durable_exampleGraph :
    ∃ vault dag report after, History Registry.builtin (Mirroring sampleSite) (closed Disk.empty)
        [exampleOpening] (opened vault) ∧
      vault.settings.persistOutputs = true ∧ Dag.ofList [exampleInstance] = .ok dag ∧
      Executor.run Registry.builtin dag vault = .ok report after ∧
      report.outcomes.get? exampleInstance.guid = some .computed ∧
      after.hasPersisted exampleVertices ∧
      ∃ next opened last, Vault.open exampleSettings after.close = .ok next opened ∧
        Executor.execute Registry.builtin exampleInstance next = .ok .cached last := by
  obtain ⟨vault, dag, report, after, hhistory, hsettings, hdag, hrun, houtcome, hsaved⟩ :=
    history_runs restorable_example fresh_sample archives_example (runs_exampleInstance _)
      (fun _ hhistory => accepted_example hhistory) rfl
  have hsaving : vault.settings.persistOutputs = true := by
    rw [hsettings]
    rfl
  have hkept (guid : Guid) : .purge guid ∉ [exampleOpening] := by simp [exampleOpening]
  have hmeasured : ∀ i ∈ saved Registry.builtin (executions Registry.builtin (closed Disk.empty)
      ([exampleOpening] ++ [.run dag])), i.Measured ∧ i.outputs.size < 2 ^ 64 := by
    intro i hi
    rw [hsaved i hi]
    exact ⟨measured_exampleInstance, by decide +kernel⟩
  obtain ⟨hreported, hcomplete, hreopens⟩ := history_durable Registry.faithful_builtin fresh_sample
    hhistory hkept hsaving hdag hrun hmeasured
  obtain ⟨-, hmem⟩ := (hreported exampleInstance (List.mem_singleton_self _)).resolve_right
    fun hcached => by simp [houtcome] at hcached
  obtain ⟨hpersisted, -⟩ := hcomplete exampleInstance hmem
  have hvertices := Instance.mem_values_of_get? vertices_exampleInstance
  obtain ⟨next, opened, hopen, hdone⟩ := hreopens exampleSettings ⟨rfl, rfl, rfl⟩
  obtain ⟨last, hlast⟩ := (hdone exampleInstance verify_exampleInstance).2
    ⟨List.ne_nil_of_mem hvertices, hpersisted⟩
  exact ⟨vault, dag, report, after, hhistory, hsaving, hdag, hrun, houtcome,
    hpersisted _ hvertices, next, opened, last, hopen, hlast⟩

/-! ### Outputs that are in memory only -/

/-- What stands under the only output of an instance was put there. Then running the instance
succeeds, and saves nothing. -/
private theorem history_unsaved {output : Guid} {set : VertexSet} (hfaithful : registry.Faithful)
    (hfresh : site.Fresh disk) (hsettings : site.Archives settings) (hset : set.mapping.Nodup)
    (hverify : i.verify = .ok ()) (hinputs : i.inputs.values = [])
    (houtputs : i.outputs.values = [output]) :
    ∃ vault dag report after, History registry (Mirroring site) (closed disk)
        [.open settings, .put output (.vertexSet set)] (opened vault) ∧
      vault.settings = settings ∧ Dag.ofList [i] = .ok dag ∧
      Executor.run registry dag vault = .ok report after ∧ after.hasPersisted output = false ∧
      (∃ catalog, after.records? = some catalog ∧ catalog.instance? i.guid = .ok none) ∧
      ∃ next opened, Vault.open settings after.close = .ok next opened ∧
        ∀ last, execute registry i next ≠ .ok .cached last := by
  obtain ⟨first, hfirst, hmirrors, hsame, hempty, hunknown⟩ := history_opens registry hfresh hsettings
  have hnew : first.get? output = none := by
    rw [Option.eq_none_iff_forall_ne_some]
    exact fun entity hentity => hunknown output (.inl (Vault.has_iff.2 ⟨entity, hentity⟩))
  have hfits : (Entity.vertexSet set).Fits first.registered := hset
  obtain ⟨vault, hhistory, rfl⟩ := (hfirst.mono fun _ _ => Archiving.mirroring).step_of_yields
    (.put output (.vertexSet set)) trivial trivial rfl (Vault.put_of_fits hnew hfits)
  have hvault : (first.insert output (.vertexSet set)).Mirrors site := hmirrors.of_same rfl rfl rfl
  have hcached : isCached (first.insert output (.vertexSet set)) i = true := by
    rw [isCached_iff, houtputs]
    refine ⟨⟨output, List.mem_cons_self⟩, fun guid hguid => .inl ?_⟩
    rw [List.mem_singleton.1 hguid]
    exact Vault.has_iff.2 ⟨_, Vault.get?_insert_self first output _⟩
  have hnodup : i.outputs.values.Nodup := by
    rw [houtputs]
    exact List.nodup_singleton output
  obtain ⟨dag, hdag, hcomprises⟩ := (Dag.compatible_single hverify hnodup).exists_ofList
  obtain ⟨report, after, hrun, houtcome, rfl⟩ :=
    (run_single hcomprises hinputs (execute_of_cached hverify hcached)).exists_ok
  have hbelow : ((first.insert output (.vertexSet set)).disk.catalogBelow site.dataBase)
      = Catalog.empty := hempty
  have hunsaved : (first.insert output (.vertexSet set)).hasPersisted output = false := by
    rw [Bool.eq_false_iff, Ne, hvault.hasPersisted_iff, hbelow]
    exact nofun
  refine ⟨_, dag, report, _, hhistory, hsame, hdag, hrun, hunsaved, ⟨_, hvault.records_eq, ?_⟩, ?_⟩
  · rw [hbelow]
    rfl
  · have hsettings : Mirroring site (opened (first.insert output (.vertexSet set)))
        (.open settings) := ⟨hsettings.dataDir, hsettings.unorderedDir, hsettings.catalog⟩
    obtain ⟨next, opened, hopen, hdone⟩ := Mirrors.reopens hfaithful hvault hsettings
    refine ⟨next, opened, hopen, fun last hlast => ?_⟩
    obtain ⟨-, hall⟩ := (hdone i hverify).1 ⟨last, hlast⟩
    rw [hall output (houtputs ▸ List.mem_cons_self)] at hunsaved
    cases hunsaved

/-- Somebody else's vertices stand where the vertices of the example graph go. -/
theorem history_unsaved_vertices :
    let i := Instance.derive ⟨"ExampleGraph", []⟩ SortedMap.empty ["vertices"]
    let vertices := Derivation.outputGuid i.guid "vertices"
    ∃ vault dag report after, History Registry.builtin (Mirroring sampleSite) (closed Disk.empty)
        [.open exampleSettings, .put vertices (.vertexSet ⟨[7]⟩)] (opened vault) ∧
      vault.settings = exampleSettings ∧ Dag.ofList [i] = .ok dag ∧
      Executor.run Registry.builtin dag vault = .ok report after ∧
      vertices ∈ i.outputs.values ∧ after.hasPersisted vertices = false ∧
      (∃ catalog, after.records? = some catalog ∧ catalog.instance? i.guid = .ok none) ∧
      ∃ next opened, Vault.open exampleSettings after.close = .ok next opened ∧
        ∀ last, Executor.execute Registry.builtin i next ≠ .ok .cached last := by
  intro i vertices
  have houtputs : i.outputs.values = [vertices] := rfl
  obtain ⟨vault, dag, report, after, hhistory, hsettings, hdag, hrun, hrest⟩ :=
    history_unsaved Registry.faithful_builtin fresh_sample archives_example
      (List.nodup_singleton 7) (Instance.verify_derive _ _ _) rfl houtputs
  exact ⟨vault, dag, report, after, hhistory, hsettings, hdag, hrun,
    houtputs ▸ List.mem_cons_self, hrest⟩

end Session

end GraphVault
