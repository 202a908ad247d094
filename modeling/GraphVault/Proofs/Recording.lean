import GraphVault.Proofs.ContentAddressing
import GraphVault.Proofs.Fetching
import GraphVault.Proofs.Ledgers
import GraphVault.Proofs.Publishing
import GraphVault.Proofs.Records

/-!
# Recording what is executed

A store over reliable roots that saves and records what it executes keeps a ledger. All that it
knows are outputs of recorded instances, and whatever it has in memory it has a copy of. An instance
whose inputs are there, with all that they refer to, is executed, saved and recorded; any other
execution fails and leaves nothing behind.
-/

namespace GraphVault

open Disk

-- What these do is known from what they yield, so that they need not be looked into.
attribute [local irreducible] EntityDirectory.read EntityDirectory.write EntityDirectory.remove
  EntityDirectory.contains

variable {executed : Instance → Prop} {i : Instance} {inputs : SortedMap String (Guid × Entity)}
  {outputs front back : List (Guid × Entity)} {output : Guid × Entity} {slot : String}
  {entity : Entity} {guid : Guid} {vault between after : Vault} {site : Site}
  {listed others : List Instance} {intact : Prop}

/-- Executed instances of which every guid stands for one content, and for one that can be read from
its copy. -/
structure Restorable (executed : Instance → Prop) : Prop extends Unambiguous executed where
  rows : ∀ guid stored, (meaning executed).copy guid = some stored →
    stored.rows.length ≤ 2 * 1024 ^ 3

namespace Restorable

theorem readable (h : Restorable executed) {stored : Stored}
    (hcopy : (meaning executed).copy guid = some stored) : EntityDirectory.Readable stored := by
  have hcoherent := coherent_meaning h.toUnambiguous
  obtain ⟨entity, hentity, hencode⟩ := Assignment.exists_of_copy hcopy
  obtain ⟨other, hother, -, -, hcount, -⟩ := hcoherent.exists_copy hentity
  rw [hcopy, Option.some.injEq] at hother
  subst hother
  have hrows := h.rows guid stored hcopy
  have hle := Entity.rowCount_le_length (hcoherent.fits guid entity hentity) hencode
  exact EntityDirectory.readable_of_limits (Ordered.mem_references_of_encode hencode).1 hcount
    (by omega) hrows

/-- What a store over reliable roots rests on that holds nothing but what guids denote. -/
noncomputable def premise (h : Restorable executed) (site : Site) : Premise where
  content := meaning executed
  coherent := coherent_meaning h.toUnambiguous
  site := site
  reliable := True
  readable _ _ _ := h.readable

end Restorable

/-! ### What outputs refer to -/

/-- An output refers to the vertex set that goes with it; or else it is the only one, and refers to
what an input is or refers to. -/
theorem Makes.references (hmakes : Makes i inputs slot entity) :
    ∀ r ∈ entity.references, entity.publishRank ≠ 0 ∧ i.outputs.get? "vertices" = some r ∨
      (∃ only, filledSlots i.className = [only]) ∧
        ∃ slot guid found, inputs.get? slot = some (guid, found) ∧ r ∈ guid :: found.references := by
  intro r hr
  cases hmakes with
  | exampleGraph _ hvertices hpart =>
    rw [references_examplePart hpart r hr]
    refine .inl ⟨?_, hvertices⟩
    cases entity with
    | vertexSet set => cases hr
    | edgeBundle bundle => exact Nat.one_ne_zero
    | column type cells => exact Nat.one_ne_zero
  | @constantColumn type value input set hclass hvalue hinput =>
    have honly : filledSlots i.className = ["attr"] := by
      cases type with
      | double =>
        rw [← Option.some.inj hclass]
        decide
      | string =>
        rw [← Option.some.inj hclass]
        decide
      | pair => cases hclass
    refine .inr ⟨⟨_, honly⟩, _, _, _, hinput, ?_⟩
    rw [Entity.mem_references_column.1 hr]
    exact List.mem_cons_self
  | reverseEdges hclass hinput =>
    have honly : filledSlots i.className = ["reversed"] := by
      rw [hclass]
      decide
    refine .inr ⟨⟨_, honly⟩, _, _, _, hinput, List.mem_cons_of_mem _ ?_⟩
    rw [Entity.mem_references_edgeBundle] at hr ⊢
    exact hr.symm

/-- If an output refers to what is not among the outputs before it, there are none before it, and it
refers to what an input is or refers to. -/
theorem Instance.Hands.first_of_foreign (hhands : i.Hands (Makes i inputs) (front ++ output :: back))
    (horder : Executor.InOrder (front ++ output :: back))
    (hslots : ∀ slot, i.outputs.contains slot ↔ slot ∈ filledSlots i.className)
    (hnodup : i.outputs.values.Nodup) {r : Guid} (hr : r ∈ output.2.references)
    (hforeign : r ∉ front.map (·.1)) :
    front = [] ∧
      ∃ slot guid found, inputs.get? slot = some (guid, found) ∧ r ∈ guid :: found.references := by
  have houtput : output ∈ front ++ output :: back := List.mem_append_right _ List.mem_cons_self
  obtain ⟨slot, -, hmakes⟩ := hhands.sound output houtput
  obtain ⟨hrank, hvertices⟩ | ⟨⟨only, honly⟩, hinput⟩ := hmakes.references r hr
  · exact absurd (List.mem_map_of_mem (vertices_mem_front hhands horder hrank hvertices)) hforeign
  · refine ⟨?_, hinput⟩
    have hget : ∀ other ∈ front ++ output :: back, i.outputs.get? only = some other.1 := by
      intro other hother
      obtain ⟨slot, hslot, -⟩ := hhands.sound other hother
      have hmem : slot ∈ filledSlots i.className :=
        (hslots slot).1 (Option.isSome_iff_exists.2 ⟨other.1, hslot⟩)
      rw [honly, List.mem_singleton] at hmem
      exact hmem ▸ hslot
    cases front with
    | nil => rfl
    | cons first front =>
      have hfirst := hget first List.mem_cons_self
      rw [hget output houtput, Option.some.injEq] at hfirst
      have hguids := hhands.nodup hnodup
      rw [List.cons_append, List.map_cons, List.nodup_cons] at hguids
      refine absurd (List.mem_map.2 ⟨output, ?_, hfirst⟩) hguids.1
      exact List.mem_append_right _ List.mem_cons_self

/-! ### Stores that keep a ledger -/

/-- Nothing is lost that a store has. -/
structure Vault.Retains (before after : Vault) : Prop where
  has : ∀ guid, before.has guid → after.has guid
  hasPersisted : ∀ guid, before.hasPersisted guid → after.hasPersisted guid

theorem Vault.Loads.retains {new : Guid → Prop} (h : Vault.Loads new vault after) :
    vault.Retains after := by
  refine ⟨h.kept, fun guid hguid => ?_⟩
  rw [h.hasPersisted]
  exact hguid

theorem Vault.Retains.trans (h : vault.Retains between) (h' : between.Retains after) :
    vault.Retains after :=
  ⟨fun guid hguid => h'.has guid (h.has guid hguid),
    fun guid hguid => h'.hasPersisted guid (h.hasPersisted guid hguid)⟩

/-- The catalog below a base has recorded certain instances. -/
structure Disk.Records (b : Address) (listed : List Instance) (id : Nat) (disk : Disk) : Prop where
  node : disk.node? (catalogAddress b) = some (.database id)
  known : id < disk.catalogs.length
  lists : (disk.catalog id).Lists listed

/-- Settings of stores at a site that save and record what they execute. -/
structure Site.Archives (site : Site) (settings : Settings) : Prop where
  dataDir : settings.dataDir = site.dataDir
  unorderedDir : settings.unorderedDir = site.unorderedDir
  persistOutputs : settings.persistOutputs = true
  catalog : settings.catalog = true

namespace Premise

variable {p : Premise}

/-- A sound store that saves what it executes and has recorded certain instances. It knows nothing
but outputs of these; if it is intact, it has copies of all of them. -/
structure Tracks (p : Premise) (intact : Prop) (listed : List Instance) (vault : Vault) : Prop where
  reliable : p.reliable
  sound : p.Sound vault
  saving : vault.settings.persistOutputs = true
  records : ∃ id, vault.catalog = some id ∧ vault.disk.Records p.site.dataBase listed id
  known : ∀ guid, Marked p.site.dataBase guid vault.disk → MadeBy listed guid
  backed : ∀ guid, vault.has guid → vault.hasPersisted guid
  complete : intact → ∀ guid, MadeBy listed guid → vault.hasPersisted guid

namespace Tracks

theorem usable (h : p.Tracks intact listed vault) :
    UsableRoot p.site.dataDir p.site.dataBase vault.disk :=
  (h.sound.ready h.reliable).data.mono fun _ hx => hx.1

theorem sturdy (h : p.Tracks intact listed vault) :
    vault.Sturdy p.site.dataDir p.site.dataBase := by
  obtain ⟨id, hid, hrecords⟩ := h.records
  refine ⟨h.sound.dataDir, h.usable, (h.sound.ready h.reliable).legible, fun other hother => ?_⟩
  rw [hid, Option.some.injEq] at hother
  exact hother ▸ hrecords.known

theorem hasPersisted (h : p.Tracks intact listed vault) (hknows : vault.Knows guid) :
    vault.hasPersisted guid := hknows.elim (h.backed guid) id

theorem marked (h : p.Tracks intact listed vault) (hknows : vault.Knows guid) :
    Marked p.site.dataBase guid vault.disk := by
  have hpersisted := h.hasPersisted hknows
  rw [Vault.hasPersisted, h.sound.dataDir] at hpersisted
  exact marked_of_contains h.usable hpersisted

theorem madeBy (h : p.Tracks intact listed vault) (hknows : vault.Knows guid) :
    MadeBy listed guid := h.known guid (h.marked hknows)

/-- Loading leaves nothing behind that is not known. -/
theorem loads (h : p.Tracks intact listed vault) (hsound : p.Sound after)
    (hloads : Vault.Loads Vault.Nothing vault after) : p.Tracks intact listed after := by
  constructor
  case reliable => exact h.reliable
  case sound => exact hsound
  case saving => rw [hloads.settings, h.saving]
  case records =>
    rw [hloads.catalog, hloads.disk]
    exact h.records
  case known =>
    rw [hloads.disk]
    exact h.known
  case backed =>
    intro guid hhas
    rw [hloads.hasPersisted]
    exact h.hasPersisted ((hloads.only guid hhas).resolve_right id)
  case complete =>
    intro hintact guid hguid
    rw [hloads.hasPersisted]
    exact h.complete hintact guid hguid

theorem of_mem_iff (h : p.Tracks intact listed vault) (hmem : ∀ i, i ∈ others ↔ i ∈ listed) :
    p.Tracks intact others vault := by
  have hmade {guid : Guid} (hguid : MadeBy others guid) : MadeBy listed guid :=
    hguid.mono fun i hi => (hmem i).1 hi
  obtain ⟨id, hid, hnode, hknown, hlists⟩ := h.records
  constructor
  case reliable => exact h.reliable
  case sound => exact h.sound
  case saving => exact h.saving
  case records => exact ⟨id, hid, hnode, hknown, hlists.of_mem_iff hmem⟩
  case known => exact fun guid hmarked => (h.known guid hmarked).mono fun i hi => (hmem i).2 hi
  case backed => exact h.backed
  case complete => exact fun hintact guid hguid => h.complete hintact guid (hmade hguid)

/-! ### Saving outputs -/

/-- What is put with what it refers to can be saved. -/
private theorem holds (hsound : p.Sound vault) (hmeans : p.content.Means guid entity)
    (hhas : ∀ x ∈ guid :: entity.references, vault.has x) : vault.Holds guid := by
  obtain ⟨found, hfound⟩ := Vault.has_iff.1 (hhas guid List.mem_cons_self)
  have hsame := (hsound.memory guid found hfound).sameContent hmeans
  refine ⟨found, hfound, fun r hr => ?_⟩
  rw [Entity.references_eq_of_sameContent hsame] at hr
  obtain ⟨set, hset⟩ := (hmeans.fits p.coherent).resolved hr
  obtain ⟨other, hother⟩ := Vault.has_iff.1 (hhas r (List.mem_cons_of_mem guid hr))
  have heq := (hsound.memory r other hother).eq_vertexSet (Assignment.resolver_eq_ok_iff.1 hset)
  exact ⟨set, heq ▸ hother⟩

/-- What a store has that has saved outputs and recorded their instance. -/
private theorem record (h : p.Tracks intact listed vault)
    (hloads : Vault.Loads (· ∈ i.outputs.values) vault between)
    (hsturdy : between.Sturdy p.site.dataDir p.site.dataBase)
    (hsaved : between.Enriches p.site.dataDir p.site.dataBase after)
    (hpersisted : ∀ guid ∈ i.outputs.values, after.hasPersisted guid)
    (hunique : ∀ j ∈ listed, j.guid = i.guid → j = i)
    (hsound : p.Sound (after.withCatalog (·.recordInstance i))) :
    p.Tracks intact (listed ++ [i]) (after.withCatalog (·.recordInstance i)) ∧
      ∀ guid, guid ∈ i.outputs.values ∨ vault.hasPersisted guid →
        (after.withCatalog (·.recordInstance i)).hasPersisted guid := by
  obtain ⟨id, hid, hnode, hlt, hlists⟩ := h.records
  have hcatalog : after.catalog = some id := by rw [hsaved.catalog, hloads.catalog, hid]
  have hlength : id < after.disk.catalogs.length := hsaved.sturdy.known id hcatalog
  have hinstances : (after.disk.catalog id).Lists listed := by
    apply hlists.congr
    rw [hsaved.instances, hloads.disk]
  have hnodes := Vault.nodes_withCatalog after (·.recordInstance i)
  have hstays (guid : Guid) (hguid : guid ∈ i.outputs.values ∨ vault.hasPersisted guid) :
      (after.withCatalog (·.recordInstance i)).hasPersisted guid := by
    have hafter : EntityDirectory.contains after.disk p.site.dataDir guid := by
      rw [← hsaved.sturdy.dataDir]
      rcases hguid with hguid | hguid
      · exact hpersisted guid hguid
      · rw [← hloads.hasPersisted, Vault.hasPersisted, hsturdy.dataDir] at hguid
        rw [hsaved.sturdy.dataDir]
        exact hsaved.contains hsturdy hguid
    rw [Vault.hasPersisted, hsound.dataDir]
    exact (spares_of_nodes (b := p.site.dataBase) hnodes).contains hsaved.sturdy.usable hafter
  have hfront {guid : Guid} (hguid : MadeBy listed guid) : MadeBy (listed ++ [i]) guid :=
    hguid.mono fun j hj => List.mem_append_left _ hj
  have hlast {guid : Guid} (hguid : guid ∈ i.outputs.values) : MadeBy (listed ++ [i]) guid :=
    ⟨i, List.mem_append_right _ (List.mem_singleton_self i), hguid⟩
  refine ⟨⟨h.reliable, hsound, ?_, ?_, fun guid hmarked => ?_, fun guid hhas => hstays guid ?_,
    fun hintact guid hguid => hstays guid ?_⟩, hstays⟩
  · rw [Vault.settings_withCatalog, hsaved.settings, hloads.settings, h.saving]
  · refine ⟨id, (Vault.catalog_withCatalog _ _).trans hcatalog, ?_⟩
    rw [Vault.withCatalog, hcatalog]
    refine ⟨?_, by simpa [Disk.setCatalog] using hlength, ?_⟩
    · have hsame := hsaved.database
      rw [hloads.disk] at hsame
      exact hsame.trans hnode
    · simp only [catalog_setCatalog_self hlength]
      exact hinstances.recordInstance hunique
  · have hbefore := (spares_of_nodes hnodes.symm).marked hmarked
    rcases hsaved.marks guid hbefore with hmarked | hhas
    · rw [hloads.disk] at hmarked
      exact hfront (h.known guid hmarked)
    · exact (hloads.only guid hhas).elim (fun hknows => hfront (h.madeBy hknows)) hlast
  · rw [Vault.has, Vault.entities_withCatalog, hsaved.entities] at hhas
    exact ((hloads.only guid hhas).imp_left h.hasPersisted).symm
  · obtain ⟨j, hj, hguid⟩ := hguid
    rcases List.mem_append.1 hj with hj | hj
    · exact .inr (h.complete hintact guid ⟨j, hj, hguid⟩)
    · exact .inl (List.mem_singleton.1 hj ▸ hguid)

/-- Outputs that were put in a store are saved, and their instance is recorded. -/
private theorem save (h : p.Tracks intact listed vault) (hsound : p.Sound between)
    (hloads : Vault.Loads (· ∈ outputs.map (·.1)) vault between)
    (hmeans : ∀ output ∈ outputs, p.content.Means output.1 output.2)
    (hhas : ∀ output ∈ outputs, ∀ x ∈ output.1 :: output.2.references, between.has x)
    (hguids : ∀ guid, guid ∈ outputs.map (·.1) ↔ guid ∈ i.outputs.values)
    (hunique : ∀ j ∈ listed, j.guid = i.guid → j = i) :
    Yields (Executor.persistOutputs i outputs) between
      (fun _ after => p.Tracks intact (listed ++ [i]) after ∧ after.entities = between.entities ∧
        ∀ guid, guid ∈ i.outputs.values ∨ vault.hasPersisted guid → after.hasPersisted guid)
      fun _ _ => False := by
  have hsturdy : between.Sturdy p.site.dataDir p.site.dataBase := by
    refine ⟨hsound.dataDir, (hsound.ready h.reliable).data.mono fun _ hx => hx.1,
      (hsound.ready h.reliable).legible, ?_⟩
    rw [hloads.catalog, hloads.disk]
    exact h.sturdy.known
  have hnew : Vault.Loads (· ∈ i.outputs.values) vault between :=
    hloads.mono fun guid hguid => .inr ((hguids guid).1 hguid)
  have hholds : ∀ output ∈ outputs, between.Holds output.1 := fun output houtput =>
    holds hsound (hmeans output houtput) (hhas output houtput)
  have hkeeps := (Executor.keeps_persistOutputs p i outputs).yields between hsound
  apply ((Vault.persistOutputs_saves hsturdy hholds i).and hkeeps).mono ?_ fun _ _ hfalse => hfalse.1
  rintro - _ ⟨⟨saved, hsaved, hpersisted, rfl⟩, hafter, -⟩
  have hsaves : ∀ guid ∈ i.outputs.values, saved.hasPersisted guid := by
    intro guid hguid
    obtain ⟨output, houtput, rfl⟩ := List.mem_map.1 ((hguids guid).2 hguid)
    exact hpersisted output houtput
  have hrecorded := h.record hnew hsturdy hsaved hsaves hunique hafter
  have hentities := (saved.entities_withCatalog (·.recordInstance i)).trans hsaved.entities
  exact ⟨hrecorded.1, hentities, hrecorded.2⟩

end Tracks

end Premise

/-! ### Executing an instance -/

namespace Restorable

variable (h : Restorable executed)

/-- All that is needed to execute an instance is there. -/
structure Supplies (h : Restorable executed) (site : Site) (vault : Vault) (i : Instance) : Prop where
  accepted : Accepted executed i
  runs : i.Runs executed
  inputs : ∀ input ∈ i.inputs.values, (h.premise site).Available vault input

/-- Outputs that an instance has made of inputs that a store knows. -/
structure Produced (executed : Instance → Prop) (vault : Vault) (i : Instance)
    (inputs : SortedMap String (Guid × Entity)) (outputs : List (Guid × Entity)) : Prop where
  binds : i.Binds (fun guid entity => vault.Knows guid ∧ (meaning executed).Means guid entity) inputs
  runs : i.Runs executed
  hands : i.Hands (Makes i inputs) outputs
  order : Executor.InOrder outputs

variable {h}

theorem Produced.loads {new : Guid → Prop} (hproduced : Produced executed vault i inputs outputs)
    (hloads : Vault.Loads new vault after) : Produced executed after i inputs outputs :=
  ⟨hproduced.binds.mono fun _ _ hmeans => ⟨hloads.knows hmeans.1, hmeans.2⟩, hproduced.runs,
    hproduced.hands, hproduced.order⟩

theorem Produced.means (hproduced : Produced executed vault i inputs outputs)
    (h : Unambiguous executed) (hi : Accepted executed i) :
    ∀ output ∈ outputs, (meaning executed).Means output.1 output.2 := by
  intro output houtput
  obtain ⟨slot, hslot, hmakes⟩ := hproduced.hands.sound output houtput
  have hresolved : Resolved executed i inputs := fun slot guid entity hget =>
    ⟨(hproduced.binds.sound slot guid entity hget).1,
      (hproduced.binds.sound slot guid entity hget).2.2⟩
  exact Assignment.means_of_eq
    ((meaning_eq_some_iff h).2 (hmakes.output h hi hresolved output.1 hslot))

/-- An instance makes its outputs if it is supplied with what it needs. -/
theorem keeps_produce (h : Restorable executed) (site : Site) (i : Instance) (vault : Vault) :
    (h.premise site).Fetches vault (fun _ => ¬ h.Supplies site vault i)
      (fun outputs => ∃ inputs, Produced executed vault i inputs outputs)
      (Executor.produce Registry.builtin i) := by
  have hresolve : (h.premise site).Fetches vault (fun _ => ¬ h.Supplies site vault i)
      (i.Binds fun guid entity => vault.Knows guid ∧ (meaning executed).Means guid entity)
      (Executor.resolveInputs i) := by
    refine Executor.keeps_resolveInputs fun slot guid hslot => ?_
    have hfetches := Premise.fetches_getOrLoad (p := h.premise site) trivial vault guid
    refine hfetches.tryCatch fun failure hunavailable => .throw fun hsupplies => hunavailable ?_
    exact hsupplies.inputs guid (Instance.mem_values_of_get? hslot)
  have hruns : ∀ inputs, i.Binds
      (fun guid entity => vault.Knows guid ∧ (meaning executed).Means guid entity) inputs →
      (∃ outputs, i.RunsTo inputs outputs) ∨ ∀ _ : Failure, ¬ h.Supplies site vault i := by
    intro inputs hinputs
    by_cases hruns : i.Runs executed
    · exact .inl (hruns.runsTo (hinputs.mono fun _ _ hmeans => hmeans.2))
    · exact .inr fun _ hsupplies => hruns hsupplies.runs
  apply (Executor.keeps_produce_runsTo hresolve hruns).mono ?_ fun _ hfailure => hfailure
  rintro outputs ⟨horder, inputs, made, hinputs, hruns, hperm⟩
  have hmeans : i.Binds (meaning executed).Means inputs := hinputs.mono fun _ _ hmeans => hmeans.2
  exact ⟨inputs, hinputs, ⟨inputs, made, hmeans, hruns⟩, hruns.hands.perm hperm, horder⟩

/-- Where the putting of outputs stops, something was missing that an input refers to, and no output
had been put. -/
private theorem missing (h : Restorable executed) (site : Site) (hi : Accepted executed i)
    (hproduced : Produced executed vault i inputs (front ++ output :: back))
    (hmissing : ¬ ∀ r ∈ output.2.references, vault.Knows r ∨ r ∈ front.map (·.1)) :
    front = [] ∧ ¬ h.Supplies site vault i := by
  simp only [not_forall, not_or] at hmissing
  obtain ⟨r, hr, hunknown, hforeign⟩ := hmissing
  obtain ⟨hfirst, slot, guid, found, hget, hmem⟩ := hproduced.hands.first_of_foreign hproduced.order
    hproduced.runs.contains_iff (h.nodup_outputs hi) hr hforeign
  refine ⟨hfirst, fun hsupplies => hunknown ?_⟩
  obtain ⟨hslot, -, assigned, hassigned, hsame⟩ := hproduced.binds.sound slot guid found hget
  obtain ⟨other, hother, hknows⟩ := hsupplies.inputs guid (Instance.mem_values_of_get? hslot)
  have heq : assigned = other := Option.some.inj (hassigned.symm.trans hother)
  rw [← Entity.references_eq_of_sameContent hsame, heq] at hmem
  exact hknows r hmem

/-- An instance has been executed and recorded, and its outputs are in memory. -/
structure Adds (h : Restorable executed) (site : Site) (intact : Prop) (listed : List Instance)
    (i : Instance) (vault : Vault) : Prop where
  ledger : Ledger executed (listed ++ [i])
  tracks : (h.premise site).Tracks intact (listed ++ [i]) vault
  has : ∀ output ∈ i.outputs.values, vault.has output

/-- Outputs are put, saved and recorded, unless something is missing that an input refers to. -/
private theorem publish (hledger : Ledger executed listed) (hi : Accepted executed i)
    (htracks : (h.premise site).Tracks intact listed vault)
    (hproduced : Produced executed vault i inputs outputs) :
    Yields (do
        outputs.forM fun (guid, entity) => do
          let _ ← Vault.put guid entity
        if (← get).settings.persistOutputs then Executor.persistOutputs i outputs
        return Outcome.computed) vault
      (fun _ after => vault.Retains after ∧ (∀ output ∈ i.outputs.values, after.hasPersisted output) ∧
        h.Adds site intact listed i after)
      fun _ after => vault.Retains after ∧ (h.premise site).Tracks intact listed after ∧
        ¬ h.Supplies site vault i := by
  have hmeans := hproduced.means h.toUnambiguous hi
  have hputs := htracks.sound.puts_yields htracks.reliable hmeans
  rw [yields_bind]
  apply hputs.mono
  · rintro - between ⟨hbetween, hloads, hhas⟩
    have hunique : ∀ j ∈ listed, j.guid = i.guid → j = i := fun j hj hguid =>
      (hledger.runs j hj).eq_of_guid hproduced.runs h.toUnambiguous (hledger.accepted j hj) hi hguid
    have hinputs : ∀ input ∈ i.inputs.values, MadeBy listed input := by
      intro input hinput
      obtain ⟨slot, hslot⟩ := Instance.mem_values_iff.1 hinput
      obtain ⟨entity, hget⟩ := hproduced.binds.complete slot input hslot
      exact htracks.madeBy (hproduced.binds.sound slot input entity hget).2.1
    have hguids : ∀ guid, guid ∈ outputs.map (·.1) ↔ guid ∈ i.outputs.values := fun guid =>
      hproduced.hands.mem_guids_iff
    have houtputs : ∀ guid ∈ i.outputs.values, between.has guid := by
      intro guid hguid
      obtain ⟨output, houtput, rfl⟩ := List.mem_map.1 ((hguids guid).2 hguid)
      exact hhas output houtput output.1 List.mem_cons_self
    have hsaving : between.settings.persistOutputs = true := by
      rw [hloads.settings, htracks.saving]
    have hsaves := htracks.save hbetween hloads hmeans hhas hguids hunique
    simp only [yields_bind, yields_get, hsaving, if_true, yields_pure]
    apply hsaves.mono ?_ fun _ _ hfalse => hfalse.elim
    rintro - after ⟨hafter, hentities, hpersisted⟩
    have hkept (guid : Guid) (hguid : between.has guid) : after.has guid := by
      rw [Vault.has, hentities]
      exact hguid
    exact ⟨⟨fun guid hguid => hkept guid (hloads.kept guid hguid),
        fun guid hguid => hpersisted guid (.inr hguid)⟩,
      fun guid hguid => hpersisted guid (.inl hguid), hledger.append hi hproduced.runs hinputs, hafter,
      fun guid hguid => hkept guid (houtputs guid hguid)⟩
  · rintro _ after ⟨hafter, front, output, back, rfl, hloads, hmissing⟩
    obtain ⟨rfl, hunsupplied⟩ := missing h site hi hproduced hmissing
    refine ⟨hloads.retains, htracks.loads hafter ?_, hunsupplied⟩
    exact hloads.mono fun _ hmem => absurd hmem List.not_mem_nil

/-- An instance that is executed is cached if all its outputs are known. Otherwise it is run, saved
and recorded, if it is supplied with what it needs. -/
theorem execute_yields (hledger : Ledger executed listed) (hi : executed i)
    (htracks : (h.premise site).Tracks intact listed vault) :
    Yields (Executor.execute Registry.builtin i) vault
      (fun outcome after => vault.Retains after ∧
        (∀ output ∈ i.outputs.values, after.hasPersisted output) ∧
        (outcome = .cached ∧ after = vault ∨
          (∃ output ∈ i.outputs.values, ¬ vault.hasPersisted output) ∧
            h.Adds site intact listed i after))
      fun _ after => vault.Retains after ∧ (h.premise site).Tracks intact listed after ∧
        ¬ h.Supplies site vault i := by
  have hrefl : vault.Retains vault := ⟨fun _ hguid => hguid, fun _ hguid => hguid⟩
  rw [Executor.execute, yields_bind]
  refine yields_ofExcept (fun _ hverified => ?_) fun failure hfailure =>
    ⟨hrefl, htracks, fun hsupplies => ?_⟩
  case refine_2 =>
    rw [hsupplies.accepted.verified] at hfailure
    cases hfailure
  have haccepted : Accepted executed i := ⟨hi, hverified⟩
  rw [yields_bind, yields_get]
  cases hcached : Executor.isCached vault i with
  | true =>
    obtain ⟨-, hknows⟩ := Executor.isCached_iff.1 hcached
    have hpersisted : ∀ output ∈ i.outputs.values, vault.hasPersisted output :=
      fun output houtput => htracks.hasPersisted (hknows output houtput)
    exact ⟨hrefl, hpersisted, .inl ⟨rfl, rfl⟩⟩
  | false =>
    have hproduce := (h.keeps_produce site i vault).yields vault ⟨htracks.sound, Std.Refl.refl vault⟩
    simp only [Bool.false_eq_true, if_false]
    rw [yields_bind]
    apply hproduce.mono
    · rintro outputs between ⟨⟨hbetween, hloads⟩, inputs, hproduced⟩
      have hlost : ¬ ∀ output ∈ i.outputs.values, vault.hasPersisted output := by
        intro hpersisted
        have hknown := Executor.isCached_iff.2 ⟨hproduced.runs.exists_output,
          fun output houtput => .inr (hpersisted output houtput)⟩
        rw [hcached] at hknown
        cases hknown
      have hpublish :=
        publish hledger haccepted (htracks.loads hbetween hloads) (hproduced.loads hloads)
      apply hpublish.mono
      · rintro outcome after ⟨hretains, hpersisted, hadds⟩
        exact ⟨hloads.retains.trans hretains, hpersisted, .inr ⟨by simpa using hlost, hadds⟩⟩
      · rintro _ after ⟨hretains, hafter, hunsupplied⟩
        refine ⟨hloads.retains.trans hretains, hafter, fun hsupplies => hunsupplied ?_⟩
        exact ⟨hsupplies.accepted, hsupplies.runs,
          fun input hinput => (hsupplies.inputs input hinput).loads hloads⟩
    · rintro _ after ⟨⟨hafter, hloads⟩, hunsupplied⟩
      exact ⟨hloads.retains, htracks.loads hafter hloads, hunsupplied⟩

end Restorable

/-! ### Other work of a store that keeps a ledger -/

namespace Premise

variable {p : Premise} {disk : Disk}

/-- Complete copies that belong there belong to outputs of recorded instances. -/
private theorem keptAs_madeBy {b : Address} (hkept : Kept p.content.copy b disk)
    (hknown : ∀ guid, Marked b guid disk → MadeBy listed guid) :
    KeptAs (fun guid _ => MadeBy listed guid) b disk := by
  intro guid hmarked
  obtain ⟨stored, -, hholds⟩ := hkept guid hmarked
  exact ⟨stored, hknown guid hmarked, hholds⟩

namespace Tracks

/-- Work that only loads leaves what is recorded, whatever comes of it. -/
theorem load_yields {α : Type} {good : α → Prop} {work : VaultM α}
    (h : p.Tracks intact listed vault) (hkeeps : p.Keeps good work)
    (hmoves : Moves (Vault.Loads Vault.Nothing) work) :
    Yields work vault (fun _ after => p.Tracks intact listed after)
      fun _ after => p.Tracks intact listed after :=
  ((hkeeps.yields vault h.sound).and (hmoves vault)).mono
    (fun _ _ hafter => h.loads hafter.1.1 hafter.2) fun _ _ hafter => h.loads hafter.1.1 hafter.2

private theorem erase (h : p.Tracks intact listed vault) (guid : Guid) :
    p.Tracks intact listed { vault with entities := vault.entities.erase guid } := by
  refine ⟨h.reliable, h.sound.erase guid, h.saving, h.records, h.known, fun x hx => ?_, h.complete⟩
  have hafter : (vault.entities.erase guid).contains x := hx
  by_cases heq : x = guid
  · rw [heq, SortedMap.contains, SortedMap.get?_erase_self] at hafter
    cases hafter
  · rw [SortedMap.contains, SortedMap.get?_erase_of_ne _ heq] at hafter
    exact h.backed x hafter

theorem remove_yields (h : p.Tracks intact listed vault) (guid : Guid) :
    Yields (Vault.remove guid) vault (fun _ after => p.Tracks intact listed after)
      fun _ _ => False := h.erase guid

/-- Purging forgets an entity, but no instance. -/
theorem purge_yields (h : p.Tracks intact listed vault) (hintact : ¬ intact) (guid : Guid) :
    Yields (Vault.purge guid) vault (fun _ after => p.Tracks intact listed after)
      fun _ _ => False := by
  obtain ⟨id, hid, hnode, hlt, hlists⟩ := h.records
  have hready := h.sound.ready h.reliable
  have hpurge : Yields (Vault.purge guid) vault
      (fun _ after => ∃ disk, (disk = vault.disk ∨ Removed p.site.dataBase guid vault.disk disk) ∧
        after = { vault with
          entities := vault.entities.erase guid
          disk := disk.setCatalog id ((disk.catalog id).forgetEntity guid) }) fun _ _ => False := by
    simp only [Vault.purge, Vault.remove, yields_bind, yields_get, yields_set, yields_pure,
      Vault.onDisk_yields_iff, h.sound.dataDir]
    apply (hready.remove_yields guid).mono ?_ fun _ _ hfalse => hfalse
    rintro - disk ⟨-, hdisk⟩
    let removed : Vault := { vault with entities := vault.entities.erase guid, disk }
    have hcatalog : removed.catalog = some id := hid
    exact (Vault.yields_modifyCatalog hcatalog _).2 ⟨disk, hdisk, rfl⟩
  apply (hpurge.and ((Vault.keeps_purge p guid).yields vault h.sound)).mono ?_
    fun _ _ hfalse => hfalse.1
  rintro - _ ⟨⟨disk, hdisk, rfl⟩, hsound, -⟩
  have hbefore := keptAs_madeBy (h.sound.kept _ h.usable.way.walk_eq) h.known
  have hspares : ∀ x, x ≠ guid → Spares p.site.dataBase x vault.disk disk := by
    rcases hdisk with rfl | hremoved
    · exact fun x _ => spares_of_nodes rfl
    · exact fun x hne => spares_agreesOff hremoved.agrees hne
  obtain ⟨hdatabase, hcatalogs, hkept⟩ :
      disk.node? (catalogAddress p.site.dataBase) = some (.database id) ∧
        disk.catalogs = vault.disk.catalogs ∧
        KeptAs (fun guid _ => MadeBy listed guid) p.site.dataBase disk := by
    rcases hdisk with rfl | hremoved
    · exact ⟨hnode, rfl, hbefore⟩
    · refine ⟨?_, hremoved.catalogs, hbefore.removed hremoved⟩
      exact (hremoved.agrees _ (not_above_catalogAddress _ guid)).trans hnode
  refine ⟨h.reliable, hsound, h.saving, ⟨id, hid, hdatabase, ?_, ?_⟩, fun x hmarked => ?_,
    fun x hx => ?_, fun hkept => absurd hkept hintact⟩
  · simpa [Disk.setCatalog, hcatalogs] using hlt
  · have hsame : disk.catalog id = vault.disk.catalog id := by
      rw [Disk.catalog, Disk.catalog, hcatalogs]
    rw [catalog_setCatalog_self (hcatalogs ▸ hlt), hsame]
    exact hlists.congr rfl
  · obtain ⟨-, hmade, -⟩ := hkept x hmarked
    exact hmade
  · have hafter : (vault.entities.erase guid).contains x := hx
    have hne : x ≠ guid := by
      rintro rfl
      rw [SortedMap.contains, SortedMap.get?_erase_self] at hafter
      cases hafter
    rw [SortedMap.contains, SortedMap.get?_erase_of_ne _ hne] at hafter
    have hpersisted := h.backed x hafter
    rw [Vault.hasPersisted, h.sound.dataDir] at hpersisted
    have hlast : Spares p.site.dataBase x vault.disk
        (disk.setCatalog id ((disk.catalog id).forgetEntity guid)) :=
      (hspares x hne).trans (spares_of_nodes rfl)
    rw [Vault.hasPersisted, hsound.dataDir]
    exact hlast.contains h.usable hpersisted

end Tracks

/-! ### Closing and opening -/

/-- A disk that a store with a ledger has left behind. Before the first one there is no catalog. -/
structure TracksDisk (p : Premise) (intact : Prop) (listed : List Instance) (disk : Disk) :
    Prop where
  reliable : p.reliable
  sound : p.SoundDisk disk
  records : disk.node? (catalogAddress p.site.dataBase) = none ∧ listed = [] ∨
    ∃ id, disk.Records p.site.dataBase listed id
  known : ∀ guid, Marked p.site.dataBase guid disk → MadeBy listed guid
  complete : intact → ∀ guid, MadeBy listed guid →
    EntityDirectory.contains disk p.site.dataDir guid

theorem Tracks.close (h : p.Tracks intact listed vault) : p.TracksDisk intact listed vault.close := by
  have hnodes := vault.nodes_close
  obtain ⟨id, hid, hnode, hlt, hlists⟩ := h.records
  have hclose : vault.close = vault.disk.release id := by rw [Vault.close, hid]
  refine ⟨h.reliable, h.sound.close, .inr ⟨id, ?_⟩, fun guid hmarked => ?_,
    fun hintact guid hguid => ?_⟩
  · rw [hclose]
    exact ⟨hnode, hlt, hlists⟩
  · exact h.known guid ((spares_of_nodes hnodes.symm).marked hmarked)
  · have hpersisted := h.complete hintact guid hguid
    rw [Vault.hasPersisted, h.sound.dataDir] at hpersisted
    exact (spares_of_nodes (b := p.site.dataBase) hnodes).contains h.usable hpersisted

theorem tracksDisk_fresh (hreliable : p.reliable) (hfresh : p.site.Fresh disk) :
    p.TracksDisk intact [] disk := by
  have hunmarked (guid : Guid) : ¬ Marked p.site.dataBase guid disk := by
    rintro ⟨node, hnode, -⟩
    rw [hfresh.empty _ (inside_text _ guid _)] at hnode
    cases hnode
  refine ⟨hreliable, ⟨fun b hb guid hmarked => ?_, fun _ => hfresh.ready⟩,
    .inl ⟨hfresh.empty _ (Site.inside_catalogAddress _), rfl⟩,
    fun guid hmarked => absurd hmarked (hunmarked guid), ?_⟩
  · have hbase : base p.site.dataDir = .ok p.site.dataBase := hfresh.data.way.walk_eq
    rw [hb, Except.ok.injEq] at hbase
    subst hbase
    exact absurd hmarked (hunmarked guid)
  · rintro - guid ⟨i, hi, -⟩
    cases hi

/-- A store is opened with the ledger of the one before. -/
theorem TracksDisk.open_yields {disk : Disk} (h : p.TracksDisk intact listed disk)
    {settings : Settings} (hsettings : p.site.Archives settings) :
    Yields (Vault.open settings) disk
      (fun vault _ => p.Tracks intact listed vault ∧ vault.entities = SortedMap.empty ∧
        ∀ guid, EntityDirectory.contains disk p.site.dataDir guid → vault.hasPersisted guid)
      fun _ _ => False := by
  have hready := h.sound.ready h.reliable
  have husable : UsableRoot p.site.dataDir p.site.dataBase disk :=
    hready.data.mono fun _ hx => hx.1
  have hsound := h.sound.open_yields hsettings.dataDir fun _ => hsettings.unorderedDir
  apply (((hready.open_yields hsettings.dataDir).and
    (hready.open_finds hsettings.dataDir hsettings.catalog)).and hsound).mono ?_
    fun _ _ hfalse => hfalse.1.1
  rintro vault after ⟨⟨⟨hvault, -, hprepared⟩, id, hid, hnode, hcatalogs⟩, hsound⟩
  have hdisk : vault.disk = after := by rw [hvault]
  have hentities : vault.entities = SortedMap.empty := by rw [hvault]
  have hspares (guid : Guid) : Spares p.site.dataBase guid disk vault.disk := by
    rw [hdisk]
    exact spares_prepared husable hprepared
  have hcontains (guid : Guid) (hguid : EntityDirectory.contains disk p.site.dataDir guid) :
      vault.hasPersisted guid := by
    rw [Vault.hasPersisted, hsound.dataDir]
    exact (hspares guid).contains husable hguid
  refine ⟨⟨h.reliable, hsound, ?_, ⟨id, hid, ?_⟩, fun guid hmarked => ?_, fun guid hhas => ?_,
    fun hintact guid hguid => hcontains guid (h.complete hintact guid hguid)⟩, hentities, hcontains⟩
  · rw [hvault]
    exact hsettings.persistOutputs
  · rw [hdisk]
    rcases hcatalogs with ⟨hbefore, hsame⟩ | ⟨hbefore, rfl, hnew⟩
    · obtain ⟨hnone, -⟩ | ⟨other, hother, hlt, hlists⟩ := h.records
      · rw [hbefore] at hnone
        cases hnone
      · rw [hbefore, Option.some.injEq, Node.database.injEq] at hother
        subst hother
        exact ⟨hnode, hsame ▸ hlt, sameCatalogs_of_eq hsame id ▸ hlists⟩
    · obtain ⟨-, rfl⟩ | ⟨other, hother, -⟩ := h.records
      · refine ⟨hnode, by simp [hnew], ?_⟩
        have hempty : after.catalog disk.catalogs.length = Catalog.empty := by
          simp [Disk.catalog, hnew]
        rw [hempty]
        exact Catalog.lists_empty
      · rw [hbefore] at hother
        cases hother
  · rw [hdisk] at hmarked
    have hbefore := keptAs_madeBy (h.sound.kept _ husable.way.walk_eq) h.known
    obtain ⟨-, hmade, -⟩ := hbefore.prepared hprepared guid hmarked
    exact hmade
  · rw [Vault.has, hentities] at hhas
    cases hhas

end Premise

end GraphVault
