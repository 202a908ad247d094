import GraphVault.Proofs.Mirroring

/-!
# Work that is mirrored

Whatever a store with a catalog is asked for, its catalog goes on to list just what there are
complete copies of. Only what is purged is forgotten, and only executions that save what they
compute record instances and their claims to entities.
-/

namespace GraphVault

open Disk

-- What these do is known from what they yield, so that they need not be looked into.
attribute [local irreducible] EntityDirectory.read EntityDirectory.write EntityDirectory.remove
  EntityDirectory.contains

variable {site : Site} {licence : Licence} {vault after : Vault} {guid : Guid} {disk : Disk}

/-! ### Exchange copies -/

namespace Disk

/-- Copies that stay and catalogs that stay go on to agree. -/
theorem Mirrors.alters (h : disk.Mirrors site) {last : Disk}
    (halters : disk.Alters site (fun _ => False) (fun _ => False) last) (licence : Licence) :
    last.Mirrors site ∧ disk.Amends site licence [] last := by
  have hbelow := halters.below
  have hcopies (x : Guid) (hx : EntityDirectory.contains disk site.dataDir x) :
      EntityDirectory.contains last site.dataDir x := (halters.kept x hx).resolve_right not_false
  refine ⟨⟨halters.knowsCatalog h.known, ?_, fun x hx => ?_, fun x hmarked => ?_⟩,
    .of_same hbelow hcopies⟩
  · rw [hbelow]
    exact h.filed
  · rw [hbelow] at hx
    exact hcopies x (h.complete x hx)
  · rw [hbelow]
    exact h.entered x ((halters.only x hmarked).resolve_right not_false)

end Disk

namespace Vault

/-- An exchange copy is written apart from the data. -/
private theorem export_alters (h : vault.Mirrors site) (stored : Stored) :
    Yields (EntityDirectory.write site.unorderedDir stored) vault.disk
      (fun _ disk => site.Ready vault.catalog disk ∧
        vault.disk.Alters site (fun _ => False) (fun _ => False) disk) fun _ _ => False := by
  apply ((h.ready.write_yields (.inr ⟨rfl, rfl⟩) stored).and
    (write_catalogs site.unorderedDir stored vault.disk)).mono ?_ fun _ _ hfalse => hfalse.1
  rintro - last ⟨⟨hready, rfl | ⟨grown, hgrows, rfl⟩⟩, hcatalogs⟩
  · exact ⟨hready, .refl site _ _ _⟩
  have hagrees := publish_agreesOff grown (site.unorderedBase ++ [stored.manifest.guid.text]) stored
  have hapart := h.ready.apart
  have hinside (a : Address) (ha : Inside site.dataBase a) :
      (EntityDirectory.publish grown (site.unorderedBase ++ [stored.manifest.guid.text]) stored).node?
        a = grown.node? a := by
    obtain ⟨name, rest, rfl, hparent, hroot⟩ := ha
    apply hagrees
    exact not_prefix_of_apart (Ne.symm hapart.ne) hapart.unordered hapart.data _ rest hparent hroot
  have hbelow (a : Address) (ha : Inside site.dataBase a) :
      (EntityDirectory.publish grown (site.unorderedBase ++ [stored.manifest.guid.text]) stored).node?
        a = vault.disk.node? a :=
    (hinside a ha).trans ((hgrows.node a).resolve_right fun hmade => hmade.1.1 ha)
  refine ⟨hready, fun x hx => .inl ?_, fun x hx => .inl ?_,
    hbelow _ (Site.inside_catalogAddress site.dataBase), hcatalogs⟩
  · have hspares : Spares site.dataBase x vault.disk grown := spares_grows hgrows
    obtain ⟨hadmissible, b, hreaches, hdirectory, node, hnode, hfile⟩ :=
      EntityDirectory.contains_iff.1 (hspares.contains h.usable hx)
    obtain ⟨rfl, hafter⟩ := (h.ready.data.grows hgrows).reaches hreaches fun a ha =>
      hagrees a fun habove => ha.2 (inside_of_above habove)
    refine EntityDirectory.contains_iff.2 ⟨hadmissible, _, hafter, ?_, node, ?_, hfile⟩
    · exact (hinside _ (inside_text _ x [])).trans hdirectory
    · exact (hinside _ (inside_text _ x _)).trans hnode
  · obtain ⟨node, hnode, hfile⟩ := hx
    exact ⟨node, (hbelow _ (inside_text _ x _)).symm.trans hnode, hfile⟩

/-- Another disk on which catalogs and copies are as before. -/
private theorem Mirrors.withDisk (h : vault.Mirrors site) (hready : site.Ready vault.catalog disk)
    (halters : vault.disk.Alters site (fun _ => False) (fun _ => False) disk) (licence : Licence) :
    vault.Amends site licence [] { vault with disk } := by
  obtain ⟨hmirrors, hamends⟩ := h.disk.alters halters licence
  obtain ⟨id, hid, hnode⟩ := h.catalog
  exact ⟨⟨h.dataDir, h.unorderedDir, ⟨id, hid, halters.database.trans hnode⟩, hready, hmirrors⟩, rfl,
    fun _ => .inl, hamends⟩

theorem exportUnordered_amends (h : vault.Mirrors site) (guid : Guid) :
    Yields (exportUnordered guid) vault (fun _ after => vault.Amends site licence [] after)
      fun _ after => vault.Amends site licence [] after := by
  have hfind (r : Guid) : Moves (Loads Anything) (getOrLoad r) :=
    (loads_getOrLoad r).mono fun _ _ hloads => hloads.anything
  have hencode : Moves (Loads Anything) (do
      let entity ← getOrLoad guid
      Unordered.encode guid entity resolve) :=
    .bind (hfind guid) fun entity =>
      moves_unordered_encode (fun r => .bind (hfind r) fun _ => .ofExcept _) guid entity
  have hexport : exportUnordered guid = (do
      let stored ← (do
        let entity ← getOrLoad guid
        Unordered.encode guid entity resolve)
      write (← get).settings.unorderedDir stored) := by
    rw [exportUnordered, bind_assoc]
  rw [hexport, yields_bind]
  apply (hencode vault).mono ?_ fun _ _ hloads => h.loads hloads licence
  intro stored now hloads
  have hnow := h.loads hloads licence
  simp only [yields_bind, yields_get, write, onDisk_yields_iff, yields_pure, hnow.mirrors.unorderedDir]
  apply (export_alters hnow.mirrors stored).mono ?_ fun _ _ => False.elim
  exact fun _ disk hdisk => hnow.trans_nil (hnow.mirrors.withDisk hdisk.1 hdisk.2 licence)

/-! ### Purging -/

private theorem remove_alters (h : vault.Mirrors site) (guid : Guid) :
    Yields (EntityDirectory.remove site.dataDir guid) vault.disk
      (fun _ disk => site.Ready vault.catalog disk ∧
        vault.disk.Alters site (fun _ => False) (· = guid) disk ∧
        ¬ Marked site.dataBase guid disk) fun _ _ => False := by
  have hremoved {disk : Disk} (hremoved : Removed site.dataBase guid vault.disk disk) :
      vault.disk.Alters site (fun _ => False) (· = guid) disk ∧
        ¬ Marked site.dataBase guid disk := by
    have hlost : ¬ Marked site.dataBase guid disk := by
      rintro ⟨node, hnode, -⟩
      rw [hremoved.node _ (List.cons_ne_nil _ _)] at hnode
      cases hnode
    refine ⟨⟨fun x hx => ?_, fun x hx => .inl ?_,
      hremoved.agrees _ (not_above_catalogAddress _ guid), hremoved.catalogs⟩, hlost⟩
    · by_cases heq : x = guid
      · exact .inr heq
      · exact .inl ((spares_agreesOff hremoved.agrees heq).contains h.usable hx)
    · have hne : x ≠ guid := fun heq => hlost (heq ▸ hx)
      obtain ⟨node, hnode, hfile⟩ := hx
      exact ⟨node, (hremoved.agrees _ (not_prefix_text hne _)).symm.trans hnode, hfile⟩
  cases hcontains : EntityDirectory.contains vault.disk site.dataDir guid with
  | true =>
    have hexists := exists_of_contains h.usable hcontains
    have hremove := EntityDirectory.remove_of_exists h.usable guid
      (fun _ hx => hx ∘ inside_of_above) hexists
    apply (hremove.and (h.ready.remove_yields guid)).mono ?_ fun _ _ hfalse => hfalse.1
    exact fun _ disk hdisk => ⟨hdisk.2.1, hremoved hdisk.1⟩
  | false =>
    apply (h.ready.remove_yields guid).mono ?_ fun _ _ hfalse => hfalse
    rintro - disk ⟨hready, rfl | hgone⟩
    · refine ⟨hready, .refl site _ _ _, fun hmarked => ?_⟩
      -- a mark without a complete copy would be entered in the catalog
      rw [h.disk.complete guid (h.disk.entered guid hmarked)] at hcontains
      cases hcontains
    · exact ⟨hready, hremoved hgone⟩

theorem remove_amends (h : vault.Mirrors site) (guid : Guid) (hdrops : licence.drops guid) :
    Yields (remove guid) vault (fun _ after => vault.Amends site licence [] after)
      fun _ _ => False := by
  simp only [remove, yields_bind, yields_get, yields_set, yields_pure]
  refine ⟨h.of_same rfl rfl rfl, rfl, fun x hx => ?_, .refl site licence vault.disk⟩
  by_cases heq : x = guid
  · exact .inr (heq ▸ hdrops)
  · refine .inl ?_
    rw [has, SortedMap.contains, SortedMap.get?_erase_of_ne _ heq]
    exact hx

/-- What is purged is forgotten everywhere. -/
theorem purge_amends (h : vault.Mirrors site) (guid : Guid) (hdrops : licence.drops guid)
    (hpurges : licence.purges guid) :
    Yields (purge guid) vault (fun _ after => vault.Amends site licence [] after)
      fun _ _ => False := by
  obtain ⟨id, hid, hnode⟩ := h.catalog
  simp only [purge, remove, yields_bind, yields_get, yields_set, yields_pure, onDisk_yields_iff,
    h.dataDir]
  apply (remove_alters h guid).mono ?_ fun _ _ hfalse => hfalse
  rintro - disk ⟨hready, halters, hlost⟩
  have hremoved : { vault with entities := vault.entities.erase guid, disk }.catalog = some id := hid
  have husable : UsableRoot site.dataDir site.dataBase disk := hready.data.mono fun _ hx => hx.1
  have hdatabase := halters.database.trans hnode
  refine (yields_modifyCatalog hremoved _).2 (amends_setCatalog h hid hready hdatabase
    (fun hlegible => hlegible.forgetEntity guid)
    (h.disk.forget husable hdatabase halters hlost hpurges) fun x hx => ?_)
  by_cases heq : x = guid
  · exact .inr (heq ▸ hdrops)
  · refine .inl ?_
    rw [SortedMap.contains, SortedMap.get?_erase_of_ne _ heq]
    exact hx

end Vault

/-! ### Executing -/

namespace Executor

variable {registry : Registry} {i : Instance} {execution : Execution}
  {executions : List Execution} {outputs : List (Guid × Entity)}

/-- An execution that saves what it computes claims the outputs of its instance. -/
def Claims (execution : Execution) (guid producer : Guid) : Prop :=
  execution.1.settings.persistOutputs = true ∧ isCached execution.1 execution.2 = false ∧
    guid ∈ execution.2.outputs.values ∧ producer = execution.2.guid

/-- What executions may do in the course of requests. -/
def licenceOf (requests : List Request) (executions : List Execution) : Licence where
  drops guid := .remove guid ∈ requests ∨ .purge guid ∈ requests
  purges guid := .purge guid ∈ requests
  credits guid producer := ∃ execution ∈ executions, Claims execution guid producer

theorem licenceOf_within {requests more : List Request} {others : List Execution}
    (hrequests : ∀ request ∈ requests, request ∈ more)
    (hexecutions : ∀ execution ∈ executions, execution ∈ others) :
    (licenceOf requests executions).Within (licenceOf more others) := by
  constructor
  case drops => exact fun guid hdrops => hdrops.imp (hrequests _) (hrequests _)
  case purges => exact fun guid hpurges => hrequests _ hpurges
  case credits =>
    rintro guid producer ⟨execution, hexecution, hclaims⟩
    exact ⟨execution, hexecutions execution hexecution, hclaims⟩

private theorem persists_amend (h : vault.Mirrors site) (hpurges : ∀ guid, ¬ licence.purges guid)
    (producer : Guid) (hcredits : ∀ output ∈ outputs, licence.credits output.1 producer) :
    Yields (outputs.forM fun (guid, _) => do let _ ← Vault.persistFrom guid (some producer)) vault
      (fun _ after => vault.Amends site licence [] after ∧
        ∀ output ∈ outputs, after.hasPersisted output.1)
      fun _ after => vault.Amends site licence [] after := by
  induction outputs generalizing vault with
  | nil => exact ⟨h.amends licence, nofun⟩
  | cons output outputs ih =>
    simp only [List.forM_eq_forM, List.forM_cons, yields_bind, yields_pure]
    have hcredit : ∀ q, some producer = some q → licence.credits output.1 q := by
      rintro _ ⟨⟩
      exact hcredits output List.mem_cons_self
    apply (Vault.persistFrom_amends h output.1 (some producer) hcredit).mono ?_
      fun _ _ hafter => hafter
    rintro - between ⟨hbetween, hpersisted⟩
    apply (ih hbetween.mirrors fun other hother => hcredits other (List.mem_cons_of_mem _ hother)).mono
    · rintro - after ⟨hafter, hall⟩
      refine ⟨hbetween.trans_nil hafter, fun other hother => ?_⟩
      cases List.mem_cons.1 hother with
      | inl heq =>
        rw [heq]
        exact (hafter.hasPersisted hbetween.mirrors hpersisted).resolve_right (hpurges _)
      | inr hmem => exact hall other hmem
    · exact fun _ _ hafter => hbetween.trans_nil hafter

/-- Outputs are persisted one after the other, and then their instance is recorded. -/
private theorem persistOutputs_amends (h : vault.Mirrors site)
    (hpurges : ∀ guid, ¬ licence.purges guid)
    (hguids : ∀ guid ∈ i.outputs.values, guid ∈ outputs.map (·.1))
    (hcredits : ∀ output ∈ outputs, licence.credits output.1 i.guid) :
    Yields (persistOutputs i outputs) vault (fun _ after => vault.Amends site licence [i] after)
      fun _ after => vault.Amends site licence [] after := by
  rw [persistOutputs, yields_bind]
  apply (persists_amend h hpurges i.guid hcredits).mono ?_ fun _ _ hafter => hafter
  rintro - saved ⟨hsaved, hpersisted⟩
  obtain ⟨id, hid, hnode⟩ := hsaved.mirrors.catalog
  refine (Vault.yields_modifyCatalog hid _).2 ?_
  have hlegible (h : (saved.disk.catalog id).Legible) :
      ((saved.disk.catalog id).recordInstance i).Legible := h
  have hcomplete : ∀ guid ∈ i.outputs.values,
      EntityDirectory.contains saved.disk site.dataDir guid := by
    intro guid hguid
    obtain ⟨output, houtput, rfl⟩ := List.mem_map.1 (hguids guid hguid)
    have houtput := hpersisted output houtput
    rwa [Vault.hasPersisted, hsaved.mirrors.dataDir] at houtput
  exact hsaved.trans (Vault.amends_setCatalog hsaved.mirrors hid hsaved.mirrors.ready hnode hlegible
    (hsaved.mirrors.disk.recordInstance hsaved.mirrors.usable hnode i hcomplete) fun _ => .inl)

/-- What has become of a store in which an instance was executed. -/
def Leaves (site : Site) (i : Instance) (vault : Vault) : Outcome → Vault → Prop
  | .cached, after => isCached vault i = true ∧ after = vault
  | .computed, after =>
    vault.Amends site (licenceOf [] [(vault, i)])
      (if vault.settings.persistOutputs then [i] else []) after

/-- An execution may fail anywhere; only if it has saved all that it computed it is recorded. -/
theorem execute_amends (hfaithful : registry.Faithful) (h : vault.Mirrors site) (i : Instance) :
    Yields (execute registry i) vault (fun outcome after => Leaves site i vault outcome after)
      fun _ after => vault.Amends site (licenceOf [] [(vault, i)]) [] after := by
  have hself := h.amends (licenceOf [] [(vault, i)])
  rw [execute, yields_bind]
  refine yields_ofExcept (fun _ _ => ?_) fun _ _ => hself
  rw [yields_bind, yields_get]
  cases hcached : isCached vault i with
  | true => exact ⟨hcached, rfl⟩
  | false =>
    simp only [Bool.false_eq_true, if_false]
    rw [yields_bind]
    apply (produce_yields hfaithful i vault).mono ?_ fun _ _ hloads => h.loads hloads _
    rintro outputs produced ⟨hproduced, hguids⟩
    have hputs : Moves (Vault.Loads Vault.Anything)
        (outputs.forM fun (guid, entity) => do let _ ← Vault.put guid entity) :=
      .forM fun output _ => .bind ((Vault.loads_put output.1 output.2).mono
        fun _ _ hloads => hloads.anything) fun _ => .pure _
    rw [yields_bind]
    apply (hputs produced).mono ?_ fun _ _ hloads => h.loads (Trans.trans hproduced hloads) _
    intro _ between hloads
    have hbetween := h.loads (Trans.trans hproduced hloads) (licenceOf [] [(vault, i)])
    rw [yields_bind, yields_get, hbetween.settings]
    cases hsaving : vault.settings.persistOutputs with
    | false =>
      simp only [Bool.false_eq_true, if_false]
      change vault.Amends site _ (if vault.settings.persistOutputs then [i] else []) between
      rw [hsaving]
      exact hbetween
    | true =>
      have hcredits : ∀ output ∈ outputs, (licenceOf [] [(vault, i)]).credits output.1 i.guid := by
        intro output houtput
        refine ⟨_, List.mem_singleton_self _, hsaving, hcached, ?_, rfl⟩
        exact (hguids output.1).1 (List.mem_map_of_mem houtput)
      simp only [if_true, yields_bind, yields_pure]
      apply (persistOutputs_amends hbetween.mirrors (fun _ => List.not_mem_nil)
        (fun guid hguid => (hguids guid).2 hguid) hcredits).mono
      · intro _ after hafter
        change vault.Amends site _ (if vault.settings.persistOutputs then [i] else []) after
        rw [hsaving]
        exact hbetween.trans hafter
      · exact fun _ _ hafter => hbetween.trans hafter

/-- What an execution does, whatever comes of it. -/
theorem settle_amends (hfaithful : registry.Faithful) (h : vault.Mirrors site) (i : Instance) :
    vault.Amends site (licenceOf [] [(vault, i)]) (saved registry [(vault, i)])
      (settle (execute registry i) vault) := by
  have hexecute := execute_amends hfaithful h i
  unfold Yields at hexecute
  rw [settle]
  cases hresult : execute registry i vault with
  | ok outcome after =>
    rw [hresult] at hexecute
    cases outcome with
    | cached =>
      obtain ⟨-, rfl⟩ := hexecute
      simp only [saved, saves, hresult, Bool.and_false, List.filter_singleton]
      exact h.amends _
    | computed =>
      have hsaved : saved registry [(vault, i)]
          = if vault.settings.persistOutputs then [i] else [] := by
        simp only [saved, saves, hresult, Bool.and_true, List.filter_singleton]
        cases vault.settings.persistOutputs <;> rfl
      rw [hsaved]
      exact hexecute
  | error failure after =>
    rw [hresult] at hexecute
    simp only [saved, saves, hresult, Bool.and_false, List.filter_singleton]
    exact hexecute

/-- Executions that follow each other record those instances that they have saved, in order. -/
theorem Leads.amends (hfaithful : registry.Faithful) (hleads : Leads registry vault executions after)
    (h : vault.Mirrors site) :
    vault.Amends site (licenceOf [] executions) (saved registry executions) after := by
  induction hleads with
  | done vault => exact h.amends _
  | @step vault after i rest hrest ih =>
    have hfirst := settle_amends hfaithful h i
    have hhead : (licenceOf [] [(vault, i)]).Within (licenceOf [] ((vault, i) :: rest)) :=
      licenceOf_within nofun fun execution hexecution => by
        rw [List.mem_singleton.1 hexecution]
        exact List.mem_cons_self
    have htail : (licenceOf [] rest).Within (licenceOf [] ((vault, i) :: rest)) :=
      licenceOf_within nofun fun execution hexecution => List.mem_cons_of_mem _ hexecution
    rw [← List.singleton_append, saved_append]
    exact (hfirst.mono hhead).trans ((ih hfirst.mirrors).mono htail)

end Executor

end GraphVault
