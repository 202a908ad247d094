import GraphVault.Proofs.MirroredWork
import GraphVault.Proofs.Recovery

/-!
# What a catalog tells of a session

Over roots that were fresh, whatever is asked of stores with catalogs, and whether it succeeds or
not, a catalog lists just the entities that have complete copies and, for each guid, the instance of
this guid whose computed outputs were saved last. What is recorded as the producer of an entity stays
so until the entity is purged or claimed by another instance (`Session.history_mirrored`).
-/

namespace GraphVault

open Disk Executor

-- What these do is known from what they yield, so that they need not be looked into.
attribute [local irreducible] EntityDirectory.contains

variable {site : Site} {licence : Licence} {registry : Registry} {vault : Vault} {disk after : Disk}
  {settings : Settings} {session : Session} {request : Request} {requests : List Request}

/-! ### Requests -/

/-- Whatever comes of a request, only its executions record instances. -/
theorem Request.work_amends (hfaithful : registry.Faithful) (h : vault.Mirrors site)
    (request : Request) :
    Yields (request.work registry) vault
      (fun _ after => vault.Amends site (licenceOf [request] (request.executions registry vault))
        (saved registry (request.executions registry vault)) after)
      fun _ after => vault.Amends site (licenceOf [request] (request.executions registry vault))
        (saved registry (request.executions registry vault)) after := by
  have hloads {α : Type} {work : VaultM α} {new : Guid → Prop}
      (hmoves : Moves (Vault.Loads new) work) (licence : Licence) :
      Yields (do let _ ← work) vault (fun _ after => vault.Amends site licence [] after)
        fun _ after => vault.Amends site licence [] after := by
    rw [yields_bind]
    exact (hmoves vault).mono (fun _ _ hloads => h.loads hloads licence)
      fun _ _ hloads => h.loads hloads licence
  have hexecutes {executions : List Execution} {last : Vault}
      (hleads : Leads registry vault executions last) :
      vault.Amends site (licenceOf [request] executions) (saved registry executions) last :=
    (hleads.amends hfaithful h).mono (licenceOf_within (List.nil_subset _) fun _ hexecution => hexecution)
  cases request with
  | «open» settings => exact h.amends _
  | close => exact h.amends _
  | get guid => exact h.amends _
  | put guid entity => exact hloads (Vault.loads_put guid entity) _
  | remove guid =>
    rw [Request.work, yields_bind]
    apply (Vault.remove_amends h guid ?_).mono (fun _ _ hafter => hafter) fun _ _ => False.elim
    exact .inl (List.mem_singleton_self _)
  | purge guid =>
    rw [Request.work, yields_bind]
    apply (Vault.purge_amends h guid ?_ ?_).mono (fun _ _ hafter => hafter) fun _ _ => False.elim
    · exact .inr (List.mem_singleton_self _)
    · exact List.mem_singleton_self _
  | persist guid =>
    rw [Request.work, yields_bind]
    exact (Vault.persistFrom_amends h guid none (by simp)).mono (fun _ _ hafter => hafter.1)
      fun _ _ hafter => hafter
  | load guid => exact hloads (Vault.loads_load guid) _
  | getOrLoad guid => exact hloads (Vault.loads_getOrLoad guid) _
  | exportUnordered guid =>
    rw [Request.work, yields_bind]
    exact (Vault.exportUnordered_amends h guid).mono (fun _ _ hafter => hafter)
      fun _ _ hafter => hafter
  | importUnordered guid => exact hloads (Vault.loads_importUnordered guid) _
  | execute i =>
    have hleads : Leads registry vault [(vault, i)] (settle (Executor.execute registry i) vault) :=
      .step (.done _)
    rw [Request.work, yields_bind]
    apply (execute_settles registry i vault).mono
    · rintro _ _ ⟨rfl, -⟩
      exact hexecutes hleads
    · rintro _ _ rfl
      exact hexecutes hleads
  | run dag =>
    rw [Request.work, yields_bind]
    exact (run_leads registry dag vault).mono (fun _ _ hleads => hexecutes hleads.1)
      fun _ _ hleads => hexecutes hleads

/-! ### Closing and opening -/

namespace Disk

theorem Mirrors.of_nodes (h : disk.Mirrors site) (husable : UsableRoot site.dataDir site.dataBase disk)
    (hnodes : after.nodes = disk.nodes) (hcatalogs : after.catalogs = disk.catalogs)
    (licence : Licence) : after.Mirrors site ∧ disk.Amends site licence [] after := by
  refine h.alters ⟨fun x hx => .inl ?_, fun x hx => .inl ?_, ?_, hcatalogs⟩ licence
  · have hspares : Spares site.dataBase x disk after := spares_of_nodes hnodes
    exact hspares.contains husable hx
  · have hspares : Spares site.dataBase x after disk := spares_of_nodes hnodes.symm
    exact hspares.marked hx
  · rw [node?, node?, hnodes]

/-- Opening a store makes no copies. -/
private theorem marked_of_prepared (husable : UsableRoot site.dataDir site.dataBase disk)
    (hprepared : Prepared site.dataDir disk after) {x : Guid}
    (hmarked : Marked site.dataBase x after) : Marked site.dataBase x disk := by
  obtain ⟨grown, hgrows, hafter⟩ := hprepared
  have hgrown : Marked site.dataBase x grown := by
    rcases hafter with rfl | ⟨b, hb, hagrees⟩
    · exact hmarked
    · have hbase : base site.dataDir = .ok site.dataBase := husable.way.walk_eq
      rw [hb, Except.ok.injEq] at hbase
      subst hbase
      obtain ⟨node, hnode, hfile⟩ := hmarked
      exact ⟨node, (hagrees _ (text_ne_catalogAddress _ x _)).symm.trans hnode, hfile⟩
  obtain ⟨node, hnode, hfile⟩ := hgrown
  rcases hgrows.node (site.dataBase ++ [x.text, EntityDirectory.marker]) with heq | ⟨-, -, hmade⟩
  · exact ⟨node, heq ▸ hnode, hfile⟩
  · rw [hmade, Option.some.injEq] at hnode
    exact absurd hnode.symm hfile

/-- A new catalog is without records, as none is. -/
private theorem FindsCatalog.below {b : Address} {id : Nat} (h : FindsCatalog b disk id after) :
    after.catalogBelow b = disk.catalogBelow b := by
  rcases h.catalogs with ⟨hnode, hcatalogs⟩ | ⟨hnone, rfl, hcatalogs⟩
  · exact catalogBelow_congr (h.node.trans hnode.symm) (sameCatalogs_of_eq hcatalogs)
  · rw [catalogBelow_of_none hnone, catalogBelow_of_node h.node]
    simp [Disk.catalog, hcatalogs]

/-- A store is opened with the catalog that the one before has left. -/
theorem Mirrors.open_yields (h : disk.Mirrors site) (hready : site.Ready none disk)
    (hdata : settings.dataDir = site.dataDir) (hunordered : settings.unorderedDir = site.unorderedDir)
    (hcatalog : settings.catalog = true) (licence : Licence) :
    Yields (Vault.open settings) disk
      (fun vault _ => vault.Mirrors site ∧ vault.settings = settings ∧
        vault.entities = SortedMap.empty ∧
        vault.disk.catalogBelow site.dataBase = disk.catalogBelow site.dataBase ∧
        disk.Amends site licence [] vault.disk)
      fun _ _ => False := by
  have husable : UsableRoot site.dataDir site.dataBase disk := hready.data.mono fun _ hx => hx.1
  apply ((hready.open_yields hdata).and (hready.open_finds hdata hcatalog)).mono ?_
    fun _ _ hfalse => hfalse.1
  rintro vault last ⟨⟨hvault, hlast, hprepared⟩, id, hid, hfinds⟩
  have hdisk : vault.disk = last := by rw [hvault]
  have hsettings : vault.settings = settings := by rw [hvault]
  have hbelow := hfinds.below
  have hcopies (x : Guid) (hx : EntityDirectory.contains disk site.dataDir x) :
      EntityDirectory.contains last site.dataDir x :=
    (spares_prepared husable hprepared).contains husable hx
  subst hdisk
  refine ⟨⟨by rw [hsettings, hdata], by rw [hsettings, hunordered], ⟨id, hid, hfinds.node⟩, hlast,
    fun other hother => ?_, ?_, fun x hx => ?_, fun x hx => ?_⟩, hsettings, by rw [hvault],
    hbelow, .of_same hbelow hcopies⟩
  · rw [hfinds.node, Option.some.injEq, Node.database.injEq] at hother
    exact hother ▸ hfinds.lt_length h.known
  · rw [hbelow]
    exact h.filed
  · rw [hbelow] at hx
    exact hcopies x (h.complete x hx)
  · rw [hbelow]
    exact h.entered x (marked_of_prepared husable hprepared hx)

/-- Before the first store there is nothing to list. -/
theorem mirrors_fresh (h : site.Fresh disk) :
    disk.Mirrors site ∧ disk.catalogBelow site.dataBase = Catalog.empty := by
  have hnone := h.empty _ (Site.inside_catalogAddress site.dataBase)
  have hbelow := catalogBelow_of_none hnone
  refine ⟨⟨fun id hnode => ?_, ?_, fun x hx => ?_, fun x hmarked => ?_⟩, hbelow⟩
  · rw [hnone] at hnode
    cases hnode
  · rw [hbelow]
    exact Catalog.filed_empty
  · rw [hbelow] at hx
    cases hx
  · obtain ⟨node, hnode, -⟩ := hmarked
    rw [h.empty _ (inside_text _ x _)] at hnode
    cases hnode

end Disk

/-! ### Sessions -/

namespace Session

/-- Requests to stores with catalogs over the same roots. -/
def Mirroring (site : Site) (_ : Session) : Request → Prop
  | .open settings => settings.dataDir = site.dataDir ∧ settings.unorderedDir = site.unorderedDir ∧
      settings.catalog = true
  | _ => True

/-- A store whose catalog mirrors its directory, or a disk that one was left on. -/
def Mirrors (site : Site) : Session → Prop
  | opened vault => vault.Mirrors site
  | closed disk => site.Ready none disk ∧ disk.Mirrors site

/-- Closing a store only releases its catalog. -/
theorem close_amends (h : vault.Mirrors site) (licence : Licence) :
    (site.Ready none vault.close ∧ vault.close.Mirrors site) ∧
      vault.disk.Amends site licence [] vault.close ∧
      vault.close.Amends site licence [] vault.disk := by
  have hcatalogs : vault.close.catalogs = vault.disk.catalogs := by
    unfold Vault.close
    split <;> rfl
  obtain ⟨hclosed, hamends⟩ := h.disk.of_nodes h.usable vault.nodes_close hcatalogs licence
  have husable : UsableRoot site.dataDir site.dataBase vault.close :=
    Site.usable_of_nodes h.usable vault.nodes_close
  exact ⟨⟨h.ready.close, hclosed⟩, hamends,
    (hclosed.of_nodes husable vault.nodes_close.symm hcatalogs.symm licence).2⟩

theorem Mirrors.closed (h : session.Mirrors site) :
    site.Ready none session.disk ∧ session.disk.Mirrors site := by
  cases session with
  | opened vault => exact (close_amends h Licence.none).1
  | closed disk => exact h

/-- One request, whatever comes of it. -/
theorem next_amends (hfaithful : registry.Faithful) (h : session.Mirrors site)
    (hallowed : Mirroring site session request) :
    ((session.next registry request).2).Mirrors site ∧
      session.disk.Amends site (licenceOf [request] (executionsOf registry request session))
        (saved registry (executionsOf registry request session))
        (session.next registry request).2.disk := by
  apply next_of_cases fun answer => answer.2.Mirrors site ∧
    session.disk.Amends site (licenceOf [request] (executionsOf registry request session))
      (saved registry (executionsOf registry request session)) answer.2.disk
  · rintro settings rfl
    have hnothing : executionsOf registry (.open settings) session = [] := by cases session <;> rfl
    rw [hnothing]
    obtain ⟨hready, hdisk⟩ := h.closed
    have hopen := hdisk.open_yields hready hallowed.1 hallowed.2.1 hallowed.2.2
      (licenceOf [.open settings] [])
    apply hopen.mono ?_ fun _ _ => False.elim
    rintro vault - ⟨hvault, -, -, -, hamends⟩
    exact ⟨hvault, hamends.trans (close_amends hvault _).2.1⟩
  · rintro rfl
    have hnothing : executionsOf registry .close session = [] := by cases session <;> rfl
    rw [hnothing]
    exact ⟨h.closed, .refl site _ _⟩
  · rintro disk rfl
    exact ⟨h, .refl site _ _⟩
  · rintro vault rfl - -
    have hopened := (close_amends h (licenceOf [request]
      (executionsOf registry request (opened vault)))).2.2
    have hwork {after : Vault} (hafter : vault.Amends site
        (licenceOf [request] (request.executions registry vault))
        (saved registry (request.executions registry vault)) after) :
        after.Mirrors site ∧ vault.close.Amends site
          (licenceOf [request] (request.executions registry vault))
          (saved registry (request.executions registry vault)) after.close := by
      have htrans := (hopened.trans hafter.disk).trans (close_amends hafter.mirrors _).2.1
      rw [List.append_nil] at htrans
      exact ⟨hafter.mirrors, htrans⟩
    exact (request.work_amends hfaithful h).mono (fun _ _ hafter => hwork hafter)
      fun _ _ hafter => hwork hafter

/-- All requests of a session, whatever comes of them. -/
theorem History.amends (hfaithful : registry.Faithful) {start : Session} (hstart : start.Mirrors site)
    (h : History registry (Mirroring site) start requests session) :
    session.Mirrors site ∧
      start.disk.Amends site (licenceOf requests (executions registry start requests))
        (saved registry (executions registry start requests)) session.disk := by
  induction h with
  | start => exact ⟨hstart, .refl site _ _⟩
  | @step requests session request hbefore hallowed ih =>
    obtain ⟨hsession, hamends⟩ := ih
    obtain ⟨hnext, hlast⟩ := next_amends hfaithful hsession hallowed
    have hexecutions : executions registry start (requests ++ [request])
        = executions registry start requests ++ executionsOf registry request session := by
      rw [executions_append, ← hbefore.eq_foldl, executions, executions, List.append_nil]
    rw [hexecutions, saved_append]
    refine ⟨hnext, (hamends.mono (licenceOf_within ?_ ?_)).trans (hlast.mono (licenceOf_within ?_ ?_))⟩
    · exact fun _ hmem => List.mem_append_left _ hmem
    · exact fun _ hmem => List.mem_append_left _ hmem
    · exact fun _ hmem => List.mem_append_right _ hmem
    · exact fun _ hmem => List.mem_append_right _ hmem

/-- Over roots that were fresh, a store comes to have recorded what the executions so far have saved,
and nothing else. -/
theorem History.recorded (hfaithful : registry.Faithful) (hfresh : site.Fresh disk)
    (h : History registry (Mirroring site) (closed disk) requests (opened vault)) :
    vault.Mirrors site ∧
      disk.Amends site (licenceOf requests (executions registry (closed disk) requests))
        (saved registry (executions registry (closed disk) requests)) vault.disk ∧
      (vault.disk.catalogBelow site.dataBase).instances
        = Catalog.fileAll Instance.codec Instance.guid SortedMap.empty
          (saved registry (executions registry (closed disk) requests)) := by
  obtain ⟨hdisk, hempty⟩ := mirrors_fresh hfresh
  have hstart : (closed disk).Mirrors site := ⟨hfresh.ready, hdisk⟩
  obtain ⟨hvault, hclosed⟩ := h.amends hfaithful hstart
  have hmirrors : vault.Mirrors site := hvault
  have hamends := hclosed.trans (close_amends hmirrors _).2.2
  rw [List.append_nil] at hamends
  refine ⟨hmirrors, hamends, hamends.instances.trans ?_⟩
  rw [Session.disk, hempty]
  rfl

theorem Archiving.mirroring (h : Archiving site session request) : Mirroring site session request := by
  cases request <;> first | exact ⟨h.dataDir, h.unorderedDir, h.catalog⟩ | trivial

/-- A store that is opened over fresh roots knows nothing. -/
theorem history_opens (registry : Registry) (hfresh : site.Fresh disk)
    (hsettings : site.Archives settings) :
    ∃ vault, History registry (Archiving site) (closed disk) [.open settings] (opened vault) ∧
      vault.Mirrors site ∧ vault.settings = settings ∧
      (vault.disk.catalogBelow site.dataBase) = Catalog.empty ∧ ∀ guid, ¬ vault.Knows guid := by
  obtain ⟨hdisk, hempty⟩ := mirrors_fresh hfresh
  have hopen : Yields (Vault.open settings) disk (fun vault _ => vault.Mirrors site ∧
      vault.settings = settings ∧ vault.disk.catalogBelow site.dataBase = Catalog.empty ∧
      ∀ guid, ¬ vault.Knows guid) fun _ _ => False := by
    apply (hdisk.open_yields hfresh.ready hsettings.dataDir hsettings.unorderedDir hsettings.catalog
      Licence.none).mono ?_ fun _ _ => False.elim
    rintro vault - ⟨hvault, hsame, hentities, hbelow, -⟩
    have hblank := hbelow.trans hempty
    refine ⟨hvault, hsame, hblank, fun guid hknows => ?_⟩
    rw [Vault.Knows, Vault.has, hentities, hvault.hasPersisted_iff, hblank] at hknows
    rcases hknows with hhas | hpersisted
    · cases hhas
    · cases hpersisted
  have hstart : History registry (Archiving site) (closed disk) [] (closed disk) := .start
  exact hstart.open_of_yields settings hsettings hopen

/-- A store over fresh roots computes and saves an instance that needs nothing. -/
theorem computes_first {executed : Instance → Prop} {i : Instance} (h : Restorable executed)
    (hfresh : site.Fresh disk) (hsettings : site.Archives settings)
    (hhistory : History Registry.builtin (Archiving site) (closed disk) [.open settings]
      (opened vault))
    (haccepted : Accepted executed i) (hruns : i.Runs executed) (hinputs : i.inputs.values = []) :
    Yields (Executor.execute Registry.builtin i) vault
      (fun outcome after => outcome = .computed ∧
        vault.Amends site (licenceOf [] [(vault, i)]) [i] after) fun _ _ => False := by
  obtain ⟨first, hfirst, hmirrors, hsame, -, hunknown⟩ :=
    history_opens Registry.builtin hfresh hsettings
  cases hhistory.unique hfirst
  have hcached : isCached vault i = false := by
    rw [Bool.eq_false_iff]
    intro hcached
    obtain ⟨⟨output, houtput⟩, hknows⟩ := isCached_iff.1 hcached
    exact hunknown output (hknows output houtput)
  have hexecutes := executes_first h hfresh hsettings hhistory haccepted hruns hinputs
  apply (hexecutes.and (execute_amends Registry.faithful_builtin hmirrors i)).mono ?_
    fun _ _ hfalse => hfalse.1
  rintro (_ | _) after ⟨-, hleaves⟩
  · have hknown : isCached vault i = true := hleaves.1
    rw [hcached] at hknown
    cases hknown
  · have hamends : vault.Amends site _ (if vault.settings.persistOutputs then [i] else []) after :=
      hleaves
    rw [hsame, hsettings.persistOutputs, if_pos rfl] at hamends
    exact ⟨rfl, hamends⟩

end Session

end GraphVault
