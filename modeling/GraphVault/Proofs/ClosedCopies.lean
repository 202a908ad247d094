import GraphVault.Proofs.Availability
import GraphVault.Proofs.FailedExecutions

/-!
# References between complete copies

What an entity refers to is written before the entity itself. So whatever a complete copy below the
data directory refers to is complete as well, at any time and whatever has failed before, as long as
nothing is purged and exchange copies are put elsewhere (`Session.history_closed`).
-/

namespace GraphVault

open Disk EntityDirectory

/-- A copy that refers to nothing but what is complete below a root. -/
structure Stored.Backed (root : String) (disk : Disk) (guid : Guid) (stored : Stored) : Prop where
  filed : stored.manifest.guid = guid
  count : stored.manifest.references.length ≤ 2
  complete : ∀ r ∈ stored.manifest.references.map (·.guid), EntityDirectory.contains disk root r

namespace Disk

variable {root root' : String} {b : Address} {guid r x : Guid} {stored : Stored}
  {disk before between after : Disk}

/-! ### Opening -/

/-- A catalog takes the place of nothing but an empty file. -/
private theorem openCatalog_keepsKinds (path : String) : Moves KeepsKinds (openCatalog path) := by
  intro disk
  have hcreate {address : Address} (hfree : ¬ disk.HasDirectory address) (catalogs : List Catalog)
      (id : Nat) :
      disk.KeepsKinds (({ disk with catalogs }.put address (.database id)).hold id) := by
    have hother {a : Address} (hne : a ≠ address) :
        (({ disk with catalogs }.put address (.database id)).hold id).node? a = disk.node? a :=
      node?_put_of_ne { disk with catalogs } _ hne
    have hpermanent : isPermanent address = false := by
      rw [Bool.eq_false_iff]
      exact fun hpermanent => hfree (if_pos hpermanent)
    constructor
    case directory =>
      intro a hdirectory
      have hne : a ≠ address := fun heq => hfree (heq ▸ hdirectory)
      exact (hother hne).trans hdirectory
    case file =>
      intro a hfile
      by_cases heq : a = address
      · subst heq
        exact ⟨.database id, node?_put_self { disk with catalogs } _ hpermanent, by simp⟩
      · obtain ⟨node, hnode, hne⟩ := hfile
        exact ⟨node, (hother heq).trans hnode, hne⟩
  simp only [openCatalog, yields_bind, yields_get]
  refine yields_ofExcept (fun address _ => ?_) fun _ _ => Std.Refl.refl disk
  cases hnode : disk.node? address with
  | none => exact hcreate (by simp [HasDirectory, hnode]) _ _
  | some node =>
    cases node with
    | directory => exact Std.Refl.refl disk
    | file content =>
      dsimp only
      split
      · exact hcreate (by simp [HasDirectory, hnode]) _ _
      · exact Std.Refl.refl disk
    | database id =>
      dsimp only
      split
      · exact Std.Refl.refl disk
      · exact ⟨fun _ h => h, fun _ h => h⟩

/-- A store is opened without loss. -/
theorem open_keepsKinds (settings : Settings) : Moves KeepsKinds (Vault.open settings) := by
  unfold Vault.open
  split
  · refine .bind (fun disk => ?_) fun _ => .bind (openCatalog_keepsKinds _) fun _ =>
      .bind .get fun _ => .pure _
    rw [yields_adaptExcept]
    exact (moves_createAll _ disk).mono (fun _ _ => KeepsKinds.of_grows)
      fun _ _ => KeepsKinds.of_grows
  · exact .bind .get fun _ => .pure _

/-! ### Closed roots -/

/-- What the complete copies below a root refer to is complete. -/
def ClosedBelow (root : String) (disk : Disk) : Prop :=
  disk.KeptBelow (Stored.Backed root disk) (· = root)

theorem ClosedBelow.of_lists (h : disk.ClosedBelow root) (hlists : disk.Lists root guid r) :
    EntityDirectory.contains disk root r := by
  obtain ⟨stored, hbacked, hr⟩ :=
    KeptBelow.exists_of_lists h (fun _ _ hbacked => hbacked.count) rfl hlists
  exact hbacked.complete r hr

/-- Below a root, what is complete stays so, and goes on to refer to what is complete. -/
structure StaysClosed (root : String) (before after : Disk) : Prop where
  closed : after.ClosedBelow root
  kept : ∀ guid, EntityDirectory.contains before root guid →
    EntityDirectory.contains after root guid

namespace StaysClosed

theorem trans (h : StaysClosed root before between) (h' : StaysClosed root between after) :
    StaysClosed root before after := ⟨h'.closed, fun guid hguid => h'.kept guid (h.kept guid hguid)⟩

/-- Copies refer to what was complete before. -/
theorem of_keptBelow (h : after.KeptBelow (Stored.Backed root disk) (· = root))
    (hkept : ∀ guid, EntityDirectory.contains disk root guid →
      EntityDirectory.contains after root guid) : StaysClosed root disk after := by
  refine ⟨h.mono fun g stored hbacked => ?_, hkept⟩
  exact ⟨hbacked.filed, hbacked.count, fun r hr => hkept r (hbacked.complete r hr)⟩

theorem of_nodes (h : disk.ClosedBelow root) (hnodes : after.nodes = disk.nodes) :
    StaysClosed root disk after := by
  have hstays (a : Address) (node : Node) (hnode : disk.node? a = some node) :
      after.node? a = some node := by
    rw [← hnode, node?, node?, hnodes]
  exact of_keptBelow (KeptBelow.of_nodes h hnodes) fun _ => (KeepsKinds.of_stays hstays).contains

end StaysClosed

/-- Where an entity can be assembled, there is room for its marker. -/
private theorem admissible_marker {address : Address}
    (h : disk.resolve (assembly root guid) = .ok address) :
    Path.Admissible (Path.join (path root guid) marker) := by
  have hstaging : Path.Plain (stagingName guid "-000000") :=
    plain_stagingName guid (by decide) (by decide) (by decide)
  obtain ⟨hnull, hshort⟩ :=
    (Path.admissible_join_iff hstaging).1 ((resolve_join_eq_ok_iff hstaging).1 h).1
  rw [utf8ByteSize_stagingName] at hshort
  have htail : "-000000".utf8ByteSize = 7 := by decide
  have hmarker : marker.utf8ByteSize = 8 := by decide
  have hfront := Path.frontSize_le (path root guid)
  have hpath : (path root guid).utf8ByteSize = Path.frontSize root + 64 := by
    rw [path, Path.size_join guid.plain_text, guid.utf8ByteSize_text]
  refine (Path.admissible_join_iff plain_marker).2 ⟨?_, by omega⟩
  exact fun hmem => hnull ((Path.null_mem_join_iff guid.plain_text root).1 hmem)

/-- Whatever is written below a root that stays in its place is complete. -/
theorem write_contains (havoids : ∀ b, base root = .ok b → Avoids root b) (stored : Stored)
    (disk : Disk) :
    Yields (EntityDirectory.write root stored) disk
      (fun _ after => EntityDirectory.contains after root stored.manifest.guid)
      fun _ _ => True := by
  simp only [EntityDirectory.write, yields_bind, yields_get]
  split
  · assumption
  simp only [yields_bind, yields_adaptExcept, yields_get]
  refine (moves_createAll root disk).mono (fun _ grown _ => ?_) fun _ _ _ => trivial
  refine yields_ofExcept (fun _ hassembly => ?_) fun _ _ => trivial
  refine yields_ofExcept (fun address haddress => ?_) fun _ _ => trivial
  obtain ⟨-, b, hreaches, rfl⟩ := resolve_path_iff.1 (mapError_eq_ok_iff.1 haddress)
  have hagrees := publish_agreesOff grown (b ++ [stored.manifest.guid.text]) stored
  have hafter : EntityDirectory.contains
      (publish grown (b ++ [stored.manifest.guid.text]) stored) root stored.manifest.guid := by
    refine contains_iff.2 ⟨?_, b, ?_, publish_marked grown b stored.manifest.guid stored⟩
    · exact admissible_marker (mapError_eq_ok_iff.1 hassembly)
    · refine hreaches.of_avoids (havoids b hreaches.base_eq) fun a ha hdirectory => ?_
      exact (hagrees a (ha _)).trans hdirectory
  split
  · exact hafter
  · exact hafter
  · trivial

end Disk

-- What these do is known from what they yield, so that they need not be looked into.
attribute [local irreducible] EntityDirectory.write EntityDirectory.contains

namespace Disk

variable {root root' : String} {guid : Guid} {stored : Stored} {disk : Disk}

/-- A copy is written once everything that it refers to is complete. -/
theorem ClosedBelow.write_staysClosed (h : disk.ClosedBelow root)
    (havoids : ∀ b, base root = .ok b → Avoids root b) (hstored : stored.Backed root disk guid) :
    Yields (EntityDirectory.write root stored) disk
      (fun _ after => StaysClosed root disk after ∧ EntityDirectory.contains after root guid)
      fun _ after => StaysClosed root disk after := by
  apply ((KeptBelow.write_yields h root hstored.filed hstored).and
    ((write_keeps havoids stored disk).and (write_contains havoids stored disk))).mono
  · rintro _ after ⟨hbelow, hkept, hcontains⟩
    exact ⟨.of_keptBelow hbelow hkept, hstored.filed ▸ hcontains⟩
  · rintro _ after ⟨hbelow, hkept, -⟩
    exact .of_keptBelow hbelow hkept

/-- Work below another root does not matter. -/
theorem ClosedBelow.write_apart (h : disk.ClosedBelow root)
    (havoids : ∀ b, base root' = .ok b → Avoids root b)
    (hapart : ∀ b, base root = .ok b → base root' ≠ .ok b) (stored : Stored) :
    Yields (EntityDirectory.write root' stored) disk (fun _ after => StaysClosed root disk after)
      fun _ after => StaysClosed root disk after := by
  apply ((EntityDirectory.write_yields root' stored disk).and
    (write_keeps havoids stored disk)).mono
  · rintro _ after ⟨rfl | ⟨grown, b', hgrows, hb', rfl⟩, hkept⟩
    · exact .of_keptBelow h hkept
    · refine .of_keptBelow ?_ hkept
      rintro _ b rfl hb
      have hne : b' ≠ b := fun heq => hapart b hb (heq ▸ hb')
      exact ((h _ b rfl hb).grows hgrows).of_agreesOff_of_ne hne (publish_agreesOff grown _ stored)
        fun _ => publish_flat grown b' stored.manifest.guid stored
  · rintro _ after ⟨⟨-, hgrows⟩, hkept⟩
    exact .of_keptBelow (fun root b hroot hb => (h root b hroot hb).grows hgrows) hkept

end Disk

/-- The way to the data directory leads through no entity directory of either layout, and exchange
copies are put elsewhere. -/
structure Settings.Apart (settings : Settings) : Prop where
  steady : settings.Steady
  elsewhere : ∀ b, base settings.dataDir = .ok b → base settings.unorderedDir ≠ .ok b

/-- Fresh roots lie apart in this sense. -/
theorem Site.Fresh.settings_apart {site : Site} {disk : Disk} {settings : Settings}
    (h : site.Fresh disk) (hdata : settings.dataDir = site.dataDir)
    (hunordered : settings.unorderedDir = site.unorderedDir) : settings.Apart := by
  refine ⟨h.ready.steady hdata hunordered, fun b hb heq => h.apart.ne ?_⟩
  rw [hdata, base, h.data.way.walk_eq, Except.ok.injEq] at hb
  rw [hunordered, base, h.unordered.way.walk_eq, Except.ok.injEq] at heq
  exact hb.trans heq.symm

namespace Vault

variable {start now after vault : Vault} {guid : Guid} {entity : Entity} {stored : Stored}

/-! ### The work of a store -/

/-- A store whose roots lie apart, and in which complete copies refer to what is complete. -/
structure Closed (vault : Vault) : Prop where
  apart : vault.settings.Apart
  below : vault.disk.ClosedBelow vault.settings.dataDir

/-- A store of the same settings, on whose disk what is complete stays so, and goes on to refer to
what is complete. -/
structure StaysClosed (before after : Vault) : Prop where
  settings : after.settings = before.settings
  disk : Disk.StaysClosed before.settings.dataDir before.disk after.disk

/-- Work that a closed store can do. -/
abbrev Pursues {α : Type} (start : Vault) (work : VaultM α) : Prop :=
  Keeps start.StaysClosed (fun _ => True) (fun _ => True) work

namespace StaysClosed

theorem refl (h : vault.Closed) : vault.StaysClosed vault := ⟨rfl, .of_nodes h.below rfl⟩

theorem trans (h : start.StaysClosed now) (h' : now.StaysClosed after) : start.StaysClosed after :=
  ⟨h'.settings.trans h.settings, h.disk.trans (h.settings ▸ h'.disk)⟩

theorem closed (h : start.StaysClosed now) (hstart : start.Closed) : now.Closed :=
  ⟨h.settings ▸ hstart.apart, h.settings ▸ h.disk.closed⟩

theorem hasPersisted (h : start.StaysClosed now) (hguid : start.hasPersisted guid) :
    now.hasPersisted guid := by
  rw [Vault.hasPersisted, h.settings]
  exact h.disk.kept guid hguid

/-- Work in memory and in the catalog does not matter. -/
theorem of_nodes (h : start.StaysClosed now) (hsettings : after.settings = now.settings)
    (hnodes : after.disk.nodes = now.disk.nodes) : start.StaysClosed after :=
  ⟨hsettings.trans h.settings, h.disk.trans (.of_nodes h.disk.closed hnodes)⟩

end StaysClosed

theorem pursues_of_loads {α : Type} {new : Guid → Prop} {work : VaultM α}
    (h : Moves (Loads new) work) : start.Pursues work := by
  constructor
  intro now hnow
  have hloads {after : Vault} (hafter : now.Loads new after) : start.StaysClosed after :=
    hnow.of_nodes hafter.settings (congrArg Disk.nodes hafter.disk)
  exact (h now).mono (fun _ _ hafter => ⟨hloads hafter, trivial⟩) fun _ _ hafter =>
    ⟨hloads hafter, trivial⟩

theorem pursues_modifyCatalog (change : Catalog → Catalog) :
    start.Pursues (modifyCatalog change) := by
  constructor
  intro now hnow
  apply (modifyCatalog_alike change now).mono ?_ fun _ _ hfalse => hfalse.elim
  exact fun _ after hafter => ⟨hnow.of_nodes hafter.settings hafter.nodes, trivial⟩

private theorem loads_resolve (guid : Guid) : Moves (Loads Nothing) (resolve guid) :=
  .bind (loads_getOrLoad guid) fun _ => .ofExcept _

/-! ### Persisting -/

private theorem write_and_record_staysClosed (h : vault.Closed)
    (hstored : stored.Backed vault.settings.dataDir vault.disk guid) (producer : Option Guid) :
    Yields (do
        let path ← write (← get).settings.dataDir stored
        record guid entity producer
        return path) vault
      (fun _ after => vault.StaysClosed after ∧ after.hasPersisted guid)
      fun _ after => vault.StaysClosed after := by
  have havoids := h.apart.steady _ List.mem_cons_self
  simp only [yields_bind, yields_get, write, onDisk_yields_iff, yields_pure]
  apply (h.below.write_staysClosed havoids hstored).mono ?_ fun _ _ hdisk => ⟨rfl, hdisk⟩
  rintro - disk ⟨hdisk, hcontains⟩
  have hwritten : vault.StaysClosed { vault with disk } := ⟨rfl, hdisk⟩
  have hrecord : Pursues { vault with disk } (record guid entity producer) :=
    keeps_record_of_modifyCatalog (fun _ => pursues_modifyCatalog _) producer
  apply (hrecord.yields _ (.refl (hwritten.closed h))).mono
  · exact fun _ _ hafter => ⟨hwritten.trans hafter.1, hafter.1.hasPersisted hcontains⟩
  · exact fun _ _ hafter => hwritten.trans hafter.1

/-- Of an entity in memory and of all that it refers to, there are complete copies afterwards. -/
def PersistsWhole (vault after : Vault) (guid : Guid) : Prop :=
  after.hasPersisted guid ∧ ∃ entity, vault.get? guid = some entity ∧
    ∀ r ∈ entity.references, after.hasPersisted r

/-- What an entity refers to is complete before the entity is written. -/
theorem persistWithin_staysClosed (fuel : Nat) (guid : Guid) (producer : Option Guid)
    (h : vault.Closed) :
    Yields (persistWithin fuel guid producer) vault
      (fun _ after => vault.StaysClosed after ∧ vault.PersistsWhole after guid)
      fun _ after => vault.StaysClosed after := by
  induction fuel generalizing vault guid producer with
  | zero => exact .refl h
  | succ fuel ih =>
    rw [persistWithin, yields_bind]
    cases hentity : vault.get? guid with
    | none =>
      simp only [require, yields_bind, yields_get, hentity, yields_throw]
      exact .refl h
    | some entity =>
      apply (require_of_registered hentity).mono ?_ fun _ _ hfalse => hfalse.elim
      rintro found start ⟨rfl, rfl⟩
      have hround : ∀ r ∈ found.references, ∀ now, start.StaysClosed now →
          Yields (persistReference fuel r) now
            (fun _ after => start.StaysClosed after ∧ after.hasPersisted r ∧
              ∀ x, now.hasPersisted x → after.hasPersisted x)
            fun _ after => start.StaysClosed after := by
        intro r _ now hnow
        rw [persistReference, yields_bind, yields_get]
        split
        · rw [yields_bind]
          apply (ih r none (hnow.closed h)).mono
          · exact fun _ _ hafter =>
              ⟨hnow.trans hafter.1, hafter.2.1, fun _ => hafter.1.hasPersisted⟩
          · exact fun _ _ hafter => hnow.trans hafter
        · rename_i hthere
          exact ⟨hnow, by simpa using hthere, fun _ hx => hx⟩
      rw [yields_bind]
      apply (yields_forM_done hround (.refl h)).mono ?_ fun _ _ hafter => hafter
      rintro - between ⟨hbetween, hreferences⟩
      have hclosed := hbetween.closed h
      rw [yields_bind]
      have hresolve : ∀ r ∈ found.references, between.Pursues (resolve r) := fun r _ =>
        pursues_of_loads (loads_resolve r)
      apply ((Ordered.keeps_encode hresolve guid).yields between (.refl hclosed)).mono ?_
        fun _ _ hafter => hbetween.trans hafter.1
      rintro stored encoded ⟨hencoded, hcopies, -⟩
      have hbacked : stored.Backed encoded.settings.dataDir encoded.disk guid :=
        ⟨hcopies.filed, hcopies.references.1, fun r hr =>
          hencoded.hasPersisted (hreferences r ((hcopies.references.2 r).1 hr))⟩
      have hbefore := hbetween.trans hencoded
      apply (write_and_record_staysClosed (hencoded.closed hclosed) hbacked producer).mono
      · rintro _ after ⟨hafter, hself⟩
        refine ⟨hbefore.trans hafter, hself, found, hentity, fun r hr => ?_⟩
        exact hafter.hasPersisted (hencoded.hasPersisted (hreferences r hr))
      · exact fun _ _ hafter => hbefore.trans hafter

theorem persistFrom_staysClosed (guid : Guid) (producer : Option Guid) (h : vault.Closed) :
    Yields (persistFrom guid producer) vault
      (fun _ after => vault.StaysClosed after ∧ vault.PersistsWhole after guid)
      fun _ after => vault.StaysClosed after := by
  rw [persistFrom, yields_bind, yields_get]
  exact persistWithin_staysClosed _ guid producer h

/-- Work that keeps any closed store closed can follow on other work that does. -/
theorem pursues_of_staysClosed {α : Type} {work : VaultM α} (hstart : start.Closed)
    (h : ∀ vault : Vault, vault.Closed → Yields work vault (fun _ after => vault.StaysClosed after)
      fun _ after => vault.StaysClosed after) : start.Pursues work := by
  constructor
  intro now hnow
  apply (h now (hnow.closed hstart)).mono
  · exact fun _ _ hafter => ⟨hnow.trans hafter, trivial⟩
  · exact fun _ _ hafter => ⟨hnow.trans hafter, trivial⟩

theorem pursues_persistFrom (hstart : start.Closed) (guid : Guid) (producer : Option Guid) :
    start.Pursues (persistFrom guid producer) :=
  pursues_of_staysClosed hstart fun _ h =>
    (persistFrom_staysClosed guid producer h).mono (fun _ _ hafter => hafter.1) fun _ _ h => h

/-! ### Exchange copies and executions -/

theorem pursues_exportUnordered (hstart : start.Closed) (guid : Guid) :
    start.Pursues (exportUnordered guid) := by
  refine (pursues_of_loads (loads_getOrLoad guid)).bind fun entity _ => ?_
  refine (pursues_of_loads (moves_unordered_encode loads_resolve guid entity)).bind ?_
  intro stored _
  refine pursues_of_staysClosed hstart fun vault h => ?_
  have havoids := h.apart.steady _ (List.mem_cons_of_mem _ List.mem_cons_self)
  simp only [yields_bind, yields_get, write, onDisk_yields_iff, yields_pure]
  exact (h.below.write_apart havoids h.apart.elsewhere stored).mono
    (fun _ _ hdisk => ⟨rfl, hdisk⟩) fun _ _ hdisk => ⟨rfl, hdisk⟩

theorem pursues_produce (registry : Registry) (i : Instance) (hstart : start.Closed) :
    start.Pursues (Executor.produce registry i) := by
  refine pursues_of_staysClosed hstart fun vault h => ?_
  have hextends {new : Guid → Prop} {after : Vault} (hafter : vault.Extends Nothing new after) :
      vault.StaysClosed after :=
    (StaysClosed.refl h).of_nodes hafter.settings (congrArg Disk.nodes hafter.disk)
  apply ((Executor.gains_produce registry i vault).yields vault (.refl _ _ vault)).mono
  · exact fun _ _ hafter => hextends hafter.1
  · exact fun _ _ hafter => hextends hafter.1

/-- Outputs are written one after the other, and each along with what it refers to. -/
theorem pursues_execute (registry : Registry) (i : Instance) (hstart : start.Closed) :
    start.Pursues (Executor.execute registry i) := by
  refine Keeps.bind (.ofExcept (fun _ _ => trivial) fun _ _ => trivial) fun _ (_ : True) => ?_
  refine .bind_get fun vault hvault => Keeps.yields ?_ vault hvault
  split
  · exact .pure trivial
  refine (pursues_produce registry i hstart).bind fun outputs _ => ?_
  refine .bind (.forM fun output _ => ?_) fun _ _ =>
    .bind_get fun now hnow => Keeps.yields ?_ now hnow
  · exact (pursues_of_loads (loads_put output.1 output.2)).bind fun _ _ => .pure trivial
  split
  · refine .bind (.bind (.forM fun output _ => ?_) fun _ _ => pursues_modifyCatalog _) fun _ _ =>
      .pure trivial
    exact (pursues_persistFrom hstart output.1 _).bind fun _ _ => .pure trivial
  · exact .pure trivial

theorem pursues_run (registry : Registry) (dag : Dag) (hstart : start.Closed) :
    start.Pursues (Executor.run registry dag) :=
  Executor.keeps_run ⟨fun _ _ => trivial, fun _ => trivial⟩ fun _ i _ =>
    pursues_execute registry i hstart

private theorem pursues_remove (guid : Guid) : start.Pursues (remove guid) :=
  .bind_get fun _ hvault => ⟨hvault.of_nodes rfl rfl, trivial⟩

end Vault

/-! ### Histories -/

/-- A request that purges nothing, and opens a store over no other data directory than a certain one
and where the roots lie apart. -/
def Request.Retains (root : String) : Request → Prop
  | .open settings => settings.dataDir = root ∧ settings.Apart
  | .purge _ => False
  | _ => True

/-- Whatever a closed store is asked for but purging, complete copies go on to refer to what is
complete. -/
theorem Request.pursues_work {request : Request} {root : String} (hrequest : request.Retains root)
    (registry : Registry) {start : Vault} (hstart : start.Closed) :
    start.Pursues (request.work registry) := by
  cases request with
  | «open» settings => exact .pure trivial
  | close => exact .pure trivial
  | get guid => exact .pure trivial
  | put guid entity =>
    exact (Vault.pursues_of_loads (Vault.loads_put guid entity)).bind fun _ _ => .pure trivial
  | remove guid => exact (Vault.pursues_remove guid).bind fun _ _ => .pure trivial
  | purge guid => exact hrequest.elim
  | persist guid => exact (Vault.pursues_persistFrom hstart guid none).bind fun _ _ => .pure trivial
  | load guid =>
    exact (Vault.pursues_of_loads (Vault.loads_load guid)).bind fun _ _ => .pure trivial
  | getOrLoad guid =>
    exact (Vault.pursues_of_loads (Vault.loads_getOrLoad guid)).bind fun _ _ => .pure trivial
  | exportUnordered guid =>
    exact (Vault.pursues_exportUnordered hstart guid).bind fun _ _ => .pure trivial
  | importUnordered guid =>
    exact (Vault.pursues_of_loads (Vault.loads_importUnordered guid)).bind fun _ _ => .pure trivial
  | execute i => exact (Vault.pursues_execute registry i hstart).bind fun _ _ => .pure trivial
  | run dag => exact (Vault.pursues_run registry dag hstart).bind fun _ _ => .pure trivial

namespace Session

variable {registry : Registry} {requests : List Request} {session : Session} {request : Request}
  {root : String} {disk : Disk}

/-- Complete copies below a root refer to what is complete, and a store that is open is one over
this root. -/
private structure ClosedBelow (root : String) (session : Session) : Prop where
  disk : session.disk.ClosedBelow root
  vault : ∀ vault, session = opened vault → vault.settings.dataDir = root ∧ vault.Closed

private theorem closedBelow_opened {vault : Vault} (hroot : vault.settings.dataDir = root)
    (h : vault.Closed) : (opened vault).ClosedBelow root := by
  refine ⟨?_, fun _ heq => ?_⟩
  · have hclose := (Disk.StaysClosed.of_nodes h.below vault.nodes_close).closed
    exact hroot ▸ hclose
  · cases heq
    exact ⟨hroot, h⟩

private theorem closedBelow_closed (h : disk.ClosedBelow root) :
    (closed disk).ClosedBelow root := ⟨h, nofun⟩

private theorem next_closedBelow (h : session.ClosedBelow root) (hrequest : request.Retains root) :
    (session.next registry request).2.ClosedBelow root := by
  apply next_of_cases fun answer => answer.2.ClosedBelow root
  case hopen =>
    rintro settings rfl
    obtain ⟨rfl, hapart⟩ := hrequest
    apply ((KeptBelow.open_yields h.disk settings).and (open_keepsKinds settings session.disk)).mono
    · rintro vault after ⟨⟨hvault, hbelow, -⟩, hkinds⟩
      rw [hvault]
      exact closedBelow_opened rfl
        ⟨hapart, (Disk.StaysClosed.of_keptBelow hbelow fun _ => hkinds.contains).closed⟩
    · rintro failure after ⟨⟨hbelow, -⟩, hkinds⟩
      exact closedBelow_closed (Disk.StaysClosed.of_keptBelow hbelow fun _ => hkinds.contains).closed
  case hclose => exact fun _ => closedBelow_closed h.disk
  case hclosed =>
    rintro disk rfl
    exact h
  case hwork =>
    rintro vault rfl - -
    obtain ⟨hroot, hvault⟩ := h.vault vault rfl
    have hafter {after : Vault} (hafter : vault.StaysClosed after) :
        (opened after).ClosedBelow root :=
      closedBelow_opened (hafter.settings ▸ hroot) (hafter.closed hvault)
    apply ((Request.pursues_work hrequest registry hvault).yields vault (.refl hvault)).mono
    · exact fun _ _ h => hafter h.1
    · exact fun _ _ h => hafter h.1

/-- Whatever stores are opened over a data directory in which no copies are at the start, and
whatever they are asked for but purging, failing requests included: what is listed among the
references of a complete copy is complete, and an entity that has been persisted is complete along
with everything that it refers to. -/
theorem history_closed (hempty : ∀ b guid, base root = .ok b → ¬ Marked b guid disk)
    (h : History registry (fun _ => Request.Retains root) (closed disk) requests session) :
    (∀ guid r, session.disk.Lists root guid r → EntityDirectory.contains session.disk root r) ∧
      ∀ vault, session = opened vault → ∀ guid path after, vault.persist guid = .ok path after →
        after.hasPersisted guid ∧ ∃ entity, vault.get? guid = some entity ∧
          ∀ r ∈ entity.references, after.hasPersisted r := by
  have hclosed : session.ClosedBelow root := by
    apply h.invariant (ClosedBelow root)
    · refine closedBelow_closed ?_
      rintro _ b rfl hb guid hmarked
      exact absurd hmarked (hempty b guid hb)
    · exact fun _ _ => next_closedBelow
  refine ⟨fun guid r hlists => hclosed.disk.of_lists hlists, ?_⟩
  rintro vault rfl guid path after hpersist
  have hwhole := (yields_iff_of_ok hpersist).1
    (Vault.persistFrom_staysClosed guid none (hclosed.vault vault rfl).2)
  exact hwhole.2

/-- A column is persisted, and with it the vertex set that it refers to. -/
theorem history_closed_column :
    let settings : Settings := ⟨"data", "exchange", .reject, false, false⟩
    let cells : Attribute ColumnType.double.Cell := ⟨[⟨1⟩], [true], Guid.filled 1⟩
    let requests : List Request := [.open settings, .put (Guid.filled 1) (.vertexSet ⟨[7]⟩),
      .put (Guid.filled 2) (.column .double cells)]
    ∃ vault after, History Registry.empty (fun _ => Request.Retains "data") (closed Disk.empty)
        requests (opened vault) ∧
      (∃ path, vault.persist (Guid.filled 2) = .ok path after) ∧
      (after.hasPersisted (Guid.filled 2) ∧ ∃ entity, vault.get? (Guid.filled 2) = some entity ∧
        ∀ r ∈ entity.references, after.hasPersisted r) ∧
      after.close.Lists "data" (Guid.filled 2) (Guid.filled 1) ∧
      EntityDirectory.contains after.close "data" (Guid.filled 1) := by
  intro settings cells requests
  have hstart : History Registry.empty (fun _ => Request.Retains "data") (closed Disk.empty) []
    (closed Disk.empty) := .start
  have husable : UsableRoot "data" ["data"] Disk.empty :=
    usableRoot_empty (by decide)
  let vault : Vault := ⟨settings, (SortedMap.empty.insert (Guid.filled 1) (.vertexSet ⟨[7]⟩)).insert
    (Guid.filled 2) (.column .double cells), none, Disk.empty⟩
  have hopen : (Request.open settings).Retains "data" :=
    ⟨rfl, fresh_sample.settings_apart rfl rfl⟩
  have hset : (Request.put (Guid.filled 1) (.vertexSet ⟨[7]⟩)).Retains "data" := trivial
  have hcolumn : (Request.put (Guid.filled 2) (.column .double cells)).Retains "data" := trivial
  have hput : History Registry.empty (fun _ => Request.Retains "data") (closed Disk.empty) requests
    (opened vault) := ((hstart.step hopen).step hset).step hcolumn
  have hpersist := Vault.persist_lists (show vault.settings.dataDir = "data" from rfl) husable
    (show vault.get? (Guid.filled 2) = some (.column .double cells) from rfl)
    (not_marked_empty _ _)
    (show vault.get? cells.vertexSet = some (.vertexSet ⟨[7]⟩) from rfl)
    (not_marked_empty _ _)
  obtain ⟨path, after, hpath, -, -, -, husable', -, hlists⟩ :=
    (hpersist.mono (fun _ _ h => h) fun _ _ hfailed => hfailed rfl).exists_ok
  have hempty (b : Address) (guid : Guid) : base "data" = .ok b → ¬ Marked b guid Disk.empty :=
    fun _ => not_marked_empty b guid
  obtain ⟨_, hafter, rfl⟩ := hput.step_of_yields (.persist (Guid.filled 2)) trivial trivial rfl
    ((yields_iff_of_ok hpath).2 rfl)
  have hclose := Vault.lists_close husable' hlists
  exact ⟨vault, after, hput, ⟨path, hpath⟩,
    (history_closed hempty hput).2 vault rfl _ path after hpath, hclose,
    (history_closed hempty hafter).1 _ _ hclose⟩

end Session

end GraphVault
