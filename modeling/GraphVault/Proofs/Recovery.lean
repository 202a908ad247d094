import GraphVault.Proofs.Recording
import GraphVault.Proofs.Runs

/-!
# What is recorded can be recovered

Stores over roots that were fresh, which save and record what they execute, leave behind a catalog
from which everything can be had again that they ever had, whatever was removed, purged or closed
in between: the recorded instances go together in a graph, a run of it succeeds, and afterwards there
is a complete copy of every output (`Session.history_recoverable`).
-/

namespace GraphVault

open Disk

variable {executed : Instance → Prop} {site : Site} {intact : Prop} {i : Instance} {guid : Guid}
  {listed more done instances : List Instance} {vault start : Vault} {disk : Disk} {dag : Dag}
  {requests : List Request} {request : Request} {session : Session} {registry : Registry}

/-! ### Sessions that keep a ledger -/

namespace Session

/-- The entity that a store has in memory, if one is open. -/
def get? : Session → Guid → Option Entity
  | opened vault, guid => vault.get? guid
  | closed _, _ => none

/-- Requests to stores over the same roots, which save and record what they execute, and are left to
decide what is put and saved. -/
def Archiving (site : Site) (_ : Session) : Request → Prop
  | .open settings => site.Archives settings
  | .put _ _ | .persist _ | .exportUnordered _ | .importUnordered _ => False
  | _ => True

theorem Archiving.managed (h : Archiving site session request) :
    Managed site.dataDir session request := by
  cases request <;> first | exact h.dataDir | exact h.elim | trivial

end Session

/-- A store that keeps a ledger, or a disk that one was left on. -/
def Premise.TracksSession (p : Premise) (intact : Prop) (listed : List Instance) : Session → Prop
  | .opened vault => p.Tracks intact listed vault
  | .closed disk => p.TracksDisk intact listed disk

theorem Premise.TracksSession.tracksDisk {p : Premise} (h : p.TracksSession intact listed session) :
    p.TracksDisk intact listed session.disk := by
  cases session with
  | opened vault => exact Tracks.close h
  | closed disk => exact h

namespace Restorable

variable {h : Restorable executed}

/-- A ledger has grown, and the outputs that are new in it are in memory. -/
structure Grows (h : Restorable executed) (site : Site) (intact : Prop)
    (listed more : List Instance) (session : Session) : Prop where
  kept : ∀ i ∈ listed, i ∈ more
  ledger : Ledger executed more
  tracks : (h.premise site).TracksSession intact more session
  new : ∀ guid, MadeBy more guid → MadeBy listed guid ∨ ∃ entity, session.get? guid = some entity

theorem grows_self (hledger : Ledger executed listed)
    (htracks : (h.premise site).TracksSession intact listed session) :
    h.Grows site intact listed listed session :=
  ⟨fun _ hi => hi, hledger, htracks, fun _ hguid => .inl hguid⟩

private theorem Grows.retained {after : Vault} (hgrows : h.Grows site intact listed more (.opened vault))
    (hretains : vault.Retains after) (htracks : (h.premise site).Tracks intact more after) :
    h.Grows site intact listed more (.opened after) := by
  refine ⟨hgrows.kept, hgrows.ledger, htracks, fun guid hguid => (hgrows.new guid hguid).imp_right ?_⟩
  exact fun hheld => Vault.has_iff.1 (hretains.has guid (Vault.has_iff.2 hheld))

/-- Whether it succeeds or not, the execution of an instance lets the ledger grow. -/
theorem Grows.execute_yields (hgrows : h.Grows site intact listed more (.opened vault))
    (hi : executed i) :
    Yields (Executor.execute Registry.builtin i) vault
      (fun _ after => ∃ more, h.Grows site intact listed more (.opened after))
      fun _ after => ∃ more, h.Grows site intact listed more (.opened after) := by
  apply (Restorable.execute_yields hgrows.ledger hi hgrows.tracks).mono
  · rintro outcome after ⟨hretains, -, ⟨-, rfl⟩ | ⟨-, hadds⟩⟩
    · exact ⟨more, hgrows⟩
    · refine ⟨more ++ [i], fun j hj => List.mem_append_left _ (hgrows.kept j hj), hadds.ledger,
        hadds.tracks, ?_⟩
      rintro guid ⟨j, hj, hguid⟩
      rcases List.mem_append.1 hj with hj | hj
      · refine (hgrows.new guid ⟨j, hj, hguid⟩).imp_right fun hheld => ?_
        exact Vault.has_iff.1 (hretains.has guid (Vault.has_iff.2 hheld))
      · rw [List.mem_singleton.1 hj] at hguid
        exact .inr (Vault.has_iff.1 (hadds.has guid hguid))
  · rintro _ after ⟨hretains, hafter, -⟩
    exact ⟨more, hgrows.retained hretains hafter⟩

private theorem work_yields (hledger : Ledger executed listed)
    (htracks : (h.premise site).Tracks intact listed vault)
    (hallowed : Session.Archiving site (.opened vault) request)
    (hintact : intact → ∀ guid, request ≠ .purge guid)
    (hexecutes : ∀ i, request.Executes vault i → executed i) :
    Yields (request.work Registry.builtin) vault
      (fun _ after => ∃ more, h.Grows site intact listed more (.opened after))
      fun _ after => ∃ more, h.Grows site intact listed more (.opened after) := by
  have hself {after : Vault} (hafter : (h.premise site).Tracks intact listed after) :
      ∃ more, h.Grows site intact listed more (.opened after) :=
    ⟨listed, grows_self hledger hafter⟩
  have hsame {α : Type} {work : VaultM α}
      (hwork : Yields work vault (fun _ after => (h.premise site).Tracks intact listed after)
        fun _ after => (h.premise site).Tracks intact listed after) :
      Yields (do let _ ← work) vault
        (fun _ after => ∃ more, h.Grows site intact listed more (.opened after))
        fun _ after => ∃ more, h.Grows site intact listed more (.opened after) := by
    rw [yields_bind]
    exact hwork.mono (fun _ _ hafter => hself hafter) fun _ _ hafter => hself hafter
  cases request with
  | «open» settings => exact hself htracks
  | close => exact hself htracks
  | get guid => exact hself htracks
  | put guid entity => exact hallowed.elim
  | remove guid => exact hsame ((htracks.remove_yields guid).mono (fun _ _ h => h) fun _ _ => False.elim)
  | purge guid =>
    have hlost : ¬ intact := fun hkept => hintact hkept guid rfl
    exact hsame ((htracks.purge_yields hlost guid).mono (fun _ _ h => h) fun _ _ => False.elim)
  | persist guid => exact hallowed.elim
  | load guid =>
    exact hsame (htracks.load_yields (Vault.keeps_load _ guid) (Vault.loads_load guid))
  | getOrLoad guid =>
    exact hsame (htracks.load_yields (Vault.keeps_getOrLoad _ guid) (Vault.loads_getOrLoad guid))
  | exportUnordered guid => exact hallowed.elim
  | importUnordered guid => exact hallowed.elim
  | execute i =>
    have hgrows : h.Grows site intact listed listed (.opened vault) := grows_self hledger htracks
    rw [Request.work, yields_bind]
    exact hgrows.execute_yields (hexecutes i rfl)
  | run dag =>
    have hfrail : Executor.Frail fun _ => True := ⟨fun _ _ => trivial, fun _ => trivial⟩
    have hsustains : ∀ waves, dag.waves = .ok waves → ∀ i, Executor.Reached vault waves i →
        Executor.Sustains Registry.builtin
          (fun now => ∃ more, h.Grows site intact listed more (.opened now)) (fun _ => True) i := by
      intro waves hwaves i hi
      constructor
      rintro now ⟨more, hgrows⟩
      have hyields := hgrows.execute_yields (hexecutes i ⟨waves, hwaves, hi⟩)
      exact hyields.mono (fun _ _ hafter => ⟨hafter, trivial⟩) fun _ _ hafter => ⟨hafter, trivial⟩
    rw [Request.work, yields_bind]
    have hrun := Executor.run_yields hfrail (hself htracks) hsustains
    exact hrun.mono (fun _ _ hafter => hafter) fun _ _ hafter => hafter.1

/-- Every request lets the ledger grow. -/
theorem next_grows (hledger : Ledger executed listed)
    (htracks : (h.premise site).TracksSession intact listed session)
    (hallowed : Session.Archiving site session request)
    (hintact : intact → ∀ guid, request ≠ .purge guid)
    (hexecutes : ∀ vault, session = .opened vault → ∀ i, request.Executes vault i → executed i) :
    ∃ more, h.Grows site intact listed more (session.next Registry.builtin request).2 := by
  apply Session.next_of_cases (fun answer => ∃ more, h.Grows site intact listed more answer.2)
  · rintro settings rfl
    apply (htracks.tracksDisk.open_yields hallowed).mono ?_ fun _ _ => False.elim
    rintro vault - ⟨hvault, -⟩
    exact ⟨listed, grows_self hledger hvault⟩
  · rintro -
    exact ⟨listed, grows_self hledger htracks.tracksDisk⟩
  · rintro disk rfl
    exact ⟨listed, grows_self hledger htracks⟩
  · rintro vault rfl - -
    exact work_yields hledger htracks hallowed hintact (hexecutes vault rfl)

end Restorable

/-! ### Histories -/

namespace Session

/-- Some store had an entity in memory in the course of requests. -/
def Held (site : Site) (disk : Disk) (requests : List Request) (guid : Guid) (entity : Entity) :
    Prop :=
  ∃ before after session, requests = before ++ after ∧
    History Registry.builtin (Archiving site) (closed disk) before session ∧
    session.get? guid = some entity

theorem held_append_iff {entity : Entity}
    (h : History Registry.builtin (Archiving site) (closed disk) (requests ++ [request]) session) :
    Held site disk (requests ++ [request]) guid entity ↔
      Held site disk requests guid entity ∨ session.get? guid = some entity := by
  constructor
  · rintro ⟨before, after, earlier, hsplit, hbefore, hget⟩
    rcases List.eq_nil_or_concat after with rfl | ⟨rest, last, rfl⟩
    · rw [List.append_nil] at hsplit
      subst hsplit
      exact .inr (hbefore.unique h ▸ hget)
    · rw [List.concat_eq_append, ← List.append_assoc] at hsplit
      obtain ⟨rfl, -⟩ := List.append_inj' hsplit rfl
      exact .inl ⟨before, rest, earlier, rfl, hbefore, hget⟩
  · rintro (⟨before, after, earlier, rfl, hbefore, hget⟩ | hget)
    · exact ⟨before, after ++ [request], earlier, by simp, hbefore, hget⟩
    · exact ⟨_, [], session, by simp, h, hget⟩

end Session

/-- A ledger is one of all that was in memory. -/
structure Chronicles (executed : Instance → Prop) (held : Guid → Entity → Prop)
    (listed : List Instance) : Prop where
  sound : ∀ guid entity, held guid entity →
    MadeBy listed guid ∧ (meaning executed).Means guid entity
  complete : ∀ guid, MadeBy listed guid → ∃ entity, held guid entity

namespace Restorable

variable {h : Restorable executed}

private theorem Grows.chronicles
    (hgrows : h.Grows site intact listed more session)
    (hbefore : Chronicles executed (Session.Held site disk requests) listed)
    (hhistory : Session.History Registry.builtin (Session.Archiving site) (.closed disk)
      (requests ++ [request]) session) :
    Chronicles executed (Session.Held site disk (requests ++ [request])) more := by
  constructor
  · intro guid entity hheld
    rcases (Session.held_append_iff hhistory).1 hheld with hheld | hget
    · obtain ⟨hmade, hmeans⟩ := hbefore.sound guid entity hheld
      exact ⟨hmade.mono hgrows.kept, hmeans⟩
    · cases session with
      | closed disk => cases hget
      | opened vault =>
        have htracks : (h.premise site).Tracks intact more vault := hgrows.tracks
        exact ⟨htracks.madeBy (.inl (Vault.has_iff.2 ⟨entity, hget⟩)),
          htracks.sound.memory guid entity hget⟩
  · intro guid hmade
    simp only [Session.held_append_iff hhistory, exists_or]
    exact (hgrows.new guid hmade).imp_left (hbefore.complete guid)

/-- Stores keep a ledger of all that they have in memory. -/
theorem history_tracked (h : Restorable executed) (hfresh : site.Fresh disk)
    (hhistory : Session.History Registry.builtin (Session.Archiving site) (.closed disk) requests
      session)
    (hexecuted : ∀ i, Session.Executed site.dataDir disk requests i → executed i)
    (hintact : intact → ∀ guid, .purge guid ∉ requests) :
    ∃ listed, Ledger executed listed ∧ (h.premise site).TracksSession intact listed session ∧
      Chronicles executed (Session.Held site disk requests) listed := by
  induction hhistory with
  | start =>
    refine ⟨[], ledger_nil, Premise.tracksDisk_fresh trivial hfresh, ⟨?_, ?_⟩⟩
    · rintro guid entity ⟨before, after, earlier, hsplit, hbefore, hget⟩
      obtain ⟨rfl, -⟩ := List.append_eq_nil_iff.1 hsplit.symm
      have hstart := hbefore.eq_foldl
      subst hstart
      cases hget
    · rintro guid ⟨i, hi, -⟩
      cases hi
  | @step before session request hbefore hallowed ih =>
    obtain ⟨listed, hledger, htracks, hchronicles⟩ := ih
      (fun i hi => hexecuted i (hi.append [request]))
      fun hkept guid hmem => hintact hkept guid (List.mem_append_left _ hmem)
    have hpurge : intact → ∀ guid, request ≠ .purge guid := by
      rintro hkept guid rfl
      exact hintact hkept guid (List.mem_append_right _ (List.mem_singleton_self _))
    have hexecutes : ∀ vault, session = .opened vault → ∀ i, request.Executes vault i →
        executed i := by
      rintro vault rfl i hi
      have hrun := hbefore.mono fun _ _ hallowed => Session.Archiving.managed hallowed
      exact hexecuted i ⟨before, vault, request, [], rfl, hrun, hi⟩
    obtain ⟨more, hgrows⟩ := next_grows hledger htracks hallowed hpurge hexecutes
    exact ⟨more, hgrows.ledger, hgrows.tracks, hgrows.chronicles hchronicles (hbefore.step hallowed)⟩

/-! ### Running what is recorded again -/

/-- Some instances of a ledger have been run again. There are copies of their outputs, and of all
that there were copies of before. -/
structure Rerun (h : Restorable executed) (site : Site) (intact : Prop) (listed : List Instance)
    (start : Vault) (done : List Instance) (vault : Vault) : Prop where
  ledger : Ledger executed done
  tracks : (h.premise site).Tracks intact listed vault
  outputs : ∀ guid, MadeBy done guid → vault.hasPersisted guid
  kept : ∀ guid, start.hasPersisted guid → vault.hasPersisted guid

/-- What an instance needs is there once its inputs are made again. -/
private theorem Rerun.supplies (hrerun : h.Rerun site intact listed start done vault)
    (hledger : Ledger executed listed) (hi : i ∈ listed)
    (hinputs : ∀ input ∈ i.inputs.values, MadeBy done input) : h.Supplies site vault i := by
  refine ⟨hledger.accepted i hi, hledger.runs i hi, fun input hinput => ?_⟩
  obtain ⟨entity, hentity⟩ := hrerun.ledger.denotes h.toUnambiguous (hinputs input hinput)
  have hreferences := hrerun.ledger.references h.toUnambiguous hentity (hinputs input hinput)
  refine ⟨entity, (meaning_eq_some_iff h.toUnambiguous).2 hentity, fun x hx => .inr ?_⟩
  cases List.mem_cons.1 hx with
  | inl heq => exact hrerun.outputs x (heq ▸ hinputs input hinput)
  | inr hr => exact hrerun.outputs x (hreferences x hr)

private theorem progresses_rerun (hledger : Ledger executed listed) :
    Executor.Progresses Registry.builtin listed (h.Rerun site intact listed start)
      (fun i outcome => (∀ output ∈ i.outputs.values, start.hasPersisted output) →
        outcome = .cached)
      fun _ => False := by
  refine ⟨nofun, fun {done i vault} hi _ hready hrerun => ?_⟩
  have hinputs : ∀ input ∈ i.inputs.values, MadeBy done input := by
    intro input hinput
    obtain ⟨j, hj, hmem⟩ := hledger.backward.exists_producer hi hinput
    exact ⟨j, hready j hj ⟨input, hinput, hmem⟩, hmem⟩
  have haccepted := hledger.accepted i hi
  have hdone := hrerun.ledger.append haccepted (hledger.runs i hi) hinputs
  have hlisted : ∀ j, j ∈ listed ↔ j ∈ listed ++ [i] := by
    intro j
    rw [List.mem_append, List.mem_singleton]
    exact ⟨.inl, fun hj => hj.elim id fun heq => heq ▸ hi⟩
  apply (execute_yields hledger haccepted.executed hrerun.tracks).mono
  · rintro outcome after ⟨hretains, hpersisted, hcases⟩
    have htracks : (h.premise site).Tracks intact listed after := by
      rcases hcases with ⟨-, rfl⟩ | ⟨-, hadds⟩
      · exact hrerun.tracks
      · exact hadds.tracks.of_mem_iff hlisted
    refine ⟨⟨hdone, htracks, ?_, fun guid hguid => hretains.hasPersisted guid (hrerun.kept guid hguid)⟩,
      fun hstart => ?_⟩
    · rintro guid ⟨j, hj, hguid⟩
      rcases List.mem_append.1 hj with hj | hj
      · exact hretains.hasPersisted guid (hrerun.outputs guid ⟨j, hj, hguid⟩)
      · rw [List.mem_singleton.1 hj] at hguid
        exact hpersisted guid hguid
    · rcases hcases with ⟨hcached, -⟩ | ⟨⟨output, houtput, hlost⟩, -⟩
      · exact hcached
      · exact absurd (hrerun.kept output (hstart output houtput)) hlost
  · rintro _ after ⟨-, -, hunsupplied⟩
    exact absurd (hrerun.supplies hledger hi hinputs) hunsupplied

/-- A run of the recorded instances succeeds, and makes whatever is missing of their outputs. -/
theorem rerun_yields (hledger : Ledger executed listed)
    (htracks : (h.premise site).Tracks intact listed start) (hdag : dag.Comprises listed) :
    Yields (Executor.run Registry.builtin dag) start
      (fun report after => report.Covers listed (fun i outcome =>
          (∀ output ∈ i.outputs.values, start.hasPersisted output) → outcome = .cached) ∧
        (h.premise site).Tracks intact listed after ∧
        ∀ guid, MadeBy listed guid → after.hasPersisted guid)
      fun _ _ => False := by
  have hstart : h.Rerun site intact listed start [] start := by
    refine ⟨ledger_nil, htracks, ?_, fun _ hguid => hguid⟩
    rintro guid ⟨i, hi, -⟩
    cases hi
  apply ((progresses_rerun hledger).run_yields hdag hledger.backward hstart).mono ?_
    fun _ _ => False.elim
  rintro report after ⟨hcovers, done, hall, hrerun⟩
  exact ⟨hcovers, hrerun.tracks, fun guid hguid => hrerun.outputs guid (hguid.mono hall)⟩

/-- What a store has a copy of that belongs to a ledger is there for a store that is opened next. -/
private theorem refetched {settings : Settings} (hledger : Ledger executed listed)
    (htracks : (h.premise site).Tracks intact listed vault)
    (hpersisted : ∀ guid, MadeBy listed guid → vault.hasPersisted guid)
    (hsettings : site.Archives settings) :
    ∃ next opened, Vault.open settings vault.close = .ok next opened ∧
      ∀ guid, MadeBy listed guid → ∃ found after, Vault.getOrLoad guid next = .ok found after ∧
        (meaning executed).Means guid found := by
  obtain ⟨next, opened, hopen, hnext, -, hcopies⟩ := (htracks.close.open_yields hsettings).exists_ok
  have hknows {guid : Guid} (hguid : MadeBy listed guid) : next.Knows guid := by
    refine .inr (hcopies guid ?_)
    have hcontains := hpersisted guid hguid
    rw [Vault.hasPersisted, htracks.sound.dataDir] at hcontains
    exact (spares_of_nodes (b := site.dataBase) vault.nodes_close).contains htracks.usable hcontains
  refine ⟨next, opened, hopen, fun guid hguid => ?_⟩
  obtain ⟨entity, hentity⟩ := hledger.denotes h.toUnambiguous hguid
  have hreferences := hledger.references h.toUnambiguous hentity hguid
  have havailable : (h.premise site).Available next guid := by
    refine ⟨entity, (meaning_eq_some_iff h.toUnambiguous).2 hentity, fun x hx => ?_⟩
    cases List.mem_cons.1 hx with
    | inl heq => exact hknows (heq ▸ hguid)
    | inr hr => exact hknows (hreferences x hr)
  have hfinds := hnext.sound.getOrLoad_finds trivial havailable
  have hmeans := (Vault.keeps_getOrLoad (h.premise site) guid).yields next hnext.sound
  obtain ⟨found, after, hfound, -, -, hmeans⟩ := (hfinds.and hmeans).mono
    (fun _ _ hafter => hafter) (fun _ _ hfalse => hfalse.1) |>.exists_ok
  exact ⟨found, after, hfound, hmeans⟩

/-- The instances that a store has recorded are read from its catalog, and go together. -/
private theorem listed_again (hledger : Ledger executed listed)
    (htracks : (h.premise site).Tracks intact listed vault) :
    ∃ catalog instances dag, vault.records? = some catalog ∧
      catalog.listInstances = .ok instances ∧ (∀ i, i ∈ instances ↔ i ∈ listed) ∧
      Dag.ofList instances = .ok dag ∧ dag.Comprises instances := by
  obtain ⟨id, hid, hrecords⟩ := htracks.records
  have hrestores : ∀ i ∈ listed, Instance.codec.Restores i := by
    intro i hi
    have hsize := (hledger.runs i hi).size_le
    exact Instance.restores_codec (h.measured i (hledger.accepted i hi).executed) (by omega)
  obtain ⟨instances, hinstances, hmem⟩ := hrecords.lists.exists_listInstances hrestores
  have hcompatible := (hledger.compatible h.toUnambiguous).of_mem_iff hmem
  obtain ⟨dag, hdag, hcomprises⟩ := hcompatible.exists_ofList
  refine ⟨_, instances, dag, ?_, hinstances, hmem, hdag, hcomprises⟩
  rw [Vault.records?, hid, Option.map_some]

end Restorable

namespace Session

/-- Stores over fresh roots save and record what they execute, while entities are also removed,
purged and loaded, and stores closed and opened again. A store that is opened then finds a catalog
whose instances go together in a graph; they are those that have made all that any store had in
memory. A run of this graph succeeds, without executing anything again if nothing was purged.
Afterwards there is a complete copy of every output of the instances, from which the next store loads
what its guid denotes, which is also what stores had in memory when it was computed. -/
theorem history_recoverable {settings : Settings} (hfresh : site.Fresh disk)
    (hhistory : History Registry.builtin (Archiving site) (closed disk) requests session)
    (hmeasured : ∀ i, Executed site.dataDir disk requests i → i.Measured)
    (hcollisionFree : CollisionFree (Executed site.dataDir disk requests))
    (hrows : ∀ guid stored,
      (meaning (Executed site.dataDir disk requests)).copy guid = some stored →
        stored.rows.length ≤ 2 * 1024 ^ 3)
    (hsettings : site.Archives settings) :
    ∃ vault opened catalog instances dag, Vault.open settings session.disk = .ok vault opened ∧
      vault.records? = some catalog ∧ catalog.listInstances = .ok instances ∧
      Dag.ofList instances = .ok dag ∧ dag.Comprises instances ∧
      (∀ i ∈ instances, Executed site.dataDir disk requests i) ∧
      (∀ guid, MadeBy instances guid ↔ ∃ entity, Held site disk requests guid entity) ∧
      ∃ report after, Executor.run Registry.builtin dag vault = .ok report after ∧
        report.Covers instances
          (fun _ outcome => (∀ guid, .purge guid ∉ requests) → outcome = .cached) ∧
        ∃ next between, Vault.open settings after.close = .ok next between ∧
          ∀ guid, MadeBy instances guid →
            EntityDirectory.contains after.disk settings.dataDir guid ∧
            ∃ found last, Vault.getOrLoad guid next = .ok found last ∧
              Computed (Executed site.dataDir disk requests) guid found ∧
              ∀ entity, Held site disk requests guid entity → entity.sameContent found := by
  have h : Restorable (Executed site.dataDir disk requests) := ⟨⟨hmeasured, hcollisionFree⟩, hrows⟩
  have hintact : (∀ guid, .purge guid ∉ requests) → ∀ guid, .purge guid ∉ requests := id
  obtain ⟨listed, hledger, htracks, hchronicles⟩ :=
    h.history_tracked hfresh hhistory (fun _ hi => hi) hintact
  obtain ⟨vault, opened, hopen, hvault, -, -⟩ :=
    (htracks.tracksDisk.open_yields hsettings).exists_ok
  obtain ⟨catalog, instances, dag, hrecords, hinstances, hmem, hdag, hcomprises⟩ :=
    Restorable.listed_again hledger hvault
  have hmade (guid : Guid) : MadeBy instances guid ↔ MadeBy listed guid :=
    ⟨fun hguid => hguid.mono fun i hi => (hmem i).1 hi,
      fun hguid => hguid.mono fun i hi => (hmem i).2 hi⟩
  obtain ⟨report, after, hrun, hcovers, hafter, hpersisted⟩ := (Restorable.rerun_yields hledger
    hvault (hcomprises.of_mem_iff fun i => (hmem i).symm)).exists_ok
  obtain ⟨next, between, hreopen, hfetched⟩ :=
    Restorable.refetched hledger hafter hpersisted hsettings
  refine ⟨vault, opened, catalog, instances, dag, hopen, hrecords, hinstances, hdag, hcomprises,
    fun i hi => (hledger.accepted i ((hmem i).1 hi)).executed, fun guid => ?_, report, after, hrun,
    ?_, next, between, hreopen, fun guid hguid => ?_⟩
  · rw [hmade]
    exact ⟨hchronicles.complete guid, fun hheld =>
      (hchronicles.sound guid hheld.choose hheld.choose_spec).1⟩
  · refine hcovers.mono hmem fun i hi outcome houtcome hintact => houtcome ?_
    exact fun output houtput => hvault.complete hintact output ⟨i, hi, houtput⟩
  · rw [hmade] at hguid
    obtain ⟨found, last, hfound, hmeans⟩ := hfetched guid hguid
    have hcontains := hpersisted guid hguid
    rw [Vault.hasPersisted, hafter.sound.dataDir] at hcontains
    rw [hsettings.dataDir]
    refine ⟨hcontains, found, last, hfound, computed_of_means h.toUnambiguous hmeans,
      fun entity hheld => ?_⟩
    exact (hchronicles.sound guid entity hheld).2.sameContent hmeans

/-! ### The example graph is recovered -/

private theorem rows_examplePart {slot : String} {entity : Entity}
    {resolve : Guid → Except Failure VertexSet} {stored : Stored}
    (hpart : (slot, entity) ∈ exampleParts exampleVertices)
    (hencode : Ordered.encode guid entity resolve = .ok stored) :
    stored.rows.length ≤ 2 * 1024 ^ 3 := by
  simp only [exampleParts, Operation.exampleColumns, List.mem_cons, List.not_mem_nil, or_false,
    Prod.mk.injEq] at hpart
  obtain ⟨-, rfl⟩ | ⟨-, rfl⟩ | ⟨-, rfl⟩ | ⟨-, rfl⟩ | ⟨-, rfl⟩ | ⟨-, rfl⟩ | ⟨-, rfl⟩ := hpart
  case inr.inl =>
    simp only [Ordered.encode, bind_eq_ok_iff] at hencode
    obtain ⟨_, -, _, -, hencode⟩ := hencode
    cases hencode
    dsimp only
    decide +kernel
  all_goals
    cases hencode
    dsimp only
    decide +kernel

theorem restorable_example :
    Restorable (Executed "data" Disk.empty exampleRequests) := by
  refine ⟨unambiguous_example, fun guid stored hcopy => ?_⟩
  obtain ⟨entity, hentity, hencode⟩ := Assignment.exists_of_copy hcopy
  have hdenotes := (meaning_eq_some_iff unambiguous_example).1 hentity
  cases hdenotes with
  | exampleGraph hi hclass hvertices hpart hslot =>
    obtain rfl := executed_example hi.executed
    rw [vertices_exampleInstance, Option.some.injEq] at hvertices
    subst hvertices
    exact rows_examplePart hpart hencode
  | @constantColumn i type value input guid set hi hclass hvalue hinput hset hslot =>
    obtain rfl := executed_example hi.executed
    cases type <;> exact absurd hclass (by decide)
  | reverseEdges hi hclass hinput hbundle hslot =>
    obtain rfl := executed_example hi.executed
    exact absurd hclass (by decide)

theorem runs_exampleInstance (executed : Instance → Prop) :
    exampleInstance.Runs executed := by
  have hok : ((Registry.builtin.run exampleInstance.description
      (Context.start exampleInstance SortedMap.empty)).bind Context.outputs).isOk := by
    decide +kernel
  cases houtputs : (Registry.builtin.run exampleInstance.description
      (Context.start exampleInstance SortedMap.empty)).bind Context.outputs with
  | error failure =>
    rw [houtputs] at hok
    cases hok
  | ok outputs =>
    obtain ⟨context, hrun, hcontext⟩ := bind_eq_ok_iff.1 houtputs
    refine ⟨SortedMap.empty, outputs, ⟨?_, ?_⟩, context, hrun, hcontext⟩
    · intro slot guid entity hget
      simp at hget
    · intro slot guid hslot
      simp [exampleInstance] at hslot

theorem archives_example : sampleSite.Archives exampleSettings := ⟨rfl, rfl, rfl, rfl⟩

/-- A store over fresh roots executes an instance that needs nothing, and has its outputs. -/
theorem executes_first {settings : Settings} (h : Restorable executed) (hfresh : site.Fresh disk)
    (hsettings : site.Archives settings)
    (hhistory : History Registry.builtin (Archiving site) (closed disk) [.open settings]
      (opened vault))
    (haccepted : Accepted executed i) (hruns : i.Runs executed) (hinputs : i.inputs.values = []) :
    Yields (Executor.execute Registry.builtin i) vault
      (fun _ after => ∀ output ∈ i.outputs.values, after.has output) fun _ _ => False := by
  have hdisk : (h.premise site).TracksDisk True [] disk := Premise.tracksDisk_fresh trivial hfresh
  have hopen : Yields (Vault.open settings) disk
      (fun vault _ => (h.premise site).Tracks True [] vault) fun _ _ => False := by
    apply (hdisk.open_yields hsettings).mono ?_ fun _ _ => False.elim
    rintro vault - ⟨hvault, -⟩
    exact hvault
  have hstart : History Registry.builtin (Archiving site) (closed disk) [] (closed disk) := .start
  obtain ⟨first, hfirst, htracks⟩ := hstart.open_of_yields settings hsettings hopen
  cases hhistory.unique hfirst
  apply (Restorable.execute_yields ledger_nil haccepted.executed htracks).mono
  · rintro outcome after ⟨-, hpersisted, ⟨-, rfl⟩ | ⟨-, hadds⟩⟩
    · intro output houtput
      obtain ⟨j, hj, -⟩ := htracks.madeBy (.inr (hpersisted output houtput))
      cases hj
    · exact hadds.has
  · rintro _ after ⟨-, -, hunsupplied⟩
    refine hunsupplied ⟨haccepted, hruns, fun input hinput => ?_⟩
    rw [hinputs] at hinput
    cases hinput

private theorem history_first {settings : Settings} {output : Guid} (h : Restorable executed)
    (hfresh : site.Fresh disk) (hsettings : site.Archives settings) (hruns : i.Runs executed)
    (hi : ∀ vault, History Registry.builtin (Archiving site) (closed disk) [.open settings]
      (opened vault) → Accepted executed i)
    (hinputs : i.inputs.values = []) (houtput : output ∈ i.outputs.values) :
    ∃ vault, History Registry.builtin (Archiving site) (closed disk) [.open settings, .execute i]
      (opened vault) ∧ vault.has output := by
  have hopen : Yields (Vault.open settings) disk (fun _ _ => True) fun _ _ => False :=
    (hfresh.ready.open_yields hsettings.dataDir).mono (fun _ _ _ => trivial) fun _ _ => False.elim
  have hstart : History Registry.builtin (Archiving site) (closed disk) [] (closed disk) := .start
  obtain ⟨vault, hhistory, -⟩ := hstart.open_of_yields settings hsettings hopen
  have hexecute : Yields (Executor.execute Registry.builtin i) vault
      (fun _ after => after.has output) fun _ _ => False :=
    (executes_first h hfresh hsettings hhistory (hi vault hhistory) hruns hinputs).mono
      (fun _ _ hafter => hafter output houtput) fun _ _ => False.elim
  exact hhistory.step_of_yields (.execute i) trivial trivial rfl hexecute

theorem accepted_example {vault : Vault}
    (h : History Registry.builtin (Archiving sampleSite) (closed Disk.empty) [exampleOpening]
      (opened vault)) :
    Accepted (Executed "data" Disk.empty exampleRequests) exampleInstance := by
  have hrun := h.mono fun _ _ hallowed => Archiving.managed hallowed
  exact ⟨⟨[exampleOpening], vault, .execute exampleInstance, [], rfl, hrun, rfl⟩,
    verify_exampleInstance⟩

/-- A store over fresh roots executes and records the example graph. -/
private theorem history_example :
    ∃ vault, History Registry.builtin (Archiving sampleSite) (closed Disk.empty) exampleRequests
      (opened vault) ∧ vault.has exampleVertices :=
  history_first restorable_example fresh_sample archives_example (runs_exampleInstance _)
    (fun _ hhistory => accepted_example hhistory) rfl
    (Instance.mem_values_of_get? vertices_exampleInstance)

theorem history_recoverable_exampleGraph :
    ∃ session, History Registry.builtin (Archiving sampleSite) (closed Disk.empty) exampleRequests
        session ∧
      ∃ vault opened catalog instances dag,
        Vault.open exampleSettings session.disk = .ok vault opened ∧
        vault.records? = some catalog ∧ catalog.listInstances = .ok instances ∧
        Dag.ofList instances = .ok dag ∧ exampleInstance ∈ instances ∧
        ∃ report after, Executor.run Registry.builtin dag vault = .ok report after ∧
          report.outcomes.get? exampleInstance.guid = some .cached ∧
          ∃ next between last,
            Vault.open exampleSettings after.close = .ok next between ∧
            Vault.getOrLoad exampleVertices next = .ok (.vertexSet ⟨[0, 1, 2, 3]⟩) last := by
  obtain ⟨vault, hhistory, hhas⟩ := history_example
  obtain ⟨held, hheld⟩ := Vault.has_iff.1 hhas
  obtain ⟨vault', opened, catalog, instances, dag, hopen, hrecords, hinstances, hdag, -, hexecuted,
    hmade, report, after, hrun, hcovers, next, between, hreopen, hfetched⟩ :=
    history_recoverable fresh_sample hhistory restorable_example.measured
      restorable_example.collisionFree restorable_example.rows archives_example
  have hvertices : MadeBy instances exampleVertices :=
    (hmade _).2 ⟨held, exampleRequests, [], _, rfl, hhistory, hheld⟩
  obtain ⟨i, hi, -⟩ := id hvertices
  obtain rfl := executed_example (hexecuted i hi)
  obtain ⟨outcome, houtcome, hcached⟩ := hcovers.complete exampleInstance hi
  have hpurge : ∀ guid, Request.purge guid ∉ exampleRequests := by
    intro guid hmem
    simp [exampleRequests, exampleOpening] at hmem
  rw [hcached hpurge] at houtcome
  obtain ⟨-, found, last, hfound, ⟨-, denoted, hdenoted, hsame⟩, -⟩ := hfetched _ hvertices
  have haccepted : Accepted (Executed "data" Disk.empty exampleRequests) exampleInstance :=
    ⟨hexecuted _ hi, verify_exampleInstance⟩
  have hset := Denotes.exampleGraph haccepted rfl vertices_exampleInstance List.mem_cons_self
    vertices_exampleInstance
  rw [← (hdenoted _).1 hset] at hsame
  rw [Entity.sameContent_vertexSet_iff.1 hsame] at hfound
  exact ⟨_, hhistory, vault', opened, catalog, instances, dag, hopen, hrecords, hinstances, hdag, hi,
    report, after, hrun, houtcome, next, between, last, hreopen, hfound⟩

end Session

end GraphVault
