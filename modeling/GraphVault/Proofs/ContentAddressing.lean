import GraphVault.Proofs.CoherentHistories
import GraphVault.Proofs.Computation
import GraphVault.Proofs.Digests
import GraphVault.Proofs.Executing

/-!
# Content addressing is sound

A store that is only given the outputs of executed instances holds under every guid what the guid
denotes, in memory and on disk, however instances are executed, outputs are dropped and loaded, and
stores are closed and opened again (`Session.history_denoted`).
-/

namespace GraphVault

open Disk

/-- Whether a failure says that what is found under a guid is not what belongs there. -/
def Failure.Inconsistent : Failure → Prop
  | collision _ | lengthMismatch _ _ _ _ | positionOutOfRange _ _ _ _ _ | duplicateExternalId _ _
  | duplicatePosition _ _ _ | unsortedPositions _ _ _ _ | missingRows _ _ _ | malformedRow _ _ _
  | unknownExternalId _ _ _ => True
  | _ => False

/-- Whether a failure leaves what is found under guids beyond doubt. -/
def Failure.Consistent (failure : Failure) : Prop := ¬ failure.Inconsistent

theorem Failure.OfOperation.consistent {failure : Failure} (h : failure.OfOperation) :
    failure.Consistent := by
  cases failure <;> first | exact id | exact h.elim

theorem Failure.OfDisk.consistent {failure : Failure} (h : failure.OfDisk) :
    failure.Consistent := by
  cases failure <;> first | exact id | exact h.elim

theorem Premise.Tolerates.consistent {p : Premise} {failure : Failure} (h : p.Tolerates failure) :
    failure.Consistent := by
  cases h with
  | inl hmissing =>
    obtain ⟨guid, rfl⟩ := hmissing
    exact id
  | inr hdisk => exact hdisk.2.consistent

/-- What a store rests on that holds nothing but what guids denote. -/
noncomputable def Unambiguous.premise {executed : Instance → Prop} (h : Unambiguous executed)
    (dataDir : String) : Premise where
  content := meaning executed
  coherent := coherent_meaning h
  site := ⟨dataDir, "", [], []⟩
  reliable := False
  readable := nofun

/-- Work that keeps a store to what guids denote, and never finds anything else. -/
abbrev Unambiguous.Keeps {executed : Instance → Prop} (h : Unambiguous executed) (dataDir : String)
    {α : Type} (good : α → Prop) (work : VaultM α) : Prop :=
  GraphVault.Keeps (h.premise dataDir).Sound Failure.Consistent good work

/-! ### Executing instances -/

namespace Executor

variable {executed : Instance → Prop} (h : Unambiguous executed) (dataDir : String)

private theorem keeps_of_premise {α : Type} {good : α → Prop} {work : VaultM α}
    (hwork : (h.premise dataDir).Keeps good work) : h.Keeps dataDir good work :=
  hwork.mono (fun _ ha => ha) fun _ htolerated => htolerated.consistent

private theorem keeps_resolveInput (slot : String) (guid : Guid) :
    h.Keeps dataDir ((meaning executed).Means guid) (resolveInput slot guid) := by
  apply (Vault.keeps_getOrLoad (h.premise dataDir) guid).tryCatch
  intro failure htolerated
  apply Keeps.throw
  split
  · exact id
  · exact htolerated.consistent

private theorem keeps_denoted {i : Instance} (hi : Accepted executed i) :
    h.Keeps dataDir (fun outputs => ∀ output ∈ outputs, Denotes executed output.1 output.2)
      (produce Registry.builtin i) := by
  have hresolve : h.Keeps dataDir (i.Binds (meaning executed).Means) (resolveInputs i) :=
    keeps_resolveInputs fun slot guid _ => keeps_resolveInput h dataDir slot guid
  have hruns (inputs : SortedMap String (Guid × Entity)) :=
    (makes_run i inputs).weaken fun _ hfailure => hfailure.consistent
  have hproduce := keeps_produce hresolve (fun inputs _ => hruns inputs)
    fun _ hfailure => hfailure.ofOperation.consistent
  apply hproduce.mono ?_ fun _ hfailure => hfailure
  rintro outputs ⟨-, inputs, hinputs, hhands⟩ output houtput
  obtain ⟨slot, hslot, hmakes⟩ := hhands.sound output houtput
  exact hmakes.output h hi hinputs.sound output.1 hslot

theorem keeps_persistOutputs (p : Premise) (i : Instance) (outputs : List (Guid × Entity)) :
    p.Keeps (fun _ => True) (persistOutputs i outputs) := by
  refine .bind (.forM fun output _ => ?_) fun _ _ => ?_
  · exact (Vault.keeps_persistFrom _ output.1 _).bind fun _ _ => .pure trivial
  · exact Vault.keeps_modifyCatalog fun _ hlegible => hlegible

private theorem keeps_execute {i : Instance} (hi : executed i) :
    h.Keeps dataDir (fun _ => True) (execute Registry.builtin i) := by
  have hverify : h.Keeps dataDir (fun _ => Accepted executed i)
      (MonadExcept.ofExcept i.verify) := by
    apply Keeps.ofExcept
    · intro _ hverified
      exact ⟨hi, hverified⟩
    · intro failure hfailure
      obtain ⟨declared, derived, rfl⟩ := Instance.verify_error hfailure
      exact id
  apply hverify.bind
  intro _ haccepted
  apply Keeps.bind_get
  intro vault hvault
  split
  · exact ⟨hvault, trivial⟩
  refine Keeps.yields ((keeps_denoted h dataDir haccepted).bind fun outputs houtputs => ?_) vault
    hvault
  refine .bind (.forM fun output houtput => ?_) fun _ _ => .bind_get fun after hafter => ?_
  · have hmeans := Assignment.means_of_eq ((meaning_eq_some_iff h).2 (houtputs output houtput))
    have hput := keeps_of_premise h dataDir (Vault.keeps_put (p := h.premise dataDir) hmeans)
    exact hput.bind fun _ _ => .pure trivial
  split
  · have hpersist := keeps_of_premise h dataDir (keeps_persistOutputs _ i outputs)
    exact (hpersist.bind fun _ _ => .pure trivial).yields after hafter
  · exact ⟨hafter, trivial⟩

private theorem run_denoting {dag : Dag} {vault : Vault}
    (hvault : (h.premise dataDir).Sound vault)
    (hreached : ∀ waves, dag.waves = .ok waves → ∀ i, Reached vault waves i → executed i) :
    Yields (run Registry.builtin dag) vault (fun _ after => (h.premise dataDir).Sound after)
      fun failure after => (h.premise dataDir).Sound after ∧ failure.Consistent := by
  have hfrail : Frail Failure.Consistent := ⟨fun _ _ => id, fun _ => id⟩
  exact run_yields hfrail hvault fun waves hwaves i hi =>
    keeps_execute h dataDir (hreached waves hwaves i hi)

end Executor

/-- What is executed upon a request to an open store. -/
def Request.Executes (vault : Vault) : Request → Instance → Prop
  | .execute i, j => j = i
  | .run dag, j => ∃ waves, dag.waves = .ok waves ∧ Executor.Reached vault waves j
  | _, _ => False

namespace Session

/-- Requests to stores over the same data, which leave it to executed instances what is put. -/
def Managed (dataDir : String) (_ : Session) : Request → Prop
  | .open settings => settings.dataDir = dataDir
  | .put _ _ | .importUnordered _ | .exportUnordered _ => False
  | _ => True

/-- The histories of stores over the same data, from a disk on. -/
abbrev Run (dataDir : String) (disk : Disk) : List Request → Session → Prop :=
  History Registry.builtin (Managed dataDir) (closed disk)

/-- The instances that were executed in the course of requests. -/
def Executed (dataDir : String) (disk : Disk) (requests : List Request) (i : Instance) : Prop :=
  ∃ before vault request after, requests = before ++ request :: after ∧
    Run dataDir disk before (opened vault) ∧ request.Executes vault i

variable {executed executed' : Instance → Prop} {dataDir : String} {disk : Disk}
  {session : Session} {requests : List Request} {request : Request}

private theorem keeps_managed (h : Unambiguous executed)
    (hmanaged : Managed dataDir session request) (hexecute : ∀ i, request = .execute i → executed i)
    (hrun : ∀ dag, request ≠ .run dag) :
    h.Keeps dataDir (fun _ => True) (request.work Registry.builtin) := by
  have hpremise {α : Type} {good : α → Prop} {work : VaultM α}
      (hwork : (h.premise dataDir).Keeps good work) :
      h.Keeps dataDir (fun _ => True) (do let _ ← work) :=
    (Executor.keeps_of_premise h dataDir hwork).bind fun _ _ => .pure trivial
  cases request with
  | «open» settings => exact .pure trivial
  | close => exact .pure trivial
  | get guid => exact .pure trivial
  | put guid entity => exact hmanaged.elim
  | remove guid => exact hpremise (Vault.keeps_remove _ guid)
  | purge guid => exact hpremise (Vault.keeps_purge _ guid)
  | persist guid => exact hpremise (Vault.keeps_persistFrom _ guid none)
  | load guid => exact hpremise (Vault.keeps_load _ guid)
  | getOrLoad guid => exact hpremise (Vault.keeps_getOrLoad _ guid)
  | exportUnordered guid => exact hmanaged.elim
  | importUnordered guid => exact hmanaged.elim
  | execute i =>
    exact (Executor.keeps_execute h dataDir (hexecute i rfl)).bind fun _ _ => .pure trivial
  | run dag => exact absurd rfl (hrun dag)

private theorem work_yields (h : Unambiguous executed) {vault : Vault}
    (hvault : (h.premise dataDir).Sound vault) (hmanaged : Managed dataDir (opened vault) request)
    (hexecutes : ∀ i, request.Executes vault i → executed i) :
    Yields (request.work Registry.builtin) vault (fun _ after => (h.premise dataDir).Sound after)
      fun failure after => (h.premise dataDir).Sound after ∧ failure.Consistent := by
  by_cases hrun : ∃ dag, request = .run dag
  · obtain ⟨dag, rfl⟩ := hrun
    rw [Request.work, yields_bind]
    apply Executor.run_denoting h dataDir hvault
    intro waves hwaves i hi
    exact hexecutes i ⟨waves, hwaves, hi⟩
  · have hwork : h.Keeps dataDir (fun _ => True) (request.work Registry.builtin) := by
      refine keeps_managed h hmanaged ?_ fun dag heq => hrun ⟨dag, heq⟩
      rintro i rfl
      exact hexecutes i rfl
    exact (hwork.yields vault hvault).mono (fun _ _ hafter => hafter.1) fun _ _ hafter => hafter

private theorem next_denoted (h : Unambiguous executed)
    (hsession : (h.premise dataDir).SoundSession session)
    (hmanaged : Managed dataDir session request)
    (hexecutes : ∀ vault, session = opened vault → ∀ i, request.Executes vault i → executed i) :
    (h.premise dataDir).SoundSession (session.next Registry.builtin request).2 ∧
      ∀ failure, (session.next Registry.builtin request).1 = .error failure →
        failure.Consistent := by
  refine hsession.next ?_ (fun _ htolerated => htolerated.consistent) ?_
  · rintro settings rfl
    exact ⟨hmanaged, nofun⟩
  · rintro vault rfl
    exact work_yields h hsession hmanaged (hexecutes vault rfl)

/-- What is denoted by fewer instances is denoted by more. -/
private theorem meaning_mono (h : Unambiguous executed) (h' : Unambiguous executed')
    (hsub : ∀ i, executed i → executed' i) {guid : Guid} {entity : Entity}
    (hentity : meaning executed guid = some entity) :
    meaning executed' guid = some entity :=
  (meaning_eq_some_iff h').2 (((meaning_eq_some_iff h).1 hentity).mono hsub)

/-- A store that keeps to what guids denote goes on to when more instances are executed. -/
private theorem soundSession_mono (h : Unambiguous executed) (h' : Unambiguous executed')
    (hsub : ∀ i, executed i → executed' i) (hsession : (h.premise dataDir).SoundSession session) :
    (h'.premise dataDir).SoundSession session := by
  have hkept {after : Disk} (hkept : ∀ b, base dataDir = .ok b →
      Kept (meaning executed).copy b after) :
      ∀ b, base dataDir = .ok b → Kept (meaning executed').copy b after := by
    intro b hb
    apply (hkept b hb).mono
    intro g stored hcopy
    exact Assignment.copy_mono (fun _ _ => meaning_mono h h' hsub) hcopy
  cases session with
  | closed disk => exact ⟨hkept hsession.kept, nofun⟩
  | opened vault =>
    have hsound : (h.premise dataDir).Sound vault := hsession
    refine ⟨hsound.dataDir, nofun, fun guid entity hentity => ?_, hkept hsound.kept, nofun⟩
    obtain ⟨assigned, hassigned, hsame⟩ := hsound.memory guid entity hentity
    exact ⟨assigned, meaning_mono h h' hsub hassigned, hsame⟩

theorem Executed.append {i : Instance} (h : Executed dataDir disk requests i)
    (more : List Request) : Executed dataDir disk (requests ++ more) i := by
  obtain ⟨before, vault, request, after, rfl, hrun, hexecutes⟩ := h
  exact ⟨before, vault, request, after ++ more, by simp, hrun, hexecutes⟩

/-- A request leaves a store with nothing but what is denoted. -/
private theorem step_denoted (hrun : Run dataDir disk requests session)
    (hmanaged : Managed dataDir session request)
    (hsession : ∀ h : Unambiguous (Executed dataDir disk requests),
      (h.premise dataDir).SoundSession session)
    (h : Unambiguous (Executed dataDir disk (requests ++ [request]))) :
    (h.premise dataDir).SoundSession (session.next Registry.builtin request).2 ∧
      ∀ failure, (session.next Registry.builtin request).1 = .error failure →
        failure.Consistent := by
  have hsub : ∀ i, Executed dataDir disk requests i →
      Executed dataDir disk (requests ++ [request]) i := fun _ hi => hi.append [request]
  have hbefore := h.mono hsub
  apply next_denoted h (soundSession_mono hbefore h hsub (hsession hbefore)) hmanaged
  intro vault heq i hi
  subst heq
  exact ⟨requests, vault, request, [], rfl, hrun, hi⟩

/-- A store holds nothing but what is denoted by the instances that were executed. -/
private theorem run_denoted
    (hempty : ∀ b, base dataDir = .ok b → ∀ a, Inside b a → disk.node? a = none)
    (hrun : Run dataDir disk requests session)
    (h : Unambiguous (Executed dataDir disk requests)) :
    (h.premise dataDir).SoundSession session := by
  induction hrun with
  | start =>
    refine ⟨fun b hb g hfile => ?_, nofun⟩
    obtain ⟨node, hnode, -⟩ := hfile
    rw [hempty b hb _ (inside_text b g _)] at hnode
    cases hnode
  | step hbefore hmanaged ih => exact (step_denoted hbefore hmanaged ih h).1

private theorem Run.managed (hrun : Run dataDir disk requests session) :
    ∀ request ∈ requests, ∀ session, Managed dataDir session request := by
  induction hrun with
  | start => exact nofun
  | step _ hmanaged ih =>
    intro request hrequest session
    cases List.mem_append.1 hrequest with
    | inl hmem => exact ih request hmem session
    | inr hlast =>
      rw [List.mem_singleton.1 hlast]
      exact hmanaged

/-- An entity is the one output of executed instances that its guid denotes. -/
structure Computed (executed : Instance → Prop) (guid : Guid) (entity : Entity) : Prop where
  output : ∃ i slot, Accepted executed i ∧ i.outputs.get? slot = some guid
  content : ∃ denoted, (∀ other, Denotes executed guid other ↔ other = denoted) ∧
    denoted.sameContent entity

theorem computed_of_means (h : Unambiguous executed) {guid : Guid} {entity : Entity}
    (hmeans : (meaning executed).Means guid entity) : Computed executed guid entity := by
  obtain ⟨denoted, hdenoted, hsame⟩ := hmeans
  have hdenotes := (meaning_eq_some_iff h).1 hdenoted
  refine ⟨hdenotes.exists_instance, denoted, fun other => ?_, hsame⟩
  constructor
  · intro hother
    exact hother.unique h hdenotes
  · intro heq
    rw [heq]
    exact hdenotes

/-- However stores over a directory that was empty are put to work, one after the other, as long as
only the executor puts entities into them: an entity that is registered under a guid or completely
stored under it is what the guid denotes, and no request ever finds anything else. -/
theorem history_denoted
    (hempty : ∀ b, base dataDir = .ok b → ∀ a, Inside b a → disk.node? a = none)
    (hrun : Run dataDir disk requests session)
    (hmeasured : ∀ i, Executed dataDir disk requests i → i.Measured)
    (hcollisionFree : CollisionFree (Executed dataDir disk requests)) :
    (∀ vault, session = opened vault → ∀ guid entity, vault.get? guid = some entity →
      Computed (Executed dataDir disk requests) guid entity) ∧
    (∀ guid, EntityDirectory.contains session.disk dataDir guid →
      ∃ b stored entity, base dataDir = .ok b ∧ session.disk.Holds b guid stored ∧
        (EntityDirectory.Readable stored →
          EntityDirectory.read session.disk dataDir guid = .ok stored) ∧
        Ordered.decode stored (meaning (Executed dataDir disk requests)).resolver = .ok entity ∧
        Computed (Executed dataDir disk requests) guid entity) ∧
    ∀ before session request after, requests = before ++ request :: after →
      Run dataDir disk before session → ∀ failure,
        (session.next Registry.builtin request).1 = .error failure → ¬ failure.Inconsistent := by
  have h : Unambiguous (Executed dataDir disk requests) := ⟨hmeasured, hcollisionFree⟩
  have hsession := run_denoted hempty hrun h
  refine ⟨?_, ?_, ?_⟩
  · rintro vault rfl guid entity hentity
    exact computed_of_means h (Premise.Sound.memory hsession guid entity hentity)
  · intro guid hcontains
    obtain ⟨stored, hcopy, hread, -⟩ :=
      EntityDirectory.read_of_kept (coherent_meaning h).filed hsession.disk.kept hcontains
    obtain ⟨-, b, hreaches, -, hfile⟩ := EntityDirectory.contains_iff.1 hcontains
    obtain ⟨stored', hcopy', hholds⟩ := hsession.disk.kept b hreaches.base_eq guid hfile
    have heq : stored' = stored := Option.some.inj (hcopy'.symm.trans hcopy)
    subst heq
    obtain ⟨-, entity, hdecode, hmeans⟩ := (coherent_meaning h).decode_copy hcopy
    exact ⟨b, stored', entity, hreaches.base_eq, hholds, hread, hdecode, computed_of_means h hmeans⟩
  · rintro before session request after rfl hbefore failure hfailure
    have hmanaged := hrun.managed request (List.mem_append_right _ List.mem_cons_self) session
    have hsub : ∀ i, Executed dataDir disk (before ++ [request]) i →
        Executed dataDir disk (before ++ request :: after) i := by
      intro i hi
      have happend := hi.append after
      rwa [List.append_assoc] at happend
    have hstep := step_denoted hbefore hmanaged (run_denoted hempty hbefore) (h.mono hsub)
    exact hstep.2 failure hfailure

/-! ### The example graph -/

/-- The guid of given digits. -/
def digits (text : String) : Guid := (Guid.parse? text).getD (Guid.filled 0)

/-- The guid of the vertex set of the example graph. -/
def exampleVertices : Guid :=
  digits "0b7d07a44bbda79e085cde127fe79d161e97b0cd2181f2e906da322a75a01460"

/-- The output guids of the example graph by slot. -/
def exampleOutputs : List (String × Guid) :=
  [("age", digits "46abc6171aecc792fe2d2926fe0b028c70c16290022ce3a5a7088f8684866390"),
    ("edges", digits "cc2ce2ef30e3f235920434fcc0c873bedfb2adda6c4f0a9552f82a2fb952cb0e"),
    ("gender", digits "df54ad0f3449e5c7f8b0a77c3eab6767f379c284e713df1e290786a23555396a"),
    ("income", digits "512f76adb43bc696999ab1c6ba87393bfc4cc989ab66a85dd9d3868f539e1c50"),
    ("location", digits "108c95cdba1311ecd141fefe5b67949e794cb890d32406aa2d389521ab8154bc"),
    ("name", digits "908315d535bcb5c01ea26fd3a6e2c4bf5d4236a14e58cc7c060bd365127ca88d"),
    ("vertices", exampleVertices)]

/-- The instance of the example graph with all its outputs. -/
def exampleInstance : Instance where
  guid := digits "755f801e200509d2c5194282c3c5ca06928dd5308087e3875c180ddff5f1533c"
  inputs := SortedMap.empty
  outputs := SortedMap.ofList exampleOutputs
  description := ⟨"ExampleGraph", []⟩

/-- The settings of a store that saves and records what it executes. -/
def exampleSettings : Settings := ⟨"data", "exchange", .reject, true, true⟩

def exampleOpening : Request := .open exampleSettings

/-- The example graph is executed by a store. -/
def exampleRequests : List Request := [exampleOpening, .execute exampleInstance]

private theorem run_opening : Run "data" Disk.empty [exampleOpening]
    ((closed Disk.empty).next Registry.builtin exampleOpening).2 :=
  History.step .start (show Managed "data" (closed Disk.empty) exampleOpening from rfl)

private theorem run_example :
    Run "data" Disk.empty exampleRequests
      (((closed Disk.empty).next Registry.builtin exampleOpening).2.next Registry.builtin
        (.execute exampleInstance)).2 := by
  have hexecute (session : Session) : Managed "data" session (.execute exampleInstance) := trivial
  exact History.step run_opening (hexecute _)

/-- Only the example graph is executed. -/
theorem executed_example {i : Instance}
    (h : Executed "data" Disk.empty exampleRequests i) : i = exampleInstance := by
  obtain ⟨before, vault, request, after, hrequests, -, hexecutes⟩ := h
  have hmem : request ∈ exampleRequests := by
    rw [hrequests]
    exact List.mem_append_right _ List.mem_cons_self
  cases List.mem_cons.1 hmem with
  | inl hopening =>
    rw [hopening] at hexecutes
    exact hexecutes.elim
  | inr hmem =>
    rw [List.mem_singleton.1 hmem] at hexecutes
    exact hexecutes

theorem vertices_exampleInstance :
    exampleInstance.outputs.get? "vertices" = some exampleVertices := by
  decide +kernel

theorem verify_exampleInstance : exampleInstance.verify = .ok () := by
  have houtputs : ∀ output ∈ exampleOutputs,
      output.2.Names (Derivation.outputContent exampleInstance.guid output.1) := by
    decide +kernel
  have hguid : exampleInstance.guid.Names
      (Derivation.instanceContent exampleInstance.description exampleInstance.inputs) := by
    decide +kernel
  refine Instance.verify_of_names hguid fun slot guid hslot => ?_
  have hmem : (slot, guid) ∈ exampleOutputs := SortedMap.mem_of_get?_ofList hslot
  exact houtputs (slot, guid) hmem

theorem distinct_exampleInstance :
    (exampleInstance.guid :: exampleInstance.outputs.values).Nodup := by
  decide +kernel

theorem measured_exampleInstance : exampleInstance.Measured := by
  constructor <;> decide +kernel

theorem unambiguous_example : Unambiguous (Executed "data" Disk.empty exampleRequests) := by
  constructor
  · intro i hi
    rw [executed_example hi]
    exact measured_exampleInstance
  · exact .of_eq (fun _ hi => executed_example hi) distinct_exampleInstance

theorem history_denoted_exampleGraph :
    exampleInstance.verify = .ok () ∧
    (∀ vault, (((closed Disk.empty).next Registry.builtin exampleOpening).2.next Registry.builtin
        (.execute exampleInstance)).2 = opened vault → ∀ entity,
      vault.get? exampleVertices = some entity → entity = .vertexSet ⟨[0, 1, 2, 3]⟩) ∧
    ∀ failure, (((closed Disk.empty).next Registry.builtin exampleOpening).2.next Registry.builtin
        (.execute exampleInstance)).1 = .error failure → ¬ failure.Inconsistent := by
  obtain ⟨hmemory, -, hanswers⟩ := history_denoted (fun _ _ _ ha => node?_empty_of_inside ha)
    run_example unambiguous_example.measured unambiguous_example.collisionFree
  refine ⟨verify_exampleInstance, ?_, ?_⟩
  · intro vault heq entity hentity
    obtain ⟨⟨i, slot, hi, hslot⟩, denoted, hdenoted, hsame⟩ :=
      hmemory vault heq exampleVertices entity hentity
    obtain rfl := executed_example hi.executed
    have hset := Denotes.exampleGraph hi rfl vertices_exampleInstance List.mem_cons_self
      vertices_exampleInstance
    rw [← (hdenoted _).1 hset] at hsame
    exact Entity.sameContent_vertexSet_iff.1 hsame
  · intro failure hfailure
    exact hanswers [_] _ _ [] rfl run_opening failure hfailure

end Session

end GraphVault
