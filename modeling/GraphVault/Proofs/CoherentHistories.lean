import GraphVault.Proofs.Coherence
import GraphVault.Proofs.PositionalIntegrity

/-!
# Coherent histories

A store that is given under each guid only the content that the guid stands for keeps to it, however
it is put to work, closed and opened again: every entity in memory and every complete copy on disk
has that content, and no request fails unless an entity is missing (`Session.history_coherent`).
-/

namespace GraphVault

open Disk

namespace Premise

variable {p : Premise}

/-- A disk that a store may be opened on. -/
structure SoundDisk (p : Premise) (disk : Disk) : Prop where
  kept : ∀ b, base p.site.dataDir = .ok b → Kept p.content.copy b disk
  ready : p.reliable → p.site.Ready none disk

/-- A sound store, or a disk that one may be opened on. -/
def SoundSession (p : Premise) : Session → Prop
  | .opened vault => p.Sound vault
  | .closed disk => p.SoundDisk disk

theorem Sound.close {vault : Vault} (h : p.Sound vault) : p.SoundDisk vault.close := by
  refine ⟨fun b hb => (h.kept b hb).of_agreesBut fun a _ => ?_, fun hreliable => ?_⟩
  · unfold Vault.close
    split <;> rfl
  · exact (h.ready hreliable).close

theorem SoundSession.disk {session : Session} (h : p.SoundSession session) :
    p.SoundDisk session.disk := by
  cases session with
  | opened vault => exact Sound.close h
  | closed disk => exact h

/-- A store over the same roots is sound when it is opened. -/
theorem SoundDisk.open_yields {disk : Disk} (h : p.SoundDisk disk) {settings : Settings}
    (hdata : settings.dataDir = p.site.dataDir)
    (hunordered : p.reliable → settings.unorderedDir = p.site.unorderedDir) :
    Yields (Vault.open settings) disk (fun vault _ => p.Sound vault)
      fun failure after => p.SoundDisk after ∧ p.Tolerates failure := by
  have hempty {vault : Vault} {after : Disk}
      (hvault : vault = ⟨settings, SortedMap.empty, vault.catalog, after⟩)
      (hprepared : Prepared p.site.dataDir disk after)
      (hready : p.reliable → p.site.Ready vault.catalog after) : p.Sound vault := by
    rw [hvault]
    exact ⟨hdata, hunordered, nofun, Kept.prepared h.kept hprepared, hready⟩
  by_cases hreliable : p.reliable
  · refine ((h.ready hreliable).open_yields hdata).mono (fun vault after hvault => ?_)
      fun _ _ hfalse => hfalse.elim
    exact hempty hvault.1 hvault.2.2 fun _ => hvault.2.1
  · refine (Vault.open_yields settings disk).mono (fun vault after hvault => ?_)
      fun failure after hfailure => ?_
    · rw [hdata] at hvault
      exact hempty hvault.1 hvault.2 fun hready => absurd hready hreliable
    · rw [hdata] at hfailure
      have hsound : p.SoundDisk after :=
        ⟨Kept.prepared h.kept hfailure.2, fun hready => absurd hready hreliable⟩
      refine ⟨hsound, .inr ⟨hreliable, ?_⟩⟩
      cases hfailure.1 with
      | inl hio =>
        obtain ⟨fault, rfl⟩ := hio
        trivial
      | inr hstorage =>
        obtain ⟨fault, rfl⟩ := hstorage
        trivial

theorem SoundSession.reopen {session : Session} (h : p.SoundSession session) {settings : Settings}
    (hdata : settings.dataDir = p.site.dataDir)
    (hunordered : p.reliable → settings.unorderedDir = p.site.unorderedDir) :
    p.SoundSession (session.reopen settings).2 ∧
      ∀ failure, (session.reopen settings).1 = .error failure → p.Tolerates failure := by
  have hyields := h.disk.open_yields hdata hunordered
  unfold Yields at hyields
  unfold Session.reopen
  split at hyields
  · rename_i vault after heq
    rw [heq]
    exact ⟨hyields, nofun⟩
  · rename_i failure after heq
    rw [heq]
    refine ⟨hyields.1, fun other hother => ?_⟩
    cases hother
    exact hyields.2

/-- An open store over sound roots answers a request as its work does. -/
theorem SoundSession.next {registry : Registry} {session : Session} {request : Request}
    (h : p.SoundSession session)
    (hopen : ∀ settings, request = .open settings → settings.dataDir = p.site.dataDir ∧
      (p.reliable → settings.unorderedDir = p.site.unorderedDir))
    {tolerated : Failure → Prop} (htolerated : ∀ failure, p.Tolerates failure → tolerated failure)
    (hwork : ∀ vault, session = .opened vault → Yields (request.work registry) vault
      (fun _ after => p.Sound after) fun failure after => p.Sound after ∧ tolerated failure) :
    p.SoundSession (session.next registry request).2 ∧
      ∀ failure, (session.next registry request).1 = .error failure → tolerated failure := by
  by_cases hrequest : ∃ settings, request = .open settings
  · obtain ⟨settings, rfl⟩ := hrequest
    obtain ⟨hdata, hunordered⟩ := hopen settings rfl
    have hreopen := h.reopen hdata hunordered
    exact ⟨hreopen.1, fun failure hfailure => htolerated failure (hreopen.2 failure hfailure)⟩
  · by_cases hclose : request = .close
    · subst hclose
      exact ⟨h.disk, nofun⟩
    · cases session with
      | closed disk =>
        have hnext : (Session.closed disk).next registry request = (.ok (), .closed disk) := by
          cases request with
          | «open» settings => exact absurd ⟨settings, rfl⟩ hrequest
          | _ => rfl
        rw [hnext]
        exact ⟨h, nofun⟩
      | opened vault =>
        refine Session.next_of_yields (fun answer => p.SoundSession answer.2 ∧
          ∀ failure, answer.1 = .error failure → tolerated failure)
          (fun settings heq => hrequest ⟨settings, heq⟩) hclose ?_
        refine (hwork vault rfl).mono (fun _ after hafter => ⟨hafter, nofun⟩)
          fun failure after hafter => ⟨hafter.1, fun other hother => ?_⟩
        cases hother
        exact hafter.2

end Premise

/-! ### Every guid stands for an entity -/

/-- Every guid stands for an entity. -/
def Assignment.total (content : Guid → Entity) : Assignment := fun guid => some (content guid)

/-- Every entity is accepted with the vertex sets that its references stand for, and is small enough
to be read back. -/
structure Assigned (content : Guid → Entity) : Prop where
  accepted : ∀ guid,
    (content guid).validate guid (Assignment.total content).resolver = .ok ()
  rowCount : ∀ guid, (content guid).rowCount ≤ 2 ^ 32
  rowFile : ∀ guid stored,
    Ordered.encode guid (content guid) (Assignment.total content).resolver = .ok stored →
      stored.rows.length ≤ 2 * 1024 ^ 3

namespace Assigned

variable {content : Guid → Entity}

theorem fits (h : Assigned content) (guid : Guid) :
    (content guid).Fits (Assignment.total content).resolver :=
  Entity.validate_eq_ok_iff.1 (h.accepted guid)

theorem sized (h : Assigned content) (guid : Guid) : (content guid).Sized := by
  apply Entity.sized_of_limits (h.fits guid) (h.rowCount guid) ?_ (h.rowFile guid)
  intro r _ set hset
  have hassigned := Option.some.inj (Assignment.resolver_eq_ok_iff.1 hset)
  have hcount := h.rowCount r
  rw [hassigned] at hcount
  exact hcount

theorem coherent (h : Assigned content) : (Assignment.total content).Coherent := by
  constructor
  · intro guid entity hentity
    rw [← Option.some.inj hentity]
    exact h.fits guid
  · intro guid entity hentity
    rw [← Option.some.inj hentity]
    exact h.sized guid

theorem readable (h : Assigned content) {guid : Guid} {stored : Stored}
    (hcopy : (Assignment.total content).copy guid = some stored) :
    EntityDirectory.Readable stored := by
  have hassigned : Assignment.total content guid = some (content guid) := rfl
  obtain ⟨found, hcopy', hencode, -, hcount, -⟩ := h.coherent.exists_copy hassigned
  rw [hcopy, Option.some.injEq] at hcopy'
  subst hcopy'
  exact EntityDirectory.readable_of_limits (Ordered.mem_references_of_encode hencode).1 hcount
    (h.rowCount guid) (h.rowFile guid stored hencode)

/-- What a store over reliable roots rests on. -/
def premise (h : Assigned content) (site : Site) : Premise where
  content := Assignment.total content
  coherent := h.coherent
  site := site
  reliable := True
  readable _ _ _ := h.readable

theorem tolerates_iff (h : Assigned content) (site : Site) (failure : Failure) :
    (h.premise site).Tolerates failure ↔ ∃ guid, failure = .missingEntity guid := by
  simp [Premise.Tolerates, premise]

theorem means_iff {guid : Guid} {entity : Entity} :
    (Assignment.total content).Means guid entity ↔ entity.sameContent (content guid) := by
  constructor
  · intro h
    obtain ⟨assigned, hassigned, hsame⟩ := h
    rw [← Option.some.inj hassigned] at hsame
    exact Entity.sameContent_symm hsame
  · intro h
    exact ⟨_, rfl, Entity.sameContent_symm h⟩

end Assigned

/-- The roots of a store that has not kept anything yet. -/
structure Site.Fresh (site : Site) (disk : Disk) : Prop where
  apart : site.Apart
  data : Usable site.Outside site.dataDir site.dataBase disk
  unordered : Usable site.Outside site.unorderedDir site.unorderedBase disk
  empty : ∀ a, Inside site.dataBase a → disk.node? a = none

/-- Requests to stores over the same roots, which put under a guid only the content that it stands
for. -/
def Session.Addressed (content : Guid → Entity) (site : Site) (_ : Session) : Request → Prop
  | .open settings => settings.dataDir = site.dataDir ∧ settings.unorderedDir = site.unorderedDir
  | .put guid entity => entity.sameContent (content guid)
  | .importUnordered _ | .execute _ | .run _ => False
  | _ => True

namespace Session

variable {content : Guid → Entity} {site : Site} {registry : Registry}

private theorem keeps_work (h : Assigned content) {session : Session} {request : Request}
    (hallowed : Addressed content site session request) :
    (h.premise site).Keeps (fun _ => True) (request.work registry) := by
  cases request with
  | «open» settings => exact .pure trivial
  | close => exact .pure trivial
  | get guid => exact .pure trivial
  | put guid entity =>
    exact (Vault.keeps_put (Assigned.means_iff.2 hallowed)).bind fun _ _ => .pure trivial
  | remove guid => exact (Vault.keeps_remove _ guid).bind fun _ _ => .pure trivial
  | purge guid => exact (Vault.keeps_purge _ guid).bind fun _ _ => .pure trivial
  | persist guid => exact (Vault.keeps_persistFrom _ guid none).bind fun _ _ => .pure trivial
  | load guid => exact (Vault.keeps_load _ guid).bind fun _ _ => .pure trivial
  | getOrLoad guid => exact (Vault.keeps_getOrLoad _ guid).bind fun _ _ => .pure trivial
  | exportUnordered guid =>
    exact (Vault.keeps_exportUnordered (p := h.premise site) trivial guid).bind
      fun _ _ => .pure trivial
  | importUnordered guid => exact hallowed.elim
  | execute i => exact hallowed.elim
  | run dag => exact hallowed.elim

private theorem next_addressed (h : Assigned content) {session : Session} {request : Request}
    (hsession : (h.premise site).SoundSession session)
    (hallowed : Addressed content site session request) :
    (h.premise site).SoundSession (session.next registry request).2 ∧
      ∀ failure, (session.next registry request).1 = .error failure →
        (h.premise site).Tolerates failure := by
  refine hsession.next ?_ (fun _ htolerated => htolerated) ?_
  · rintro settings rfl
    exact ⟨hallowed.1, fun _ => hallowed.2⟩
  · rintro vault rfl
    exact ((keeps_work h hallowed).yields vault hsession).mono (fun _ _ hafter => hafter.1)
      fun _ _ hafter => hafter

/-- However stores over the same fresh roots are put to work, one after the other, an entity that
is registered under a guid or completely stored under it has the content that the guid stands for,
and every request succeeds or misses an entity. -/
theorem history_coherent (h : Assigned content) {disk : Disk} (hfresh : site.Fresh disk)
    {requests : List Request} {session : Session}
    (hhistory : History registry (Addressed content site) (closed disk) requests session) :
    (∀ vault, session = opened vault → ∀ guid entity, vault.get? guid = some entity →
      entity.sameContent (content guid)) ∧
    (∀ guid, EntityDirectory.contains session.disk site.dataDir guid →
      ∃ stored, EntityDirectory.read session.disk site.dataDir guid = .ok stored ∧
        ∃ entity, Ordered.decode stored (Assignment.total content).resolver = .ok entity ∧
          entity.sameContent (content guid)) ∧
    ∀ request, Addressed content site session request →
      (session.next registry request).1 = .ok () ∨
        ∃ guid, (session.next registry request).1 = .error (.missingEntity guid) := by
  have hsession : (h.premise site).SoundSession session := by
    refine hhistory.invariant (h.premise site).SoundSession ?_ fun _ _ hsound hallowed =>
      (next_addressed h hsound hallowed).1
    refine ⟨fun b hb g hfile => ?_, fun _ => Site.ready_of_empty hfresh.apart hfresh.data
      hfresh.unordered hfresh.empty⟩
    have hbase : base site.dataDir = .ok site.dataBase := hfresh.data.way.walk_eq
    obtain ⟨node, hnode, -⟩ := hfile
    have hb' : base site.dataDir = .ok b := hb
    rw [hbase, Except.ok.injEq] at hb'
    subst hb'
    rw [hfresh.empty _ (inside_text _ g _)] at hnode
    cases hnode
  refine ⟨?_, fun guid hcontains => ?_, fun request hallowed => ?_⟩
  · rintro vault rfl guid entity hentity
    exact Assigned.means_iff.1 (Premise.Sound.memory hsession guid entity hentity)
  · obtain ⟨stored, hcopy, hread, -⟩ :=
      EntityDirectory.read_of_kept h.coherent.filed hsession.disk.kept hcontains
    obtain ⟨-, entity, hdecode, hmeans⟩ := h.coherent.decode_copy hcopy
    exact ⟨stored, hread (h.readable hcopy), entity, hdecode, Assigned.means_iff.1 hmeans⟩
  · have hanswer : ∀ failure, (session.next registry request).1 = .error failure →
        (h.premise site).Tolerates failure := (next_addressed h hsession hallowed).2
    cases hresult : (session.next registry request).1 with
    | ok _ => exact .inl rfl
    | error failure =>
      obtain ⟨guid, rfl⟩ := (h.tolerates_iff site failure).1 (hanswer failure hresult)
      exact .inr ⟨guid, rfl⟩

/-- A column over a vertex set of two positions, and that vertex set under all other guids. -/
def sample (guid : Guid) : Entity :=
  if guid = Guid.filled 2 then
    .column .double ⟨[Double.zero, Double.zero], [true, false], Guid.filled 1⟩
  else .vertexSet ⟨[7, 8]⟩

private theorem assigned_sample : Assigned sample := by
  have hset : sample (Guid.filled 1) = .vertexSet ⟨[7, 8]⟩ := rfl
  have hcases (guid : Guid) : guid = Guid.filled 2 ∨ sample guid = .vertexSet ⟨[7, 8]⟩ := by
    by_cases h : guid = Guid.filled 2
    · exact .inl h
    · exact .inr (if_neg h)
  refine ⟨fun guid => ?_, fun guid => ?_, fun guid stored hencode => ?_⟩
  · cases hcases guid with
    | inl h =>
      subst h
      rfl
    | inr h =>
      rw [h]
      rfl
  · cases hcases guid with
    | inl h =>
      subst h
      decide
    | inr h =>
      rw [h]
      decide
  · cases hcases guid with
    | inl h =>
      subst h
      cases hencode
      decide
    | inr h =>
      rw [h] at hencode
      cases hencode
      change (RowFile.encode RowFile.vertexRow [7, 8]).length ≤ 2 * 1024 ^ 3
      decide

def sampleSite : Site := ⟨"data", "exchange", ["data"], ["exchange"]⟩

theorem fresh_sample : sampleSite.Fresh Disk.empty := by
  have husable {name : String} (hplain : Path.Plain name) :
      Usable sampleSite.Outside name [name] Disk.empty :=
    usable_of_plain hplain ⟨not_inside_workingDirectory _, not_inside_workingDirectory _⟩
      ⟨not_inside_name _ _, not_inside_name _ _⟩ (passable_empty _) fun _ => passable_empty _
  have hdata : Path.Plain "data" := by decide
  have hexchange : Path.Plain "exchange" := by decide
  exact ⟨⟨by decide, not_inside_name _ _, not_inside_name _ _⟩, husable hdata, husable hexchange,
    fun _ ha => node?_empty_of_inside ha⟩

theorem history_coherent_column :
    let start : Session := closed Disk.empty
    let opening : Request := .open ⟨"data", "exchange", .overwrite, false, false⟩
    let set : Request := .put (Guid.filled 1) (.vertexSet ⟨[7, 8]⟩)
    let column : Request :=
      .put (Guid.filled 2) (.column .double ⟨[Double.zero, ⟨1⟩], [true, false], Guid.filled 1⟩)
    ∃ vault, (((start.next Registry.empty opening).2.next Registry.empty set).2.next
        Registry.empty column).2 = opened vault ∧ vault.has (Guid.filled 2) ∧
      (∀ guid entity, vault.get? guid = some entity → entity.sameContent (sample guid)) ∧
      (((opened vault).next Registry.empty (.persist (Guid.filled 2))).1 = .ok () ∨ ∃ guid,
        ((opened vault).next Registry.empty (.persist (Guid.filled 2))).1
          = .error (.missingEntity guid)) := by
  intro start opening set column
  have hstart : History Registry.empty (Addressed sample sampleSite) start [] start := .start
  have hopening := hstart.step (show Addressed sample sampleSite _ opening from ⟨rfl, rfl⟩)
  have hsameSet : (Entity.vertexSet ⟨[7, 8]⟩).sameContent (sample (Guid.filled 1)) := by decide
  have hset := hopening.step (show Addressed sample sampleSite _ set from hsameSet)
  have hsameColumn : (Entity.column .double
      ⟨[Double.zero, ⟨1⟩], [true, false], Guid.filled 1⟩).sameContent (sample (Guid.filled 2)) := by
    decide
  have hcolumn := hset.step (show Addressed sample sampleSite _ column from hsameColumn)
  obtain ⟨hmemory, -, hanswer⟩ := history_coherent assigned_sample fresh_sample hcolumn
  exact ⟨_, rfl, by decide, hmemory _ rfl, hanswer (.persist (Guid.filled 2)) trivial⟩

end Session

end GraphVault
