import GraphVault.Operation.Builtin
import GraphVault.Proofs.Fitting
import GraphVault.Session

/-!
# Positional integrity

Over every history of requests, the entities in memory fit the vertex sets in memory, provided that
nothing is dropped while a registered entity refers to it.
-/

namespace GraphVault

/-- A request that is made to the store that is open. -/
def Request.Inner : Request → Prop
  | .open _ | .close => False
  | _ => True

namespace Session

variable {registry : Registry}

/-- What holds of the outcome of the work upon a request holds of the answer to it. -/
theorem next_of_yields {vault : Vault} {request : Request}
    (good : Except Failure Unit × Session → Prop) (hopen : ∀ settings, request ≠ .open settings)
    (hclose : request ≠ .close)
    (h : Yields (request.work registry) vault (fun _ after => good (.ok (), opened after))
      fun failure after => good (.error failure, opened after)) :
    good ((opened vault).next registry request) := by
  unfold Yields at h
  cases hwork : request.work registry vault with
  | ok _ after =>
    have hnext : (opened vault).next registry request = (.ok (), opened after) := by
      rw [next, hwork]
      all_goals first | exact hopen | exact hclose
    rw [hwork] at h
    exact hnext ▸ h
  | error failure after =>
    have hnext : (opened vault).next registry request = (.error failure, opened after) := by
      rw [next, hwork]
      all_goals first | exact hopen | exact hclose
    rw [hwork] at h
    exact hnext ▸ h

/-- What holds of the outcome of opening a store holds of the answer. -/
theorem reopen_of_yields {session : Session} {settings : Settings}
    (good : Except Failure Unit × Session → Prop)
    (h : Yields (Vault.open settings) session.disk (fun vault _ => good (.ok (), opened vault))
      fun failure disk => good (.error failure, closed disk)) : good (session.reopen settings) := by
  unfold Yields at h
  unfold reopen
  split at h
  · rename_i heq
    rw [heq]
    exact h
  · rename_i heq
    rw [heq]
    exact h

/-- What holds of the answer to a request, seen from what kind of request it is. -/
theorem next_of_cases {session : Session} {request : Request}
    (good : Except Failure Unit × Session → Prop)
    (hopen : ∀ settings, request = .open settings → Yields (Vault.open settings) session.disk
      (fun vault _ => good (.ok (), opened vault)) fun failure disk => good (.error failure, closed disk))
    (hclose : request = .close → good (.ok (), closed session.disk))
    (hclosed : ∀ disk, session = closed disk → good (.ok (), closed disk))
    (hwork : ∀ vault, session = opened vault → (∀ settings, request ≠ .open settings) →
      request ≠ .close → Yields (request.work registry) vault
        (fun _ after => good (.ok (), opened after))
        fun failure after => good (.error failure, opened after)) :
    good (session.next registry request) := by
  by_cases hrequest : ∃ settings, request = .open settings
  · obtain ⟨settings, rfl⟩ := hrequest
    exact reopen_of_yields good (hopen settings rfl)
  have hother : ∀ settings, request ≠ .open settings := fun settings heq => hrequest ⟨settings, heq⟩
  by_cases heq : request = .close
  · subst heq
    exact hclose rfl
  cases session with
  | closed disk =>
    have hnext : (closed disk).next registry request = (.ok (), closed disk) := by
      rw [next]
      all_goals first | rfl | exact hother | exact heq
    rw [hnext]
    exact hclosed disk rfl
  | opened vault => exact next_of_yields good hother heq (hwork vault rfl hother heq)

theorem History.mono {allowed allowed' : Session → Request → Prop} {start session : Session}
    {requests : List Request} (h : History registry allowed start requests session)
    (hallowed : ∀ session request, allowed session request → allowed' session request) :
    History registry allowed' start requests session := by
  induction h with
  | start => exact .start
  | step _ hstep ih => exact ih.step (hallowed _ _ hstep)

theorem History.eq_foldl {allowed : Session → Request → Prop} {start session : Session}
    {requests : List Request} (h : History registry allowed start requests session) :
    session = requests.foldl (fun now request => (now.next registry request).2) start := by
  induction h with
  | start => rfl
  | step _ _ ih => rw [List.foldl_append, ← ih, List.foldl_cons, List.foldl_nil]

/-- Requests lead from a session to just one other. -/
theorem History.unique {allowed allowed' : Session → Request → Prop}
    {start session session' : Session} {requests : List Request}
    (h : History registry allowed start requests session)
    (h' : History registry allowed' start requests session') : session = session' :=
  h.eq_foldl.trans h'.eq_foldl.symm

/-- Any requests may be made one after the other. -/
theorem History.foldl {start session : Session} {earlier : List Request}
    (h : History registry (fun _ _ => True) start earlier session) (requests : List Request) :
    History registry (fun _ _ => True) start (earlier ++ requests)
      (requests.foldl (fun session request => (session.next registry request).2) session) := by
  induction requests generalizing earlier session with
  | nil => simpa using h
  | cons request requests ih =>
    rw [List.append_cons]
    exact ih (h.step trivial)

/-- A request that is answered by some work leads to where the work leads if that succeeds. -/
theorem History.step_of_yields {α : Type} {allowed : Session → Request → Prop} {start : Session}
    {requests : List Request} {vault : Vault} {work : VaultM α} {post : Vault → Prop}
    (h : History registry allowed start requests (opened vault)) (request : Request)
    (hallowed : allowed (opened vault) request) (hinner : request.Inner)
    (hrequest : request.work registry = do let _ ← work)
    (hwork : Yields work vault (fun _ after => post after) fun _ _ => False) :
    ∃ after, History registry allowed start (requests ++ [request]) (opened after) ∧
      post after := by
  have hopen (settings : Settings) : request ≠ .open settings := by
    rintro rfl
    exact hinner
  have hclose : request ≠ .close := by
    rintro rfl
    exact hinner
  obtain ⟨after, hafter, hpost⟩ : ∃ after,
      ((opened vault).next registry request).2 = opened after ∧ post after := by
    apply next_of_yields (fun answer => ∃ after, answer.2 = opened after ∧ post after) hopen hclose
    rw [hrequest, yields_bind]
    apply hwork.mono
    · exact fun _ after hafter => ⟨after, rfl, hafter⟩
    · exact fun _ _ hfalse => hfalse.elim
  exact ⟨after, hafter ▸ h.step hallowed, hpost⟩

/-- A store that can be opened is. -/
theorem History.open_of_yields {allowed : Session → Request → Prop} {start session : Session}
    {requests : List Request} {post : Vault → Prop}
    (h : History registry allowed start requests session) (settings : Settings)
    (hallowed : allowed session (.open settings))
    (hopen : Yields (Vault.open settings) session.disk (fun vault _ => post vault)
      fun _ _ => False) :
    ∃ vault, History registry allowed start (requests ++ [.open settings]) (opened vault) ∧
      post vault := by
  obtain ⟨vault, hvault, hpost⟩ : ∃ vault,
      (session.next registry (.open settings)).2 = opened vault ∧ post vault := by
    apply reopen_of_yields fun answer => ∃ vault, answer.2 = opened vault ∧ post vault
    exact hopen.mono (fun vault _ hvault => ⟨vault, rfl, hvault⟩) fun _ _ hfalse => hfalse.elim
  exact ⟨vault, hvault ▸ h.step hallowed, hpost⟩

/-- What holds at the start and is kept by every request that is allowed holds throughout. -/
theorem History.invariant {allowed : Session → Request → Prop} {start session : Session}
    {requests : List Request} (inv : Session → Prop)
    (h : History registry allowed start requests session) (hstart : inv start)
    (hstep : ∀ session request, inv session → allowed session request →
      inv (session.next registry request).2) : inv session := by
  induction h with
  | start => exact hstart
  | step _ hallowed ih => exact hstep _ _ ih hallowed

end Session

namespace Vault

/-- A vertex set that a registered entity refers to stays one of its size. -/
def KeepsReferenced (before after : Vault) : Prop :=
  ∀ guid, before.RefersTo guid → ∀ set, before.get? guid = some (.vertexSet set) →
    ∃ set', after.get? guid = some (.vertexSet set') ∧ set'.size = set.size

/-- What fits goes on to fit, and what is referred to stays. -/
def Upholds (before after : Vault) : Prop :=
  (before.Fitting → after.Fitting) ∧ before.KeepsReferenced after

theorem Evolves.upholds {before after : Vault} (h : before.Evolves after) :
    before.Upholds after :=
  ⟨h.fitting, fun guid _ set hset => h.keepsSets guid set hset⟩

theorem upholds_of_erase {before after : Vault} {guid : Guid}
    (h : after.entities = before.entities.erase guid) (hguid : ¬ before.RefersTo guid) :
    before.Upholds after := by
  have hself : after.get? guid = none := by
    rw [Vault.get?, h]
    exact SortedMap.get?_erase_self _ _
  have hother : ∀ g, g ≠ guid → after.get? g = before.get? g := by
    intro g hg
    rw [Vault.get?, h]
    exact SortedMap.get?_erase_of_ne _ hg
  constructor
  · intro hfitting g entity hentity
    have hne : g ≠ guid := by
      rintro rfl
      rw [hself] at hentity
      cases hentity
    rw [hother g hne] at hentity
    refine (hfitting g entity hentity).congr fun r hr set hset => ?_
    have hr' : r ≠ guid := by
      rintro rfl
      exact hguid ⟨g, entity, hentity, hr⟩
    refine ⟨set, registered_eq_ok_iff.2 ?_, rfl⟩
    rw [hother r hr']
    exact registered_eq_ok_iff.1 hset
  · intro r hr set hset
    have hne : r ≠ guid := by
      rintro rfl
      exact hguid hr
    exact ⟨set, (hother r hne).trans hset, rfl⟩

theorem purge_yields (guid : Guid) (vault : Vault) :
    Yields (purge guid) vault (fun _ after => after.entities = vault.entities.erase guid)
      fun _ after => after.entities = vault.entities.erase guid := by
  simp only [purge, remove, yields_bind, yields_get, yields_set, yields_pure]
  refine (onDisk_yields _ _).mono (fun _ v₁ h₁ => ?_) fun _ _ h => h
  exact (modifyCatalog_yields _ v₁).mono (fun _ _ h₂ => h₂.trans h₁) fun _ _ h₂ => h₂.trans h₁

end Vault

/-- Requests to an open store, which drop an entity only if nothing refers to it. -/
def Session.Careful (session : Session) : Request → Prop
  | .open _ | .close => False
  | .remove guid | .purge guid => ∀ vault, session = .opened vault → ¬ vault.RefersTo guid
  | _ => True

namespace Request

open Vault

-- Of these only how they move a store is used.
attribute [local irreducible] Vault.put Vault.load Vault.getOrLoad Vault.persistFrom
  Vault.exportUnordered Vault.importWithin Executor.execute Executor.run

private theorem upholds_of_moves {α : Type} {work : VaultM α} (h : Moves Evolves work)
    (vault : Vault) :
    Yields (do let _ ← work) vault (fun _ after => vault.Upholds after)
      fun _ after => vault.Upholds after := by
  rw [yields_bind]
  exact (h vault).mono (fun _ _ h => h.upholds) fun _ _ h => h.upholds

theorem work_upholds (registry : Registry) {vault : Vault} {request : Request}
    (h : Session.Careful (.opened vault) request) :
    Yields (request.work registry) vault (fun _ after => vault.Upholds after)
      fun _ after => vault.Upholds after := by
  cases request with
  | «open» settings => exact h.elim
  | close => exact h.elim
  | get guid => exact (Std.Refl.refl vault : vault.Evolves vault).upholds
  | put guid entity => exact upholds_of_moves (moves_put guid entity) vault
  | remove guid => exact upholds_of_erase rfl (h vault rfl)
  | purge guid =>
    change Yields (Vault.purge guid >>= fun _ => pure ()) vault _ _
    rw [yields_bind]
    exact (purge_yields guid vault).mono (fun _ _ herase => upholds_of_erase herase (h vault rfl))
      fun _ _ herase => upholds_of_erase herase (h vault rfl)
  | persist guid => exact upholds_of_moves (moves_persistFrom guid none) vault
  | load guid => exact upholds_of_moves (finds_load.moves guid) vault
  | getOrLoad guid => exact upholds_of_moves (finds_getOrLoad.moves guid) vault
  | exportUnordered guid => exact upholds_of_moves (moves_exportUnordered guid) vault
  | importUnordered guid =>
    exact upholds_of_moves (.bind .get fun _ => moves_importWithin _ guid) vault
  | execute i => exact upholds_of_moves (Executor.moves_execute registry i) vault
  | run dag => exact upholds_of_moves (Executor.moves_run registry dag) vault

end Request

namespace Session

variable {registry : Registry}

theorem next_upholds {vault : Vault} {request : Request} (h : Careful (opened vault) request) :
    ∃ after, ((opened vault).next registry request).2 = opened after ∧ vault.Upholds after := by
  refine next_of_yields (fun answer => ∃ after, answer.2 = opened after ∧ vault.Upholds after)
    ?_ ?_ ?_
  · rintro settings rfl
    exact h.elim
  · rintro rfl
    exact h.elim
  · exact (request.work_upholds registry h).mono (fun _ after hafter => ⟨after, rfl, hafter⟩)
      fun _ after hafter => ⟨after, rfl, hafter⟩

/-- Whatever a store over any disk is asked for, failing requests included, every registered entity
is aligned with the vertex sets that are registered under its references, and passes validation
against exactly these. No request changes the kind or the size of a vertex set that a registered
entity refers to. -/
theorem history_fitting {vault : Vault} (hempty : vault.entities = SortedMap.empty)
    {requests : List Request} {session : Session}
    (h : History registry Careful (opened vault) requests session) :
    ∃ now, session = opened now ∧
      (∀ guid entity, now.get? guid = some entity →
        (∀ r ∈ entity.references, ∃ set, now.get? r = some (.vertexSet set)) ∧
        entity.validate guid now.registered = .ok () ∧ entity.Fits now.registered) ∧
      ∀ request, Careful session request →
        ∃ after, (session.next registry request).2 = opened after ∧ now.KeepsReferenced after := by
  have hfitting : ∃ now, session = opened now ∧ now.Fitting := by
    refine h.invariant (fun session => ∃ now, session = opened now ∧ now.Fitting) ?_ ?_
    · refine ⟨vault, rfl, fun guid entity hentity => ?_⟩
      rw [Vault.get?, hempty] at hentity
      cases hentity
    · rintro _ request ⟨now, rfl, hnow⟩ hallowed
      obtain ⟨after, hnext, hupholds⟩ := next_upholds hallowed
      exact ⟨after, hnext, hupholds.1 hnow⟩
  obtain ⟨now, rfl, hnow⟩ := hfitting
  refine ⟨now, rfl, fun guid entity hentity => ?_, fun request hallowed => ?_⟩
  · have hfits := hnow guid entity hentity
    refine ⟨fun r hr => ?_, Entity.validate_eq_ok_iff.2 hfits, hfits⟩
    obtain ⟨set, hset⟩ := hfits.resolved hr
    exact ⟨set, Vault.registered_eq_ok_iff.1 hset⟩
  · obtain ⟨after, hnext, hupholds⟩ := next_upholds hallowed
    exact ⟨after, hnext, hupholds.2⟩

/-- A column over a vertex set of two positions, and a longer one that is refused. -/
theorem history_fitting_column :
    let set : Request := .put (Guid.filled 1) (.vertexSet ⟨[7, 8]⟩)
    let column : Request :=
      .put (Guid.filled 2) (.column .double ⟨[Double.zero, Double.zero], [true, false], Guid.filled 1⟩)
    let refused : Request :=
      .put (Guid.filled 3) (.column .string ⟨["a", "b", "c"], [true, true, true], Guid.filled 1⟩)
    ∃ now, ((((((opened (Vault.inMemory Disk.empty)).next Registry.builtin set).2).next
        Registry.builtin column).2).next Registry.builtin refused).2 = opened now ∧
      now.has (Guid.filled 2) ∧ ¬ now.has (Guid.filled 3) ∧
      ∀ guid entity, now.get? guid = some entity →
        (∀ r ∈ entity.references, ∃ set, now.get? r = some (.vertexSet set)) ∧
        entity.validate guid now.registered = .ok () ∧ entity.Fits now.registered := by
  intro set column refused
  have hstart : History Registry.builtin Careful (opened (Vault.inMemory Disk.empty)) [] _ := .start
  have hset := hstart.step (show Careful _ set from trivial)
  have hcolumn := hset.step (show Careful _ column from trivial)
  have hrefused := hcolumn.step (show Careful _ refused from trivial)
  obtain ⟨now, hnow, hfits, -⟩ := history_fitting rfl hrefused
  refine ⟨now, hnow, ?_, ?_, hfits⟩
  · cases hnow
    rfl
  · cases hnow
    decide

end Session

end GraphVault
