import GraphVault.Proofs.ExternalView
import GraphVault.Proofs.Gathering

/-!
# Exporting

A store writes exchange copies of what it has in memory below a root that can be used, one after the
other. Each of them is complete and is read back, whatever is exported afterwards
(`Vault.exportAll_yields`).
-/

namespace GraphVault

open Disk EntityDirectory

namespace Vault

-- What these do is known from what they yield, so that they need not be looked into.
attribute [local irreducible] EntityDirectory.read EntityDirectory.write EntityDirectory.contains

variable {vault now : Vault} {b : Address} {guid : Guid} {entity : Entity} {stored : Stored}

/-- The exchange copy of what is registered under a guid. -/
def exchangeCopy (vault : Vault) (guid : Guid) : Except Failure Stored :=
  match vault.get? guid with
  | some entity => Unordered.encode guid entity vault.registered
  | none => .error (.missingEntity guid)

theorem exchangeCopy_eq (h : vault.get? guid = some entity) :
    vault.exchangeCopy guid = Unordered.encode guid entity vault.registered := by
  rw [exchangeCopy, h]

/-- Exports entities one after the other. -/
def exportAll (guids : List Guid) : VaultM Unit :=
  guids.forM fun guid => do let _ ← exportUnordered guid

/-- While a store exports, only the disk changes: what has been exported can be read, and of what
has not been there is no trace. -/
private structure Exporting (vault : Vault) (b : Address) (targets done : List Guid) (now : Vault) :
    Prop where
  entities : now.entities = vault.entities
  settings : now.settings = vault.settings
  usable : UsableRoot vault.settings.unorderedDir b now.disk
  exported : ∀ x ∈ done, ∃ stored, vault.exchangeCopy x = .ok stored ∧
    EntityDirectory.read now.disk vault.settings.unorderedDir x = .ok stored
  fresh : ∀ x ∈ targets, x ∉ done → ¬ Marked b x now.disk

section Exporting

variable {targets done : List Guid}

private theorem Exporting.wrote (h : Exporting vault b targets done now)
    (hcopy : vault.exchangeCopy guid = .ok stored) (hnew : guid ∉ done) {disk : Disk}
    (hwrote : Wrote vault.settings.unorderedDir b guid stored now.disk disk)
    (hread : EntityDirectory.read disk vault.settings.unorderedDir guid = .ok stored) :
    Exporting vault b targets (guid :: done) { now with disk } := by
  constructor
  case entities => exact h.entities
  case settings => exact h.settings
  case usable => exact hwrote.usable
  case exported =>
    intro x hx
    cases List.mem_cons.1 hx with
    | inl heq =>
      subst heq
      exact ⟨stored, hcopy, hread⟩
    | inr hbefore =>
      have hne : x ≠ guid := by
        intro heq
        exact hnew (heq ▸ hbefore)
      obtain ⟨other, hother, hthere⟩ := h.exported x hbefore
      exact ⟨other, hother, (hwrote.spares x hne).read h.usable hthere⟩
  case fresh =>
    intro x hx hnot hmarked
    rw [List.mem_cons, not_or] at hnot
    exact h.fresh x hx hnot.2 (hwrote.marks x hnot.1 hmarked)

private theorem Exporting.step (h : Exporting vault b targets done now) (htarget : guid ∈ targets)
    (hcopy : vault.exchangeCopy guid = .ok stored) (hguid : stored.manifest.guid = guid)
    (hreferences : stored.manifest.references.length < 2 ^ 64) (hreadable : Readable stored) :
    Yields (exportUnordered guid) now
      (fun _ after => Exporting vault b targets (guid :: done) after) fun _ _ => False := by
  have hget : now.get? = vault.get? := by
    funext x
    rw [get?, h.entities, get?]
  have hregistered : now.registered = vault.registered := by
    funext x
    rw [registered, hget, registered]
  obtain ⟨entity, hentity⟩ : ∃ entity, vault.get? guid = some entity := by
    cases hentity : vault.get? guid with
    | some entity => exact ⟨entity, rfl⟩
    | none =>
      rw [exchangeCopy, hentity] at hcopy
      cases hcopy
  have hencode : Unordered.encode guid entity now.registered = .ok stored := by
    rw [hregistered, ← exchangeCopy_eq hentity, hcopy]
  have hfollows := Unordered.follows_encode (follows_registered now) guid entity stored hencode
  rw [exportUnordered, yields_bind]
  refine (findWith_of_registered (hget ▸ hentity)).mono ?_ fun _ _ hfalse => hfalse
  rintro found after ⟨rfl, rfl⟩
  rw [yields_bind]
  refine (hfollows.yields after rfl).mono ?_ fun _ _ hfalse => hfalse.2
  intro written last hwritten
  rw [hwritten.1, hwritten.2, yields_bind, yields_get, h.settings, write, yields_bind,
    onDisk_yields_iff]
  by_cases hdone : guid ∈ done
  · obtain ⟨_, -, hread⟩ := h.exported guid hdone
    have hcontains := contains_of_read hread
    rw [← hguid] at hcontains
    apply (write_of_contains hcontains).mono ?_ fun _ _ hfalse => hfalse
    rintro - disk rfl
    refine ⟨h.entities, h.settings, h.usable, ?_, ?_⟩
    · intro x hx
      cases List.mem_cons.1 hx with
      | inl heq => exact heq ▸ h.exported guid hdone
      | inr hx => exact h.exported x hx
    · intro x hx hnot
      exact h.fresh x hx fun hmem => hnot (List.mem_cons_of_mem _ hmem)
  · apply (write_wrote h.usable hguid (h.fresh guid htarget hdone)).mono ?_
      fun _ _ hfalse => hfalse
    intro _ disk hdisk
    exact h.wrote hcopy hdone hdisk (hdisk.read hguid hreferences hreadable)

end Exporting

/-- A store that can export an entity and the vertex sets that it refers to. Nothing has been
exported under their guids, and the copies are within the limits of reading. -/
structure Exports (vault : Vault) (b : Address) (guid : Guid) (entity : Entity) : Prop where
  fitting : ∀ x ∈ guid :: entity.references, ∀ e, vault.get? x = some e → e.Fits vault.registered
  registered : vault.get? guid = some entity
  usable : UsableRoot vault.settings.unorderedDir b vault.disk
  fresh : ∀ x ∈ guid :: entity.references, ¬ Marked b x vault.disk
  rowCount : ∀ x ∈ guid :: entity.references, ∀ e, vault.get? x = some e → e.rowCount ≤ 2 ^ 32
  rowFile : ∀ x ∈ guid :: entity.references, ∀ stored, vault.exchangeCopy x = .ok stored →
    stored.rows.length ≤ 2 * 1024 ^ 3

namespace Exports

variable {x : Guid}

theorem exists_registered (h : vault.Exports b guid entity) (hx : x ∈ guid :: entity.references) :
    ∃ e, vault.get? x = some e := by
  cases List.mem_cons.1 hx with
  | inl heq => exact ⟨entity, heq ▸ h.registered⟩
  | inr hreference =>
    have hfits := h.fitting guid List.mem_cons_self entity h.registered
    obtain ⟨set, hset⟩ := hfits.resolved hreference
    exact ⟨_, registered_eq_ok_iff.1 hset⟩

theorem exists_copy (h : vault.Exports b guid entity) (hx : x ∈ guid :: entity.references) :
    ∃ stored, vault.exchangeCopy x = .ok stored ∧ stored.manifest.guid = x ∧
      stored.manifest.references.length ≤ 2 ∧ Readable stored := by
  obtain ⟨e, he⟩ := h.exists_registered hx
  have hfits := h.fitting x hx e he
  obtain ⟨stored, hencode⟩ := Unordered.exists_encode x hfits
  have hcopy : vault.exchangeCopy x = .ok stored := by rw [exchangeCopy_eq he, hencode]
  obtain ⟨hguid, hcount, hsets⟩ := Unordered.manifest_of_encode hfits hencode
  have hreferences : stored.manifest.references.length ≤ 2 := by
    have hlength := congrArg List.length hsets
    have htwo := e.length_sets_le
    rw [List.length_map] at hlength
    omega
  exact ⟨stored, hcopy, hguid, hreferences, readable_of_limits hreferences hcount
    (h.rowCount x hx e he) (h.rowFile x hx stored hcopy)⟩

end Exports

private theorem exporting_forM (h : vault.Exports b guid entity) {exports : List Guid}
    (hexports : ∀ x ∈ exports, x ∈ guid :: entity.references) {done : List Guid}
    (hnow : Exporting vault b (guid :: entity.references) done now) :
    Yields (exportAll exports) now
      (fun _ after => ∃ all, (∀ x, x ∈ exports ∨ x ∈ done → x ∈ all) ∧
        Exporting vault b (guid :: entity.references) all after) fun _ _ => False := by
  induction exports generalizing done now with
  | nil => exact ⟨done, fun x hx => hx.resolve_left List.not_mem_nil, hnow⟩
  | cons x exports ih =>
    have htarget := hexports x List.mem_cons_self
    obtain ⟨stored, hcopy, hguid, hreferences, hreadable⟩ := h.exists_copy htarget
    have hstep := hnow.step htarget hcopy hguid (by omega) hreadable
    have hrest := fun y hy => hexports y (List.mem_cons_of_mem x hy)
    unfold exportAll at ih ⊢
    simp only [List.forM_eq_forM, List.forM_cons, yields_bind, yields_pure] at ih ⊢
    apply hstep.mono ?_ fun _ _ hfalse => hfalse
    intro _ after hafter
    apply (ih hrest hafter).mono ?_ fun _ _ hfalse => hfalse
    rintro - last ⟨all, hall, hlast⟩
    refine ⟨all, fun y hy => hall y ?_, hlast⟩
    simp only [List.mem_cons] at hy ⊢
    tauto

/-- Exporting an entity and its vertex sets, in any order, leaves a readable copy of each. -/
theorem exportAll_yields (h : vault.Exports b guid entity) {exports : List Guid}
    (hexports : ∀ x, x ∈ exports ↔ x ∈ guid :: entity.references) :
    Yields (exportAll exports) vault
      (fun _ after => ∀ x ∈ guid :: entity.references, ∃ stored, vault.exchangeCopy x = .ok stored ∧
        EntityDirectory.read after.disk after.settings.unorderedDir x = .ok stored)
      fun _ _ => False := by
  have hstart : Exporting vault b (guid :: entity.references) [] vault :=
    ⟨rfl, rfl, h.usable, nofun, fun x hx _ => h.fresh x hx⟩
  apply (exporting_forM h (fun x hx => (hexports x).1 hx) hstart).mono ?_ fun _ _ hfalse => hfalse
  rintro - after ⟨all, hall, hafter⟩ x hx
  rw [hafter.settings]
  exact hafter.exported x (hall x (.inl ((hexports x).2 hx)))

end Vault

end GraphVault
