import GraphVault.Proofs.Exporting

/-!
# Importing

What one store has exported, another one imports, with the vertex sets that it has itself or else
with those that were exported along. Main statement: what it registers looks from outside like what
was exported (`Vault.import_of_exports`).
-/

namespace GraphVault

open Disk

namespace Vault

-- What these do is known from what they yield, so that they need not be looked into.
attribute [local irreducible] EntityDirectory.read EntityDirectory.contains

variable {vault now : Vault} {guid r : Guid} {set : VertexSet}

section Supplying

variable {refs settled : List Guid} {target : Guid → VertexSet}

private theorem unordered_vertexSet (hnodup : set.mapping.Nodup) (hsize : set.size < 2 ^ 64)
    {stored : Stored} {sets resolve : Guid → Except Failure VertexSet}
    (h : Unordered.encode guid (.vertexSet set) sets = .ok stored) :
    Unordered.decode stored resolve = .ok (.vertexSet ⟨Unordered.ascending set.mapping⟩) := by
  cases h
  have hrows : RowFile.decode RowFile.vertexRow guid (UInt64.ofNat set.size)
      (RowFile.encode RowFile.vertexRow set.mapping) = .ok set.mapping :=
    RowFile.decode_encode hsize (fun id _ => Wire.Codec.restores_integer id) guid
  have hsorted : Unordered.sorted guid set.mapping = .ok ⟨Unordered.ascending set.mapping⟩ :=
    Unordered.sorted_eq_ok_iff.2 ⟨hnodup, rfl⟩
  simp only [Unordered.decode, Entity.kind, ofExcept_eq, hrows, hsorted, bind, Except.bind]
  rfl

/-- What an import does about one reference. -/
private def supply (load : Guid → VaultM Entity) (root : String) (reference : Guid) :
    VaultM PUnit := do
  let vault ← get
  let known := vault.has reference || vault.hasPersisted reference
  if !known && EntityDirectory.contains vault.disk root reference then
    let _ ← load reference

private theorem Gathering.supply (h : Gathering vault guid refs target settled now)
    (hsupplied : Supplied vault guid refs target) (hr : r ∈ refs) (fuel : Nat) :
    Yields (supply (importWithin (fuel + 1)) vault.settings.unorderedDir r) now
      (fun _ after => Gathering vault guid refs target (r :: settled) after) fun _ _ => False := by
  have hhas : now.has r = (now.get? r).isSome := rfl
  rw [Vault.supply, yields_bind, yields_get]
  rcases h.sets r hr with hset | ⟨hnone, hnew, hlacks⟩
  · have hknown : now.has r || now.hasPersisted r := by
      rcases hset with hget | ⟨-, hstores⟩
      · rw [hhas, hget]
        rfl
      · rw [hstores.hasPersisted, Bool.or_true]
    simp only [hknown, Bool.not_true, Bool.false_and]
    exact h.settle hset
  · obtain ⟨stored, hread, hreferences, hdecode⟩ := hsupplied.staged r hr hlacks
    have hpersisted : now.hasPersisted r = false := by
      rw [hasPersisted, h.disk, h.settings]
      exact hlacks.2
    have hstaged : EntityDirectory.contains now.disk vault.settings.unorderedDir r := by
      rw [h.disk]
      exact contains_of_read hread
    have hfollows := Unordered.follows_decode (follows_noSets resolve now) stored _ hdecode
    simp only [hhas, hnone, hpersisted, hstaged, Option.isSome_none, Bool.or_false,
      Bool.not_false, Bool.true_and, if_true]
    rw [importWithin]
    simp only [yields_bind, yields_get, h.disk, h.settings, hread, yields_ofExcept_ok, hreferences]
    apply (hfollows.yields now rfl).mono ?_ fun _ _ hfalse => hfalse.2
    rintro found after ⟨rfl, rfl⟩
    apply (putWith_vertexSet hnone (hsupplied.distinct r hr) _).mono ?_ fun _ _ hfalse => hfalse
    rintro _ _ ⟨-, rfl⟩
    exact h.insert hsupplied.foreign hr

private theorem Gathering.supplyAll (h : Gathering vault guid refs target settled now)
    (hsupplied : Supplied vault guid refs target) (fuel : Nat) {references : List Reference}
    (hreferences : ∀ reference ∈ references, reference.guid ∈ refs) :
    Yields (references.forM fun reference => Vault.supply (importWithin (fuel + 1))
        vault.settings.unorderedDir reference.guid) now
      (fun _ after => ∃ all, (∀ x, x ∈ references.map (·.guid) ∨ x ∈ settled → x ∈ all) ∧
        Gathering vault guid refs target all after) fun _ _ => False := by
  induction references generalizing settled now with
  | nil => exact ⟨settled, fun x hx => hx.resolve_left List.not_mem_nil, h⟩
  | cons reference references ih =>
    have hfirst := h.supply hsupplied (hreferences reference List.mem_cons_self) fuel
    have hrest := fun x hx => hreferences x (List.mem_cons_of_mem reference hx)
    rw [List.forM_eq_forM, List.forM_cons, yields_bind]
    apply hfirst.mono ?_ fun _ _ hfalse => hfalse
    intro _ after hafter
    apply (ih hafter hrest).mono ?_ fun _ _ hfalse => hfalse
    rintro - last ⟨all, hall, hlast⟩
    refine ⟨all, fun x hx => hall x ?_, hlast⟩
    simp only [List.map_cons, List.mem_cons] at hx ⊢
    tauto

private theorem import_yields (h : Gathering vault guid refs target [] vault)
    (hsupplied : Supplied vault guid refs target) {stored : Stored}
    (hread : EntityDirectory.read vault.disk vault.settings.unorderedDir guid = .ok stored)
    (hrefs : ∀ x, x ∈ stored.manifest.references.map (·.guid) ↔ x ∈ refs) {entity : Entity}
    (hdecode : Unordered.decode stored (finals refs target) = .ok entity)
    (hfits : entity.Fits (finals refs target)) :
    Yields (importUnordered guid) vault
      (fun found after => found = entity ∧ after.get? guid = some entity ∧
        ∀ x ∈ refs, x ∈ entity.references → after.registered x = .ok (target x))
      fun _ _ => False := by
  obtain ⟨fuel, hdepth⟩ := depth_of_contains (contains_of_read hread)
  have hmentioned : ∀ reference ∈ stored.manifest.references, reference.guid ∈ refs := by
    intro reference hreference
    exact (hrefs _).1 (List.mem_map_of_mem hreference)
  rw [importUnordered, yields_bind, yields_get, hdepth, importWithin]
  simp only [yields_bind, yields_get, hread, yields_ofExcept_ok]
  apply (h.supplyAll hsupplied fuel hmentioned).mono ?_
    fun _ _ hfalse => hfalse
  rintro - ready ⟨settled, hall, hready⟩
  have hsettled : ∀ x ∈ refs, x ∈ settled := fun x hx => hall x (.inl ((hrefs x).2 hx))
  have hfollows := Unordered.follows_decode (follows_finals hsupplied loadsSets_load hsettled)
    stored entity hdecode
  apply (hfollows.yields ready hready).mono ?_ fun _ _ hfalse => hfalse.2
  rintro found before ⟨hbefore, rfl⟩
  exact hbefore.put hsupplied loadsSets_load finds_load hsettled hfits

end Supplying

/-- A store that can import what another one has exported. It sees the same exchange copies and does
not know the entity, and each vertex set that is needed is unknown as well, or is there with the
same external ids in any order. -/
structure Receives (vault sender sent : Vault) (guid : Guid) (entity : Entity) : Prop where
  staging : ∀ x ∈ guid :: entity.references,
    EntityDirectory.read vault.disk vault.settings.unorderedDir x
      = EntityDirectory.read sent.disk sent.settings.unorderedDir x
  unknown : vault.get? guid = none
  sets : ∀ r ∈ entity.references, ∀ set, sender.registered r = .ok set →
    vault.Lacks r ∨ ∃ held, vault.HasSet r held ∧ held.mapping.Perm set.mapping

/-- The vertex set that a receiving store comes to under a guid: its own one, or else the exported
one in the order of the external ids. -/
private def Comes (vault : Vault) (r : Guid) (set final : VertexSet) : Prop :=
  vault.Lacks r ∧ final = ⟨Unordered.ascending set.mapping⟩ ∨
    vault.HasSet r final ∧ final.mapping.Perm set.mapping

private theorem Comes.perm {final : VertexSet} (h : vault.Comes r set final) :
    final.mapping.Perm set.mapping := by
  rcases h with ⟨-, rfl⟩ | ⟨-, hperm⟩
  · exact Unordered.ascending_perm set.mapping
  · exact hperm

section Exchange

variable {vault sender sent : Vault} {b : Address} {entity : Entity}

private theorem Receives.exists_target (h : vault.Receives sender sent guid entity) :
    ∃ target : Guid → VertexSet, ∀ r ∈ entity.references, ∀ set, sender.registered r = .ok set →
      vault.Comes r set (target r) := by
  have hcomes (r : Guid) : ∃ final, r ∈ entity.references → ∀ set, sender.registered r = .ok set →
      vault.Comes r set final := by
    by_cases hr : r ∈ entity.references
    · cases hset : sender.registered r with
      | error failure => exact ⟨⟨[]⟩, nofun⟩
      | ok set =>
        rcases h.sets r hr set hset with hlacks | ⟨held, hheld, hperm⟩
        · refine ⟨⟨Unordered.ascending set.mapping⟩, fun _ set' hset' => ?_⟩
          cases hset'
          exact .inl ⟨hlacks, rfl⟩
        · refine ⟨held, fun _ set' hset' => ?_⟩
          cases hset'
          exact .inr ⟨hheld, hperm⟩
    · exact ⟨⟨[]⟩, fun hmem => absurd hmem hr⟩
  exact Classical.skolem.1 hcomes

private theorem Exports.distinct (h : sender.Exports b guid entity) (hr : r ∈ entity.references)
    (hset : sender.registered r = .ok set) : set.mapping.Nodup ∧ set.size ≤ 2 ^ 32 := by
  have hmem := List.mem_cons_of_mem guid hr
  have hget := registered_eq_ok_iff.1 hset
  exact ⟨h.fitting r hmem _ hget, h.rowCount r hmem _ hget⟩

private theorem Exports.supplied (h : sender.Exports b guid entity)
    (hkind : entity.kind ≠ .vertexSet)
    (hstaged : ∀ x ∈ guid :: entity.references, ∃ stored, sender.exchangeCopy x = .ok stored ∧
      EntityDirectory.read vault.disk vault.settings.unorderedDir x = .ok stored)
    {target : Guid → VertexSet} (htarget : ∀ r ∈ entity.references, ∀ set,
      sender.registered r = .ok set → vault.Comes r set (target r)) :
    Supplied vault guid entity.references target := by
  have hfits := h.fitting guid List.mem_cons_self entity h.registered
  constructor
  case foreign =>
    intro hmem
    obtain ⟨set, hset⟩ := hfits.resolved hmem
    have hget := h.registered.symm.trans (registered_eq_ok_iff.1 hset)
    cases hget
    exact hkind rfl
  case distinct =>
    intro r hr
    obtain ⟨set, hset⟩ := hfits.resolved hr
    exact (htarget r hr set hset).perm.nodup_iff.2 (h.distinct hr hset).1
  case staged =>
    intro r hr hlacks
    obtain ⟨set, hset⟩ := hfits.resolved hr
    obtain ⟨hnodup, hsize⟩ := h.distinct hr hset
    obtain ⟨stored, hcopy, hread⟩ := hstaged r (List.mem_cons_of_mem guid hr)
    rw [exchangeCopy_eq (registered_eq_ok_iff.1 hset)] at hcopy
    obtain ⟨-, -, hsets⟩ := Unordered.manifest_of_encode (e := .vertexSet set) hnodup hcopy
    refine ⟨stored, hread, List.map_eq_nil_iff.1 hsets, ?_⟩
    have hfinal : target r = ⟨Unordered.ascending set.mapping⟩ := by
      rcases htarget r hr set hset with ⟨-, heq⟩ | ⟨hheld, -⟩
      · exact heq
      · exact absurd hlacks hheld.not_lacks
    rw [hfinal]
    exact unordered_vertexSet hnodup (by omega) hcopy

private theorem Exports.gathering (h : sender.Exports b guid entity)
    (hreceives : vault.Receives sender sent guid entity) {target : Guid → VertexSet}
    (htarget : ∀ r ∈ entity.references, ∀ set, sender.registered r = .ok set →
      vault.Comes r set (target r)) :
    Gathering vault guid entity.references target [] vault := by
  refine ⟨rfl, rfl, hreceives.unknown, fun r hr => ?_⟩
  have hfits := h.fitting guid List.mem_cons_self entity h.registered
  obtain ⟨set, hset⟩ := hfits.resolved hr
  cases htarget r hr set hset with
  | inl hlacks => exact .inr ⟨hlacks.1.1, List.not_mem_nil, hlacks.1⟩
  | inr hheld => exact .inl hheld.1

/-- What one store exports, any other one that numbers the external ids in its own way can import.
The vertex sets that it lacks come to be registered in the order of the external ids, and the entity
looks the same from outside. It is the same where nothing is numbered anew and its edges are in
order. -/
theorem import_of_exports (h : sender.Exports b guid entity) (hkind : entity.kind ≠ .vertexSet)
    {exports : List Guid} (hexports : ∀ x, x ∈ exports ↔ x ∈ guid :: entity.references) :
    ∃ sent, exportAll exports sender = .ok () sent ∧
      ∀ vault : Vault, vault.Receives sender sent guid entity →
        ∃ entity' after, importUnordered guid vault = .ok entity' after ∧
          after.get? guid = some entity' ∧
          Entity.Reimported sender.registered after.registered entity entity' ∧
          (∀ r ∈ entity.references, ∀ set, sender.registered r = .ok set →
            (vault.Lacks r → after.registered r = .ok ⟨Unordered.ascending set.mapping⟩) ∧
            ∀ held, vault.HasSet r held → after.registered r = .ok held) ∧
          ((∀ r ∈ entity.references, ∀ set, sender.registered r = .ok set →
              set.mapping.Pairwise (· < ·) ∧ ∀ held, vault.HasSet r held → held = set) →
            (∀ bundle, entity = .edgeBundle bundle → bundle.ids.Pairwise (· ≤ ·)) →
            entity'.sameContent entity) := by
  obtain ⟨⟨⟩, sent, hsent, hstaged⟩ := (exportAll_yields h hexports).exists_ok
  refine ⟨sent, hsent, fun vault hreceives => ?_⟩
  have hfits := h.fitting guid List.mem_cons_self entity h.registered
  have hstaged' : ∀ x ∈ guid :: entity.references, ∃ stored, sender.exchangeCopy x = .ok stored ∧
      EntityDirectory.read vault.disk vault.settings.unorderedDir x = .ok stored := by
    intro x hx
    obtain ⟨stored, hcopy, hread⟩ := hstaged x hx
    exact ⟨stored, hcopy, (hreceives.staging x hx).trans hread⟩
  obtain ⟨target, htarget⟩ := hreceives.exists_target
  have hsupplied := h.supplied hkind hstaged' htarget
  have hstart := h.gathering hreceives htarget
  obtain ⟨stored, hcopy, hread⟩ := hstaged' guid List.mem_cons_self
  have hfile := h.rowFile guid List.mem_cons_self stored hcopy
  have hcount := h.rowCount guid List.mem_cons_self entity h.registered
  rw [exchangeCopy_eq h.registered] at hcopy
  obtain ⟨-, -, hsets⟩ := Unordered.manifest_of_encode hfits hcopy
  have hrefs : ∀ x, x ∈ stored.manifest.references.map (·.guid) ↔ x ∈ entity.references := by
    intro x
    rw [hsets]
    exact Entity.mem_sets_iff
  have hnumbered : ∀ r ∈ entity.references, ∀ set, sender.registered r = .ok set →
      set.mapping.Nodup ∧ set.size < 2 ^ 64 ∧ ∃ set',
        finals entity.references target r = .ok set' ∧ set'.mapping.Perm set.mapping := by
    intro r hr set hset
    obtain ⟨hnodup, hsize⟩ := h.distinct hr hset
    exact ⟨hnodup, by omega, target r, finals_of_mem hr, (htarget r hr set hset).perm⟩
  obtain ⟨entity', hdecode, hfits', hview, hsame⟩ :=
    Unordered.exists_decode_encode hfits hkind hnumbered (by omega) hcopy (by omega)
  have hreferences : ∀ x ∈ entity.references, x ∈ entity'.references := by
    intro x hx
    rw [hview.references_eq]
    exact hx
  obtain ⟨_, after, hafter, rfl, hget, hregistered⟩ := (import_yields hstart hsupplied hread hrefs
    hdecode hfits').exists_ok
  have hregistered := fun x hx => hregistered x hx (hreferences x hx)
  refine ⟨_, after, hafter, hget, ?_, ?_, ?_⟩
  · apply hview.congr
    intro r hr set hset
    rw [finals_of_mem hr] at hset
    exact (hregistered r hr).trans hset
  · intro r hr set hset
    rw [hregistered r hr]
    rcases htarget r hr set hset with ⟨hlacks, heq⟩ | ⟨hheld, -⟩
    · exact ⟨fun _ => by rw [heq], fun held hheld => absurd hlacks hheld.not_lacks⟩
    · exact ⟨fun hlacks => absurd hlacks hheld.not_lacks,
        fun held hheld' => by rw [hheld.eq hheld']⟩
  · intro hunchanged hsorted
    apply hsame ?_ hsorted
    intro r hr
    obtain ⟨set, hset⟩ := hfits.resolved hr
    obtain ⟨hincreasing, hheld⟩ := hunchanged r hr set hset
    rw [finals_of_mem hr, hset, Except.ok.injEq]
    rcases htarget r hr set hset with ⟨-, heq⟩ | ⟨hhas, -⟩
    · rw [heq, Unordered.ascending_of_pairwise (hincreasing.imp Int64.le_of_lt)]
    · exact hheld _ hhas

end Exchange

theorem import_of_exports_renumbered :
    let column : Entity := .column .double ⟨[Double.zero, ⟨1⟩], [false, true], Guid.filled 1⟩
    let ids : SortedMap Guid Entity :=
      SortedMap.empty.insert (Guid.filled 1) (.vertexSet ⟨[7, 8]⟩)
    let sender : Vault := ⟨⟨"data", "exchange", .overwrite, false, false⟩,
      ids.insert (Guid.filled 2) column, none, Disk.empty⟩
    let receiver (sent : Vault) : Vault :=
      { sent with entities := SortedMap.empty.insert (Guid.filled 1) (.vertexSet ⟨[8, 7]⟩) }
    sender.Exports ["exchange"] (Guid.filled 2) column ∧
      ∃ sent, exportAll [Guid.filled 2, Guid.filled 1] sender = .ok () sent ∧
        (receiver sent).Receives sender sent (Guid.filled 2) column ∧
        ∃ entity' after, importUnordered (Guid.filled 2) (receiver sent) = .ok entity' after ∧
          after.get? (Guid.filled 2) = some entity' ∧
          after.registered (Guid.filled 1) = .ok ⟨[8, 7]⟩ ∧
          Entity.Reimported sender.registered after.registered column entity' := by
  intro column ids sender receiver
  have hset : sender.get? (Guid.filled 1) = some (.vertexSet ⟨[7, 8]⟩) := rfl
  have hcolumn : sender.get? (Guid.filled 2) = some column := rfl
  have hregistered : sender.registered (Guid.filled 1) = .ok ⟨[7, 8]⟩ := rfl
  have hmem : ∀ x ∈ Guid.filled 2 :: column.references, x = Guid.filled 2 ∨ x = Guid.filled 1 := by
    intro x hx
    simpa [column, Entity.references] using hx
  have hexports : sender.Exports ["exchange"] (Guid.filled 2) column := by
    constructor
    case fitting =>
      intro x hx e he
      rcases hmem x hx with rfl | rfl
      · cases hcolumn.symm.trans he
        exact ⟨_, hregistered, rfl, rfl⟩
      · cases hset.symm.trans he
        simp [Entity.Fits]
    case registered => rfl
    case usable =>
      exact usableRoot_empty (by decide)
    case fresh =>
      exact fun x _ => not_marked_empty _ x
    case rowCount =>
      intro x hx e he
      rcases hmem x hx with rfl | rfl
      · cases hcolumn.symm.trans he
        decide
      · cases hset.symm.trans he
        decide
    case rowFile =>
      intro x hx stored hcopy
      rcases hmem x hx with rfl | rfl
      · cases hcopy
        decide
      · cases hcopy
        decide
  obtain ⟨sent, hsent, himport⟩ := import_of_exports hexports (by decide) (fun _ => Iff.rfl)
  have hheld : (receiver sent).HasSet (Guid.filled 1) ⟨[8, 7]⟩ := .inl rfl
  have hreceives : (receiver sent).Receives sender sent (Guid.filled 2) column := by
    refine ⟨fun _ _ => rfl, rfl, fun r hr set hknown => .inr ⟨⟨[8, 7]⟩, ?_, ?_⟩⟩
    · cases List.mem_singleton.1 hr
      exact hheld
    · cases List.mem_singleton.1 hr
      cases hregistered.symm.trans hknown
      exact .swap _ _ _
  obtain ⟨entity', after, hafter, hget, hview, hsets, -⟩ := himport _ hreceives
  refine ⟨hexports, sent, hsent, hreceives, entity', after, hafter, hget, ?_, hview⟩
  exact (hsets _ (List.mem_singleton.2 rfl) _ hregistered).2 _ hheld

end Vault

end GraphVault
