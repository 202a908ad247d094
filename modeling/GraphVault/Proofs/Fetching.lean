import GraphVault.Proofs.ReadingBack

/-!
# Fetching what is there

A sound store over reliable roots fetches whatever it knows along with the vertex sets that this
refers to. So what guids stand for is loaded and put unless something of it is missing altogether.
-/

namespace GraphVault

open Disk

-- What these do is known from what they yield, so that they need not be looked into.
attribute [local irreducible] EntityDirectory.read EntityDirectory.contains

namespace Vault

variable {vault before between after : Vault} {guid : Guid} {entity : Entity}
  {new new' : Guid → Prop}

/-! ### What is loaded -/

/-- A store has an entity in memory, or in a complete copy. -/
def Knows (vault : Vault) (guid : Guid) : Prop := vault.has guid ∨ vault.hasPersisted guid

/-- A store has more in memory: what it has copies of, and what is new. -/
structure Loads (new : Guid → Prop) (before after : Vault) : Prop where
  settings : after.settings = before.settings
  catalog : after.catalog = before.catalog
  disk : after.disk = before.disk
  kept : ∀ guid, before.has guid → after.has guid
  only : ∀ guid, after.has guid → before.Knows guid ∨ new guid

namespace Loads

theorem hasPersisted (h : Loads new before after) (guid : Guid) :
    after.hasPersisted guid = before.hasPersisted guid := by
  rw [Vault.hasPersisted, Vault.hasPersisted, h.disk, h.settings]

theorem knows (h : Loads new before after) (hknows : before.Knows guid) : after.Knows guid := by
  apply hknows.imp (h.kept guid)
  rw [h.hasPersisted]
  exact id

theorem knows_or_new (h : Loads new before after) (hknows : after.Knows guid) :
    before.Knows guid ∨ new guid := by
  cases hknows with
  | inl hhas => exact h.only guid hhas
  | inr hpersisted =>
    rw [h.hasPersisted] at hpersisted
    exact .inl (.inr hpersisted)

/-- What is known anyway is not new. -/
theorem mono (h : Loads new before after) (hnew : ∀ guid, new guid → before.Knows guid ∨ new' guid) :
    Loads new' before after :=
  ⟨h.settings, h.catalog, h.disk, h.kept, fun guid hguid => (h.only guid hguid).elim .inl (hnew guid)⟩

instance : Std.Refl (Loads new) := ⟨fun _ => ⟨rfl, rfl, rfl, fun _ h => h, fun _ h => .inl (.inl h)⟩⟩

instance : Trans (Loads new) (Loads new) (Loads new) where
  trans hab hbc := by
    refine ⟨hbc.settings.trans hab.settings, hbc.catalog.trans hab.catalog, hbc.disk.trans hab.disk,
      fun guid h => hbc.kept guid (hab.kept guid h), fun guid h => ?_⟩
    cases hbc.only guid h with
    | inl hknows => exact hab.knows_or_new hknows
    | inr hnew => exact .inr hnew

theorem insert (vault : Vault) (entity : Entity) (h : new guid) :
    Loads new vault (vault.insert guid entity) := by
  refine ⟨rfl, rfl, rfl, fun x hx => ?_, fun x hx => ?_⟩
  · by_cases heq : x = guid
    · rw [heq]
      exact has_iff.2 ⟨entity, get?_insert_self vault guid entity⟩
    · rw [has_iff, get?_insert_of_ne vault entity heq]
      exact has_iff.1 hx
  · by_cases heq : x = guid
    · exact .inr (heq ▸ h)
    · rw [has_iff, get?_insert_of_ne vault entity heq] at hx
      exact .inl (.inl (has_iff.2 hx))

end Loads

/-- No guid is new. -/
abbrev Nothing (_ : Guid) : Prop := False

/-- Any guid may be new. -/
abbrev Anything (_ : Guid) : Prop := True

theorem Loads.anything (h : Loads new before after) : Loads Anything before after :=
  h.mono fun _ _ => .inr trivial

theorem loads_register (entity : Entity) (h : new guid) : Moves (Loads new) (register guid entity) := by
  intro vault
  simp only [register, yields_bind, yields_get]
  split
  · split
    · exact Std.Refl.refl vault
    · split
      · exact Std.Refl.refl vault
      · exact Loads.insert vault entity h
  · exact Loads.insert vault entity h

theorem loads_putWith {find : Guid → VaultM Entity} (hfind : ∀ guid, Moves (Loads new) (find guid))
    (entity : Entity) (h : new guid) : Moves (Loads new) (putWith find guid entity) :=
  .bind (moves_validate (fun r => .bind (hfind r) fun _ => .ofExcept _) entity guid) fun _ =>
    loads_register entity h

theorem loads_findWith {load : Guid → VaultM Entity} (hload : Moves (Loads new) (load guid)) :
    Moves (Loads new) (findWith load guid) := by
  refine .bind .get fun vault => ?_
  split
  · exact .pure _
  · split
    · exact hload
    · exact .throw _

/-- What is loaded has a copy, and so has what it refers to. -/
theorem loads_loadWithin (fuel : Nat) (guid : Guid) : Moves (Loads Nothing) (loadWithin fuel guid) := by
  induction fuel generalizing guid with
  | zero => exact .throw _
  | succ fuel ih =>
    intro vault
    have hfind (r : Guid) : Moves (Loads (· = guid)) (findWith (loadWithin fuel) r) :=
      (loads_findWith (ih r)).mono fun _ _ h => h.mono fun _ hfalse => hfalse.elim
    have hrequire (r : Guid) : Moves (Loads (· = guid)) (vertexSet r) := by
      refine .bind (.bind .get fun vault => ?_) fun _ => .ofExcept _
      split
      · exact .pure _
      · exact .throw _
    rw [loadWithin, yields_bind, yields_get, yields_bind]
    refine yields_ofExcept (fun stored hread => ?_) fun _ _ => Std.Refl.refl vault
    have hknows : vault.Knows guid := .inr (contains_of_read hread)
    have hrest : Moves (Loads (· = guid)) (do
        stored.manifest.references.forM fun reference => do
          let _ ← findWith (loadWithin fuel) reference.guid
        let entity ← Ordered.decode stored vertexSet
        putWith (findWith (loadWithin fuel)) guid entity) :=
      .bind (.forM fun reference _ => .bind (hfind _) fun _ => .pure _) fun _ =>
        .bind (moves_ordered_decode hrequire stored) fun entity => loads_putWith hfind entity rfl
    have hloaded {last : Vault} (h : Loads (· = guid) vault last) : Loads Nothing vault last :=
      h.mono fun _ heq => .inl (heq ▸ hknows)
    exact (hrest vault).mono (fun _ _ h => hloaded h) fun _ _ h => hloaded h

theorem loads_load (guid : Guid) : Moves (Loads Nothing) (load guid) :=
  .bind .get fun _ => loads_loadWithin _ guid

theorem loads_getOrLoad (guid : Guid) : Moves (Loads Nothing) (getOrLoad guid) :=
  loads_findWith (loads_load guid)

theorem loads_put (guid : Guid) (entity : Entity) : Moves (Loads (· = guid)) (put guid entity) :=
  loads_putWith (fun r => (loads_getOrLoad r).mono fun _ _ h => h.mono fun _ hfalse => hfalse.elim)
    entity rfl

/-- What is imported may have no copy but an exchange copy. -/
theorem loads_importWithin (fuel : Nat) (guid : Guid) :
    Moves (Loads Anything) (importWithin fuel guid) := by
  induction fuel generalizing guid with
  | zero => exact .throw _
  | succ fuel ih =>
    have hresolve (r : Guid) : Moves (Loads Anything) (resolve r) :=
      .bind ((loads_getOrLoad r).mono fun _ _ h => h.anything) fun _ => .ofExcept _
    refine .bind .get fun vault => .bind (.ofExcept _) fun stored =>
      .bind (.forM fun reference _ => .bind .get fun now => ?_) fun _ => ?_
    · dsimp only
      split
      · exact .bind (ih reference.guid) fun _ => .pure _
      · exact .pure _
    · refine .bind (moves_unordered_decode hresolve stored) fun entity => ?_
      exact (loads_put guid entity).mono fun _ _ h => h.anything

theorem loads_importUnordered (guid : Guid) : Moves (Loads Anything) (importUnordered guid) :=
  .bind .get fun _ => loads_importWithin _ guid

end Vault

namespace Premise

open Vault

variable {p : Premise} {vault start now : Vault} {guid r : Guid} {entity : Entity} {set : VertexSet}
  {outputs : List (Guid × Entity)}

/-! ### What is found -/

/-- A complete copy is read, and is the one that belongs there. -/
theorem Sound.exists_read (h : p.Sound vault) (hreliable : p.reliable)
    (hpersisted : vault.hasPersisted guid) :
    ∃ stored, p.content.copy guid = some stored ∧
      EntityDirectory.read vault.disk vault.settings.dataDir guid = .ok stored := by
  have hkept : ∀ b, base vault.settings.dataDir = .ok b → Kept p.content.copy b vault.disk := by
    rw [h.dataDir]
    exact h.kept
  obtain ⟨stored, hcopy, hread, -⟩ :=
    EntityDirectory.read_of_kept p.coherent.filed hkept hpersisted
  exact ⟨stored, hcopy, hread (p.readable hreliable guid stored hcopy)⟩

/-- A vertex set that is known can be had. -/
theorem Sound.hasSet (h : p.Sound vault) (hreliable : p.reliable)
    (hset : p.content guid = some (.vertexSet set)) (hknows : vault.Knows guid) :
    vault.HasSet guid set := by
  cases hget : vault.get? guid with
  | some entity => exact .inl (hget.trans (congrArg some ((h.memory guid entity hget).eq_vertexSet hset)))
  | none =>
    have hpersisted : vault.hasPersisted guid := by
      apply hknows.resolve_left
      rw [has_iff, hget]
      exact fun hsome => Option.some_ne_none _ hsome.choose_spec.symm
    obtain ⟨stored, hcopy, hread⟩ := h.exists_read hreliable hpersisted
    obtain ⟨-, found, hdecode, hmeans⟩ := p.coherent.decode_copy hcopy
    have hreferences : stored.manifest.references = [] := by
      obtain ⟨assigned, hassigned, hencode⟩ := Assignment.exists_of_copy hcopy
      rw [hset, Option.some.injEq] at hassigned
      subst hassigned
      cases hencode
      rfl
    refine .inr ⟨hget, stored, hread, hreferences, ?_⟩
    rw [hmeans.eq_vertexSet hset] at hdecode
    apply Ordered.decode_congr hdecode
    rw [hreferences]
    exact nofun

/-- What a guid stands for is known, and so are the vertex sets that it refers to. -/
def Available (p : Premise) (vault : Vault) (guid : Guid) : Prop :=
  ∃ assigned, p.content guid = some assigned ∧ ∀ x ∈ guid :: assigned.references, vault.Knows x

theorem available_vertexSet_iff (hset : p.content guid = some (.vertexSet set)) :
    p.Available vault guid ↔ vault.Knows guid := by
  simp [Available, hset, Entity.references]

theorem Available.loads {new : Guid → Prop} (h : p.Available start guid)
    (hloads : Loads new start vault) : p.Available vault guid := by
  obtain ⟨assigned, hassigned, hknows⟩ := h
  exact ⟨assigned, hassigned, fun x hx => hloads.knows (hknows x hx)⟩

private theorem exists_sets (h : p.content guid = some entity) :
    ∃ sets : Guid → VertexSet, ∀ r ∈ entity.references, p.content r = some (.vertexSet (sets r)) := by
  refine ⟨fun r => (p.content.resolver r).toOption.getD ⟨[]⟩, fun r hr => ?_⟩
  obtain ⟨set, hset⟩ := (p.coherent.fits guid entity h).resolved hr
  simp only [hset]
  exact Assignment.resolver_eq_ok_iff.1 hset

/-- What is available is found. -/
theorem Sound.getOrLoad_finds (h : p.Sound vault) (hreliable : p.reliable)
    (havailable : p.Available vault guid) :
    Yields (getOrLoad guid) vault (fun _ _ => True) fun _ _ => False := by
  obtain ⟨assigned, hassigned, hknows⟩ := havailable
  cases hget : vault.get? guid with
  | some entity =>
    exact (findWith_of_registered hget).mono (fun _ _ _ => trivial) fun _ _ hfalse => hfalse
  | none =>
    have hpersisted : vault.hasPersisted guid := by
      apply (hknows guid List.mem_cons_self).resolve_left
      rw [has_iff, hget]
      exact fun hsome => Option.some_ne_none _ hsome.choose_spec.symm
    obtain ⟨stored, hcopy, hread⟩ := h.exists_read hreliable hpersisted
    obtain ⟨-, found, hdecode, hmeans⟩ := p.coherent.decode_copy hcopy
    obtain ⟨sets, hsets⟩ := exists_sets hassigned
    have hfound : found.references = assigned.references := by
      obtain ⟨other, hother, hsame⟩ := hmeans
      rw [hassigned, Option.some.injEq] at hother
      rw [hother, Entity.references_eq_of_sameContent hsame]
    have hset : ∀ r ∈ assigned.references, vault.HasSet r (sets r) := fun r hr =>
      h.hasSet hreliable (hsets r hr) (hknows r (List.mem_cons_of_mem guid hr))
    have hresolver {r : Guid} (hr : r ∈ assigned.references) :
        p.content.resolver r = finals assigned.references sets r := by
      rw [finals_of_mem hr]
      exact Assignment.resolver_eq_ok_iff.2 (hsets r hr)
    have hstores : vault.StoresOver assigned.references sets guid found := by
      have hmem : ∀ reference ∈ stored.manifest.references,
          reference.guid ∈ assigned.references := by
        intro reference hreference
        obtain ⟨other, -, hother, hmem, -⟩ := p.coherent.references_copy hcopy hreference
        rw [hassigned, Option.some.injEq] at hother
        exact hother ▸ hmem
      refine ⟨stored, hread, hmem, Ordered.decode_congr hdecode fun reference hreference => ?_, ?_⟩
      · exact (hresolver (hmem reference hreference)).symm
      · refine (hmeans.fits p.coherent).congr fun r hr set hset => ⟨set, ?_, rfl⟩
        rw [← hresolver (hfound ▸ hr)]
        exact hset
    have hsupplied : Supplied vault guid assigned.references sets := by
      refine ⟨fun hmem => ?_, fun r hr => p.coherent.fits r _ (hsets r hr),
        fun r hr hlacks => absurd hlacks (hset r hr).not_lacks⟩
      -- a vertex set refers to nothing, let alone to itself
      have heq := hassigned.symm.trans (hsets guid hmem)
      rw [Option.some.inj heq] at hmem
      cases hmem
    have hgathering : Gathering vault guid assigned.references sets assigned.references vault :=
      ⟨rfl, rfl, hget, fun r hr => .inl (hset r hr)⟩
    obtain ⟨fuel, hdepth⟩ := depth_of_contains hpersisted
    simp only [getOrLoad, findWith, load, yields_bind, yields_get, hget, hpersisted, if_true, hdepth]
    exact (loadWithin_yields hstores hgathering hsupplied fuel).mono (fun _ _ _ => trivial)
      fun _ _ hfalse => hfalse

/-! ### Working from a sound store on -/

/-- Work that loads what is there and fails only as is tolerated. -/
abbrev Fetches {α : Type} (p : Premise) (start : Vault) (tolerated : Failure → Prop)
    (good : α → Prop) (work : VaultM α) : Prop :=
  GraphVault.Keeps (fun now => p.Sound now ∧ Loads Nothing start now) tolerated good work

theorem fetches_getOrLoad (hreliable : p.reliable) (start : Vault) (guid : Guid) :
    p.Fetches start (fun _ => ¬ p.Available start guid)
      (fun entity => start.Knows guid ∧ p.content.Means guid entity) (getOrLoad guid) := by
  have hkeeps := (keeps_getOrLoad p guid).and_moves (loads_getOrLoad guid) start
  constructor
  intro now hnow
  have hfails : Yields (getOrLoad guid) now (fun _ _ => True) fun _ _ =>
      ¬ p.Available start guid := by
    by_cases havailable : p.Available start guid
    · have hfinds := hnow.1.getOrLoad_finds hreliable (havailable.loads hnow.2)
      exact hfinds.mono (fun _ _ h => h) fun _ _ hfalse => hfalse.elim
    · exact (hkeeps.yields now hnow).mono (fun _ _ _ => trivial) fun _ _ _ => havailable
  apply (((hkeeps.yields now hnow).and (finds_getOrLoad guid now)).and hfails).mono
  · rintro entity after ⟨⟨⟨hafter, hmeans⟩, -, hget⟩, -⟩
    refine ⟨hafter, (hafter.2.only guid (has_iff.2 ⟨entity, hget⟩)).resolve_right id, hmeans⟩
  · exact fun _ _ h => ⟨h.1.1.1, h.2⟩

/-- Whether an entity is accepted depends on whether the vertex sets are known that it refers to. -/
theorem fetches_validate (hreliable : p.reliable) (start : Vault) (h : p.content.Means guid entity) :
    p.Fetches start (fun _ => ¬ ∀ r ∈ entity.references, start.Knows r) (fun _ => True)
      (entity.validate guid (resolveWith getOrLoad)) := by
  have hresolve : ∀ r ∈ entity.references, GraphVault.Follows
      (fun now => p.Sound now ∧ Loads Nothing start now)
      (fun _ => ¬ ∀ r ∈ entity.references, start.Knows r) (p.content.resolver r)
      (resolveWith getOrLoad r) := by
    intro r hr set hresolved
    have hset := Assignment.resolver_eq_ok_iff.1 hresolved
    have hfind := (fetches_getOrLoad hreliable start r).mono (fun _ hfound => hfound)
      fun _ hunavailable (hall : ∀ r ∈ entity.references, start.Knows r) =>
        hunavailable ((available_vertexSet_iff hset).2 (hall r hr))
    refine hfind.bind fun found hfound => ?_
    rw [hfound.2.eq_vertexSet hset]
    exact .pure rfl
  exact (Entity.follows_validate hresolve guid () (Entity.validate_eq_ok_iff.2 (h.fits p.coherent))).mono
    (fun _ _ => trivial) fun _ hfailure => hfailure

/-- What a guid stands for is registered, if it is not yet. -/
theorem Sound.register_yields (h : p.Sound vault) (hmeans : p.content.Means guid entity) :
    Yields (register guid entity) vault
      (fun _ after => p.Sound after ∧ Loads (· = guid) vault after ∧ after.has guid)
      fun _ _ => False := by
  simp only [register, yields_bind, yields_get]
  cases hget : vault.get? guid with
  | none =>
    refine ⟨h.insert hmeans, Loads.insert vault entity rfl, has_iff.2 ⟨entity, ?_⟩⟩
    exact get?_insert_self vault guid entity
  | some registered =>
    simp only [(h.memory guid registered hget).sameContent hmeans, if_true]
    exact ⟨h, Std.Refl.refl vault, has_iff.2 ⟨registered, hget⟩⟩

/-- What a guid stands for is put unless a vertex set is missing that it refers to. -/
theorem Sound.put_yields (h : p.Sound vault) (hreliable : p.reliable)
    (hmeans : p.content.Means guid entity) :
    Yields (Vault.put guid entity) vault
      (fun _ after => p.Sound after ∧ Loads (· = guid) vault after ∧
        ∀ x ∈ guid :: entity.references, after.has x)
      fun _ after => p.Sound after ∧ Loads Nothing vault after ∧
        ¬ ∀ r ∈ entity.references, vault.Knows r := by
  have hvalid := ((fetches_validate hreliable vault hmeans).yields vault
    ⟨h, Std.Refl.refl vault⟩).and (validate_yields finds_getOrLoad entity guid vault)
  rw [Vault.put, putWith, yields_bind]
  apply hvalid.mono
  · rintro - between ⟨⟨⟨hbetween, hloads⟩, -⟩, -, hfits⟩
    apply (hbetween.register_yields hmeans).mono ?_ fun _ _ hfalse => hfalse.elim
    rintro - after ⟨hafter, hregistered, hhas⟩
    have hloads' : Loads (· = guid) vault between := hloads.mono fun _ hfalse => hfalse.elim
    refine ⟨hafter, Trans.trans hloads' hregistered, fun x hx => ?_⟩
    cases List.mem_cons.1 hx with
    | inl heq => exact heq ▸ hhas
    | inr hr =>
      obtain ⟨set, hset⟩ := hfits.resolved hr
      exact hregistered.kept x (has_iff.2 ⟨_, registered_eq_ok_iff.1 hset⟩)
  · rintro _ after ⟨⟨⟨hafter, hloads⟩, hmissing⟩, -⟩
    exact ⟨hafter, hloads, hmissing⟩

/-- What guids stand for is put one after the other, until a vertex set is missing that is not among
what was put before. -/
theorem Sound.puts_yields (h : p.Sound vault) (hreliable : p.reliable)
    (hmeans : ∀ output ∈ outputs, p.content.Means output.1 output.2) :
    Yields (outputs.forM fun (guid, entity) => do let _ ← Vault.put guid entity) vault
      (fun _ after => p.Sound after ∧ Loads (· ∈ outputs.map (·.1)) vault after ∧
        ∀ output ∈ outputs, ∀ x ∈ output.1 :: output.2.references, after.has x)
      fun _ after => p.Sound after ∧ ∃ front output back, outputs = front ++ output :: back ∧
        Loads (· ∈ front.map (·.1)) vault after ∧
        ¬ ∀ r ∈ output.2.references, vault.Knows r ∨ r ∈ front.map (·.1) := by
  induction outputs generalizing vault with
  | nil => exact ⟨h, Std.Refl.refl vault, nofun⟩
  | cons output outputs ih =>
    simp only [List.forM_eq_forM, List.forM_cons, yields_bind, yields_pure]
    apply (h.put_yields hreliable (hmeans output List.mem_cons_self)).mono
    · rintro - between ⟨hbetween, hloads, hhas⟩
      have hgrown {outputs : List (Guid × Entity)} {last : Vault}
          (hlast : Loads (· ∈ outputs.map (·.1)) between last) :
          Loads (· ∈ (output :: outputs).map (·.1)) vault last := by
        rw [List.map_cons]
        have hfirst : Loads (· ∈ output.1 :: outputs.map (·.1)) vault between :=
          hloads.mono fun _ heq => .inr (heq ▸ List.mem_cons_self)
        have hrest : Loads (· ∈ output.1 :: outputs.map (·.1)) between last :=
          hlast.mono fun _ hmem => .inr (List.mem_cons_of_mem _ hmem)
        exact Trans.trans hfirst hrest
      apply (ih hbetween fun other hother => hmeans other (List.mem_cons_of_mem _ hother)).mono
      · rintro - after ⟨hafter, hrest, hall⟩
        refine ⟨hafter, hgrown hrest, fun other hother x hx => ?_⟩
        cases List.mem_cons.1 hother with
        | inl heq => exact hrest.kept x (hhas x (heq ▸ hx))
        | inr hmem => exact hall other hmem x hx
      · rintro _ after ⟨hafter, front, other, back, rfl, hrest, hmissing⟩
        refine ⟨hafter, output :: front, other, back, rfl, hgrown hrest, fun hall => hmissing ?_⟩
        intro r hr
        rcases hall r hr with hknows | hmem
        · exact .inl (hloads.knows hknows)
        · cases List.mem_cons.1 hmem with
          | inl heq => exact .inl (.inl (heq ▸ hhas _ List.mem_cons_self))
          | inr hmem => exact .inr hmem
    · rintro _ after ⟨hafter, hloads, hmissing⟩
      refine ⟨hafter, [], output, outputs, rfl, hloads.mono fun _ hfalse => hfalse.elim, fun hall => ?_⟩
      exact hmissing fun r hr => (hall r hr).resolve_right List.not_mem_nil

end Premise

end GraphVault
