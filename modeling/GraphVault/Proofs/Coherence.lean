import GraphVault.Proofs.Copies
import GraphVault.Proofs.Sites

/-!
# Coherence

Where every entity that is put has the content that its guid stands for, a store holds nothing else,
in memory or on disk. What is registered or stored under a guid may come and go, but whatever work
finds is what it expects: no guid ever holds different content, and everything that is read fits.
Work can only miss what is not there, unless the disk cannot be relied upon.
-/

namespace GraphVault

open Disk

/-- Whether a failure comes from the disk or from what is stored on it. -/
def Failure.OfDisk : Failure → Prop
  | io _ | storage _ | serialization _ => True
  | _ => False

/-- What the work of a store rests on. -/
structure Premise where
  content : Assignment
  coherent : content.Coherent
  site : Site
  /-- Whether the roots can be used, and copies are small enough to be read. -/
  reliable : Prop
  readable : reliable → ∀ guid stored, content.copy guid = some stored →
    EntityDirectory.Readable stored

namespace Premise

/-- The failures that have to be expected. -/
def Tolerates (p : Premise) (failure : Failure) : Prop :=
  (∃ guid, failure = .missingEntity guid) ∨ ¬ p.reliable ∧ failure.OfDisk

/-- A store that holds nothing but what guids stand for, over a disk that is as it has to be. -/
structure Sound (p : Premise) (vault : Vault) : Prop where
  dataDir : vault.settings.dataDir = p.site.dataDir
  unorderedDir : p.reliable → vault.settings.unorderedDir = p.site.unorderedDir
  memory : ∀ guid entity, vault.get? guid = some entity → p.content.Means guid entity
  kept : ∀ b, base p.site.dataDir = .ok b → Kept p.content.copy b vault.disk
  ready : p.reliable → p.site.Ready vault.catalog vault.disk

/-- Work that keeps a store sound. -/
abbrev Keeps {α : Type} (p : Premise) (good : α → Prop) (work : VaultM α) : Prop :=
  GraphVault.Keeps p.Sound p.Tolerates good work

/-- Work that keeps a store sound and comes to a given result. -/
abbrev Follows {α : Type} (p : Premise) (result : Except Failure α) (work : VaultM α) : Prop :=
  GraphVault.Follows p.Sound p.Tolerates result work

variable {p : Premise} {vault : Vault} {guid : Guid} {entity : Entity}

theorem tolerates_missing (p : Premise) (guid : Guid) : p.Tolerates (.missingEntity guid) :=
  .inl ⟨guid, rfl⟩

theorem Sound.insert (h : p.Sound vault) (hmeans : p.content.Means guid entity) :
    p.Sound { vault with entities := vault.entities.insert guid entity } := by
  refine ⟨h.dataDir, h.unorderedDir, fun g e he => ?_, h.kept, h.ready⟩
  by_cases heq : g = guid
  · subst heq
    have hself : (vault.entities.insert g entity).get? g = some e := he
    rw [SortedMap.get?_insert_self, Option.some.injEq] at hself
    rw [← hself]
    exact hmeans
  · have hother : (vault.entities.insert guid entity).get? g = some e := he
    rw [SortedMap.get?_insert_of_ne _ _ heq] at hother
    exact h.memory g e hother

theorem Sound.erase (h : p.Sound vault) (guid : Guid) :
    p.Sound { vault with entities := vault.entities.erase guid } := by
  refine ⟨h.dataDir, h.unorderedDir, fun g e he => ?_, h.kept, h.ready⟩
  have hafter : (vault.entities.erase guid).get? g = some e := he
  by_cases heq : g = guid
  · subst heq
    rw [SortedMap.get?_erase_self] at hafter
    cases hafter
  · rw [SortedMap.get?_erase_of_ne _ heq] at hafter
    exact h.memory g e hafter

theorem Sound.onDisk (h : p.Sound vault) {disk : Disk}
    (hkept : ∀ b, base p.site.dataDir = .ok b → Kept p.content.copy b disk)
    (hready : p.reliable → p.site.Ready vault.catalog disk) : p.Sound { vault with disk } :=
  ⟨h.dataDir, h.unorderedDir, h.memory, hkept, hready⟩

end Premise

namespace Vault

-- What these do is known from what they yield, so that they need not be looked into.
attribute [local irreducible] EntityDirectory.read EntityDirectory.write EntityDirectory.remove
  EntityDirectory.contains

variable {p : Premise} {guid : Guid} {entity : Entity}

/-! ### Memory -/

theorem keeps_require (p : Premise) (guid : Guid) :
    p.Keeps (p.content.Means guid) (require guid) := by
  refine .bind_get fun vault hvault => ?_
  split
  · rename_i entity hentity
    exact ⟨hvault, hvault.memory guid entity hentity⟩
  · exact ⟨hvault, p.tolerates_missing guid⟩

/-- What is put under a guid is registered, or was registered with the same content. -/
theorem keeps_register (h : p.content.Means guid entity) :
    p.Keeps (p.content.Means guid) (register guid entity) := by
  refine .bind_get fun vault hvault => ?_
  cases hget : vault.get? guid with
  | none => exact ⟨hvault.insert h, h⟩
  | some registered =>
    have hregistered := hvault.memory guid registered hget
    simp only [hregistered.sameContent h, if_true]
    exact ⟨hvault, hregistered⟩

theorem keeps_remove (p : Premise) (guid : Guid) : p.Keeps (fun _ => True) (remove guid) :=
  .bind_get fun _ hvault => ⟨hvault.erase guid, trivial⟩

/-! ### Loading -/

/-- What is looked up where a vertex set is expected is that vertex set. -/
theorem follows_resolveWith {find : Guid → VaultM Entity}
    (h : ∀ set, p.content guid = some (.vertexSet set) →
      p.Keeps (p.content.Means guid) (find guid)) :
    p.Follows (p.content.resolver guid) (resolveWith find guid) := by
  intro set hset
  have hassigned := Assignment.resolver_eq_ok_iff.1 hset
  refine (h set hassigned).bind fun entity hentity => ?_
  rw [hentity.eq_vertexSet hassigned]
  exact .pure rfl

theorem keeps_putWith {find : Guid → VaultM Entity} (h : p.content.Means guid entity)
    (hfind : ∀ r ∈ entity.references, ∀ set, p.content r = some (.vertexSet set) →
      p.Keeps (p.content.Means r) (find r)) :
    p.Keeps (p.content.Means guid) (putWith find guid entity) := by
  have hvalid : entity.validate guid p.content.resolver = .ok () :=
    Entity.validate_eq_ok_iff.2 (h.fits p.coherent)
  have hfollows := Entity.follows_validate
    (fun r hr => follows_resolveWith (hfind r hr)) guid
  exact (hfollows () hvalid).bind fun _ _ => keeps_register h

theorem keeps_findWith {load : Guid → VaultM Entity}
    (h : p.Keeps (p.content.Means guid) (load guid)) :
    p.Keeps (p.content.Means guid) (findWith load guid) := by
  refine .bind_get fun vault hvault => ?_
  split
  · rename_i entity hentity
    exact ⟨hvault, hvault.memory guid entity hentity⟩
  · split
    · exact h.yields vault hvault
    · exact ⟨hvault, p.tolerates_missing guid⟩

theorem follows_vertexSet (p : Premise) (guid : Guid) :
    p.Follows (p.content.resolver guid) (vertexSet guid) :=
  follows_resolveWith fun _ _ => keeps_require p guid

/-- A copy is read, unless it is not there. -/
private theorem read_yields {vault : Vault} (hvault : p.Sound vault) (guid : Guid) :
    (∀ stored, EntityDirectory.read vault.disk vault.settings.dataDir guid = .ok stored →
      p.content.copy guid = some stored) ∧
    ∀ failure, EntityDirectory.read vault.disk vault.settings.dataDir guid = .error failure →
      p.Tolerates failure := by
  rw [hvault.dataDir]
  cases hcontains : EntityDirectory.contains vault.disk p.site.dataDir guid with
  | false =>
    rw [EntityDirectory.read_of_not_contains hcontains]
    refine ⟨nofun, fun failure h => ?_⟩
    cases h
    exact p.tolerates_missing guid
  | true =>
    obtain ⟨stored, hcopy, hsucceeds, hresult⟩ :=
      EntityDirectory.read_of_kept p.coherent.filed hvault.kept hcontains
    cases hresult with
    | inl hread =>
      rw [hread]
      refine ⟨fun _ h => ?_, nofun⟩
      cases h
      exact hcopy
    | inr hread =>
      obtain ⟨fault, hread⟩ := hread
      have hunreliable : ¬ p.reliable := by
        intro hreliable
        rw [hsucceeds (p.readable hreliable guid stored hcopy)] at hread
        cases hread
      rw [hread]
      refine ⟨nofun, fun failure h => ?_⟩
      cases h
      exact .inr ⟨hunreliable, trivial⟩

/-- A copy is loaded once what it refers to can be found. -/
private theorem keeps_loadWithin_succ {fuel : Nat}
    (h : ∀ entity, p.content guid = some entity → ∀ r ∈ entity.references, ∀ set,
      p.content r = some (.vertexSet set) →
        p.Keeps (p.content.Means r) (findWith (loadWithin fuel) r)) :
    p.Keeps (p.content.Means guid) (loadWithin (fuel + 1) guid) := by
  refine .bind_get fun vault hvault => ?_
  obtain ⟨hok, herror⟩ := read_yields hvault guid
  rw [yields_bind]
  refine yields_ofExcept (fun stored hread => ?_) fun failure hread => ⟨hvault, herror failure hread⟩
  have hcopy := hok stored hread
  obtain ⟨-, found, hdecode, hmeans⟩ := p.coherent.decode_copy hcopy
  obtain ⟨assigned, hassigned, hsame⟩ := id hmeans
  have hload : p.Keeps (fun _ => True) (stored.manifest.references.forM fun reference => do
      let _ ← findWith (loadWithin fuel) reference.guid) := by
    refine .forM fun reference hreference => ?_
    obtain ⟨entity, set, hentity, hmem, hset⟩ := p.coherent.references_copy hcopy hreference
    exact (h entity hentity _ hmem set hset).bind fun _ _ => .pure trivial
  refine (hload.bind fun _ _ => ?_).yields vault hvault
  refine (Ordered.follows_decode (follows_vertexSet p) stored found hdecode).bind fun entity he => ?_
  subst he
  refine keeps_putWith hmeans fun r hr => ?_
  rw [← Entity.references_eq_of_sameContent hsame] at hr
  exact h assigned hassigned r hr

private theorem keeps_loadWithin_set {set : VertexSet} (h : p.content guid = some (.vertexSet set))
    (fuel : Nat) : p.Keeps (p.content.Means guid) (loadWithin (fuel + 1) guid) := by
  refine keeps_loadWithin_succ fun entity hentity r hr => ?_
  rw [h, Option.some.injEq] at hentity
  subst hentity
  cases hr

/-- References lead to vertex sets, which refer to nothing. -/
theorem keeps_loadWithin (p : Premise) (fuel : Nat) (guid : Guid) :
    p.Keeps (p.content.Means guid) (loadWithin (fuel + 2) guid) :=
  keeps_loadWithin_succ fun _ _ _ _ _ hset => keeps_findWith (keeps_loadWithin_set hset fuel)

/-- Where there is a complete copy, two references may be followed. -/
theorem depth_of_contains {vault : Vault} {root : String}
    (h : EntityDirectory.contains vault.disk root guid) : ∃ fuel, vault.depth = fuel + 2 := by
  obtain ⟨-, b, -, -, node, hnode, -⟩ := EntityDirectory.contains_iff.1 h
  rw [node?, isPermanent_text] at hnode
  have hsize : 0 < vault.disk.nodes.size :=
    List.length_pos_of_mem (SortedMap.get?_eq_some_iff.1 hnode)
  refine ⟨vault.disk.nodes.size - 1, ?_⟩
  rw [depth]
  omega

section

variable {inv : Vault → Prop} {tolerated : Failure → Prop}

/-- Two references may be followed, or else there is nothing to be loaded. -/
theorem keeps_load_of_within {good : Entity → Prop} (hmissing : tolerated (.missingEntity guid))
    (h : ∀ fuel, GraphVault.Keeps inv tolerated good (loadWithin (fuel + 2) guid)) :
    GraphVault.Keeps inv tolerated good (load guid) := by
  refine .bind_get fun vault hvault => ?_
  cases hcontains : EntityDirectory.contains vault.disk vault.settings.dataDir guid with
  | false =>
    rw [depth, loadWithin]
    simp only [yields_bind, yields_get, EntityDirectory.read_of_not_contains hcontains,
      yields_ofExcept_error]
    exact ⟨hvault, hmissing⟩
  | true =>
    obtain ⟨fuel, hdepth⟩ := depth_of_contains hcontains
    rw [hdepth]
    exact (h fuel).yields vault hvault

/-- Two references may be followed, or else there is nothing to be persisted. -/
theorem keeps_persistFrom_of_within {good : String → Prop} {producer : Option Guid}
    (hmissing : tolerated (.missingEntity guid))
    (h : ∀ fuel, GraphVault.Keeps inv tolerated good (persistWithin (fuel + 2) guid producer)) :
    GraphVault.Keeps inv tolerated good (persistFrom guid producer) := by
  refine .bind_get fun vault hvault => ?_
  cases hentity : vault.get? guid with
  | none =>
    rw [persistWithin, yields_bind]
    simp only [require, yields_bind, yields_get, hentity, yields_throw]
    exact ⟨hvault, hmissing⟩
  | some entity =>
    have hsize : 0 < vault.entities.size :=
      List.length_pos_of_mem (SortedMap.get?_eq_some_iff.1 hentity)
    have hfuel : vault.entities.size + 1 = vault.entities.size - 1 + 2 := by omega
    rw [hfuel]
    exact (h _).yields vault hvault

end

theorem keeps_load (p : Premise) (guid : Guid) :
    p.Keeps (p.content.Means guid) (load guid) :=
  keeps_load_of_within (p.tolerates_missing guid) fun fuel => keeps_loadWithin p fuel guid

theorem keeps_getOrLoad (p : Premise) (guid : Guid) :
    p.Keeps (p.content.Means guid) (getOrLoad guid) := keeps_findWith (keeps_load p guid)

theorem follows_resolve (p : Premise) (guid : Guid) :
    p.Follows (p.content.resolver guid) (resolve guid) :=
  follows_resolveWith fun _ _ => keeps_getOrLoad p guid

theorem keeps_put (h : p.content.Means guid entity) :
    p.Keeps (p.content.Means guid) (put guid entity) :=
  keeps_putWith h fun r _ _ _ => keeps_getOrLoad p r

/-! ### Writing -/

/-- What work on the disk does, the failures included, holds for the vault. -/
theorem onDisk_yields_iff {α : Type} {work : DiskM α} {vault : Vault} {post : α → Vault → Prop}
    {fail : Failure → Vault → Prop} :
    Yields (onDisk work) vault post fail ↔
      Yields work vault.disk (fun a disk => post a { vault with disk })
        fun failure disk => fail failure { vault with disk } := by
  have hrun : work.run vault.disk = work vault.disk := rfl
  unfold Yields onDisk
  rw [hrun]
  cases work vault.disk <;> rfl

theorem keeps_modifyCatalog {change : Catalog → Catalog}
    (h : ∀ catalog : Catalog, catalog.Legible → (change catalog).Legible) :
    p.Keeps (fun _ => True) (modifyCatalog change) := by
  constructor
  intro vault hvault
  rw [modifyCatalog, yields_modify]
  refine ⟨?_, trivial⟩
  split
  · exact hvault
  · rename_i id hid
    refine hvault.onDisk (fun b hb => ?_) fun hreliable => ?_
    · exact (hvault.kept b hb).of_agreesBut fun _ _ => rfl
    · have hready := hvault.ready hreliable
      rw [hid] at hready ⊢
      exact hready.setCatalog (h _ (hready.legible id rfl))

theorem keeps_record (p : Premise) (guid : Guid) (entity : Entity) (producer : Option Guid) :
    p.Keeps (fun _ => True) (record guid entity producer) := by
  refine .bind_get fun vault hvault => ?_
  split
  · exact ⟨hvault, trivial⟩
  · rename_i catalog hcatalog
    have hrecord (entry : Catalog.Entry) :
        p.Keeps (fun _ => True) (modifyCatalog (·.recordEntity entry)) :=
      keeps_modifyCatalog fun _ hlegible => hlegible.recordEntity entry
    split
    · exact (hrecord _).yields vault hvault
    · rw [yields_bind]
      refine yields_ofExcept (fun entry _ => (hrecord _).yields vault hvault) fun failure hfailure => ?_
      refine ⟨hvault, .inr ⟨fun hreliable => ?_, ?_⟩⟩
      · obtain ⟨id, hid, rfl⟩ := Option.map_eq_some_iff.1 hcatalog
        obtain ⟨entry, hentry⟩ := (hvault.ready hreliable).legible id hid guid
        rw [hentry] at hfailure
        cases hfailure
      · unfold Catalog.entity? Catalog.find at hfailure
        split at hfailure
        · cases hfailure
        · unfold Catalog.readRecord at hfailure
          split at hfailure
          · cases hfailure
          · cases hfailure
            trivial

/-- A copy is written below the root of the data. -/
theorem keeps_write {stored : Stored} (h : p.content.copy guid = some stored) :
    p.Keeps (fun _ => True) (write p.site.dataDir stored) := by
  have hguid := (p.coherent.decode_copy h).1
  constructor
  intro vault hvault
  have hpublish {b : Address} (hb : base p.site.dataDir = .ok b) {allowed : Address → Prop}
      {grown : Disk} (hgrows : Grows allowed vault.disk grown) :
      ∀ b', base p.site.dataDir = .ok b' → Kept p.content.copy b'
        (EntityDirectory.publish grown (b ++ [stored.manifest.guid.text]) stored) := by
    intro b' hb'
    rw [hb, Except.ok.injEq] at hb'
    subst hb'
    rw [hguid]
    exact ((hvault.kept b hb).grows hgrows).publish h
  rw [write, yields_bind, onDisk_yields_iff]
  by_cases hreliable : p.reliable
  · have hready := hvault.ready hreliable
    refine (hready.write_yields (.inl ⟨rfl, rfl⟩) stored).mono (fun _ disk hdisk => ?_)
      fun _ _ hfalse => hfalse.elim
    refine ⟨hvault.onDisk ?_ fun _ => hdisk.1, trivial⟩
    cases hdisk.2 with
    | inl heq =>
      rw [heq]
      exact hvault.kept
    | inr hpublished =>
      obtain ⟨grown, hgrows, rfl⟩ := hpublished
      exact hpublish hready.data.way.walk_eq hgrows
  · have hnot {disk : Disk} (hready : p.reliable) : p.site.Ready vault.catalog disk :=
      absurd hready hreliable
    refine (EntityDirectory.write_yields _ stored vault.disk).mono (fun _ disk hdisk => ?_)
      fun failure disk hdisk => ?_
    · refine ⟨hvault.onDisk ?_ hnot, trivial⟩
      cases hdisk with
      | inl heq =>
        rw [heq]
        exact hvault.kept
      | inr hpublished =>
        obtain ⟨grown, b, hgrows, hb, rfl⟩ := hpublished
        exact hpublish hb hgrows
    · obtain ⟨⟨fault, rfl⟩, hgrows⟩ := hdisk
      exact ⟨hvault.onDisk (fun b hb => (hvault.kept b hb).grows hgrows) hnot,
        .inr ⟨hreliable, trivial⟩⟩

private theorem keeps_persistWithin_succ {fuel : Nat}
    (h : ∀ entity, p.content guid = some entity → ∀ r ∈ entity.references, ∀ set,
      p.content r = some (.vertexSet set) → p.Keeps (fun _ => True) (persistWithin fuel r none))
    (producer : Option Guid) :
    p.Keeps (fun _ => True) (persistWithin (fuel + 1) guid producer) := by
  refine (keeps_require p guid).bind fun entity hmeans => ?_
  obtain ⟨assigned, hassigned, hsame⟩ := id hmeans
  have hreferences : p.Keeps (fun _ => True) (entity.references.forM fun reference => do
      if !(← get).hasPersisted reference then
        let _ ← persistWithin fuel reference none) := by
    refine .forM fun r hr => .bind_get fun vault hvault => ?_
    split
    · obtain ⟨set, hset⟩ := (hmeans.fits p.coherent).resolved hr
      have hassignedSet := Assignment.resolver_eq_ok_iff.1 hset
      rw [← Entity.references_eq_of_sameContent hsame] at hr
      have hpersist := h assigned hassigned r hr set hassignedSet
      exact (hpersist.bind fun _ _ => .pure trivial).yields vault hvault
    · exact ⟨hvault, trivial⟩
  refine hreferences.bind fun _ _ => ?_
  obtain ⟨stored, hcopy, hencode, -⟩ := hmeans.encode p.coherent
  refine (Ordered.follows_encode (follows_resolve p) guid entity stored hencode).bind fun _ heq => ?_
  subst heq
  refine .bind_get fun vault hvault => ?_
  rw [hvault.dataDir]
  refine ((keeps_write hcopy).bind fun path _ => ?_).yields vault hvault
  exact (keeps_record p guid entity producer).bind fun _ _ => .pure trivial

private theorem keeps_persistWithin_set {set : VertexSet}
    (h : p.content guid = some (.vertexSet set)) (fuel : Nat) (producer : Option Guid) :
    p.Keeps (fun _ => True) (persistWithin (fuel + 1) guid producer) := by
  refine keeps_persistWithin_succ (fun entity hentity r hr => ?_) producer
  rw [h, Option.some.injEq] at hentity
  subst hentity
  cases hr

theorem keeps_persistFrom (p : Premise) (guid : Guid) (producer : Option Guid) :
    p.Keeps (fun _ => True) (persistFrom guid producer) := by
  refine keeps_persistFrom_of_within (p.tolerates_missing guid) fun fuel => ?_
  refine keeps_persistWithin_succ (fun _ _ _ _ _ hset => ?_) producer
  exact keeps_persistWithin_set hset fuel none

theorem keeps_purge (p : Premise) (guid : Guid) : p.Keeps (fun _ => True) (purge guid) := by
  have hforget : p.Keeps (fun _ => True) (modifyCatalog (·.forgetEntity guid)) :=
    keeps_modifyCatalog fun _ hlegible => hlegible.forgetEntity guid
  have hremove : p.Keeps (fun _ => True)
      (onDisk (EntityDirectory.remove p.site.dataDir guid)) := by
    constructor
    intro vault hvault
    have hremoved {disk : Disk} (h : disk = vault.disk ∨ ∃ b, base p.site.dataDir = .ok b ∧
        Removed b guid vault.disk disk) :
        ∀ b, base p.site.dataDir = .ok b → Kept p.content.copy b disk := by
      intro b hb
      cases h with
      | inl heq =>
        rw [heq]
        exact hvault.kept b hb
      | inr hremoved =>
        obtain ⟨b', hb', hremoved⟩ := hremoved
        rw [hb, Except.ok.injEq] at hb'
        subst hb'
        exact (hvault.kept b hb).removed hremoved
    rw [onDisk_yields_iff]
    by_cases hreliable : p.reliable
    · have hready := hvault.ready hreliable
      refine (hready.remove_yields guid).mono (fun _ disk hdisk => ?_)
        fun _ _ hfalse => hfalse.elim
      refine ⟨hvault.onDisk (hremoved ?_) fun _ => hdisk.1, trivial⟩
      exact hdisk.2.imp id fun h => ⟨_, hready.data.way.walk_eq, h⟩
    · have hnot {disk : Disk} (hready : p.reliable) : p.site.Ready vault.catalog disk :=
        absurd hready hreliable
      refine (EntityDirectory.remove_yields _ guid vault.disk).mono (fun _ disk hdisk => ?_)
        fun failure disk hdisk => ?_
      · exact ⟨hvault.onDisk (hremoved hdisk) hnot, trivial⟩
      · obtain ⟨⟨fault, rfl⟩, hdisk⟩ := hdisk
        exact ⟨hvault.onDisk (hremoved hdisk) hnot, .inr ⟨hreliable, trivial⟩⟩
  refine (keeps_remove p guid).bind fun _ _ => .bind_get fun vault hvault => ?_
  rw [hvault.dataDir]
  exact (hremove.bind fun _ _ => hforget.bind fun _ _ => .pure trivial).yields vault hvault

/-- An exchange copy is written beside what the store itself keeps. -/
theorem keeps_exportUnordered (hreliable : p.reliable) (guid : Guid) :
    p.Keeps (fun _ => True) (exportUnordered guid) := by
  refine (keeps_getOrLoad p guid).bind fun entity hmeans => ?_
  obtain ⟨stored, hencode⟩ := Unordered.exists_encode guid (hmeans.fits p.coherent)
  refine (Unordered.follows_encode (follows_resolve p) guid entity stored hencode).bind
    fun _ heq => ?_
  subst heq
  refine .bind_get fun vault hvault => ?_
  have hready := hvault.ready hreliable
  have hbase : base p.site.dataDir = .ok p.site.dataBase := hready.data.way.walk_eq
  rw [hvault.unorderedDir hreliable, write, yields_bind, onDisk_yields_iff]
  refine (hready.write_yields (.inr ⟨rfl, rfl⟩) _).mono (fun _ disk hdisk => ?_)
    fun _ _ hfalse => hfalse.elim
  refine ⟨hvault.onDisk (fun b hb => ?_) fun _ => hdisk.1, trivial⟩
  rw [hbase, Except.ok.injEq] at hb
  subst hb
  have hkept := hvault.kept p.site.dataBase hbase
  cases hdisk.2 with
  | inl heq =>
    rw [heq]
    exact hkept
  | inr hpublished =>
    obtain ⟨grown, hgrows, rfl⟩ := hpublished
    exact hready.apart.kept (hkept.grows hgrows) (publish_agreesOff _ _ _)

end Vault

end GraphVault
