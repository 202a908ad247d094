import GraphVault.Proofs.Persisting
import GraphVault.Proofs.PositionalIntegrity

/-!
# Reading back what was persisted

A store that is opened anew over the root of another one loads what this has persisted, if its
memory and its copies went together (`Vault.persist_loadable`).
-/

namespace GraphVault

open Disk EntityDirectory

namespace Vault

attribute [local irreducible] EntityDirectory.read EntityDirectory.write EntityDirectory.contains

variable {vault after fresh now : Vault} {root : String} {b : Address} {guid : Guid}
  {entity : Entity}

/-! ### Loading what refers to vertex sets that are there -/

section Loading

variable {refs settled : List Guid} {sets : Guid → VertexSet}

private theorem Gathering.findAll {load : Guid → VaultM Entity}
    (h : Gathering vault guid refs sets settled now) (hsupplied : Supplied vault guid refs sets)
    (hload : LoadsSets load) (hsettled : ∀ x ∈ refs, x ∈ settled) {references : List Reference}
    (hreferences : ∀ reference ∈ references, reference.guid ∈ refs) :
    Yields (references.forM fun reference => do let _ ← findWith load reference.guid) now
      (fun _ after => Gathering vault guid refs sets settled after ∧
        (∀ reference ∈ references,
          after.get? reference.guid = some (.vertexSet (sets reference.guid))) ∧
        ∀ x e, now.get? x = some e → after.get? x = some e) fun _ _ => False := by
  induction references generalizing now with
  | nil => exact ⟨h, nofun, fun _ _ he => he⟩
  | cons reference references ih =>
    have hr := hreferences reference List.mem_cons_self
    rw [List.forM_eq_forM, List.forM_cons]
    simp only [yields_bind, yields_pure]
    apply (h.find hsupplied hload hr (hsettled _ hr)).mono ?_ fun _ _ hfalse => hfalse
    rintro - after ⟨-, hafter, hget, hstays⟩
    apply (ih hafter fun x hx => hreferences x (List.mem_cons_of_mem reference hx)).mono ?_
      fun _ _ hfalse => hfalse
    rintro - last ⟨hlast, hrest, hkept⟩
    refine ⟨hlast, fun x hx => ?_, fun x e he => hkept x e (hstays x e he)⟩
    cases List.mem_cons.1 hx with
    | inl heq => exact heq ▸ hkept _ _ hget
    | inr hx => exact hrest x hx

theorem follows_vertexSet_registered (now : Vault) (guid : Guid) :
    Follows (· = now) (fun _ => False) (now.registered guid) (vertexSet guid) := by
  intro set hset
  constructor
  rintro vault rfl
  rw [vertexSet, yields_bind]
  apply (require_of_registered (registered_eq_ok_iff.1 hset)).mono ?_ fun _ _ hfalse => hfalse.elim
  rintro found after ⟨rfl, rfl⟩
  exact ⟨rfl, rfl⟩

/-- What is read with vertex sets that are there is registered along with them. -/
theorem loadWithin_yields (hstores : vault.StoresOver refs sets guid entity)
    (h : Gathering vault guid refs sets refs vault) (hsupplied : Supplied vault guid refs sets)
    (fuel : Nat) :
    Yields (loadWithin (fuel + 2) guid) vault (fun found _ => found = entity)
      fun _ _ => False := by
  have hload := loadsSets_loadWithin fuel
  obtain ⟨stored, hread, hreferences, hdecode, hfits⟩ := hstores
  rw [loadWithin]
  simp only [yields_bind, yields_get, hread, yields_ofExcept_ok]
  apply (h.findAll hsupplied hload (fun _ hx => hx) hreferences).mono ?_ fun _ _ hfalse => hfalse
  rintro - ready ⟨hready, hsets, -⟩
  have hdecode' : Ordered.decode stored ready.registered = .ok entity := by
    apply Ordered.decode_congr hdecode
    intro reference hr
    rw [finals_of_mem (hreferences reference hr)]
    exact registered_eq_ok_iff.2 (hsets reference hr)
  have hfollows := Ordered.follows_decode (follows_vertexSet_registered ready) stored entity
    hdecode'
  apply (hfollows.yields ready rfl).mono ?_ fun _ _ hfalse => hfalse.2
  rintro found before ⟨rfl, rfl⟩
  apply (hready.put hsupplied hload (finds_loadWithin _) (fun _ hx => hx) hfits).mono ?_
    fun _ _ hfalse => hfalse
  exact fun _ _ hfound => hfound.1

end Loading

/-! ### A store that is opened anew -/

/-- A store has nothing in memory, and finds below its root what another one has left there. -/
structure Succeeds (vault fresh : Vault) (root : String) (b : Address) : Prop where
  dataDir : fresh.settings.dataDir = root
  entities : fresh.entities = SortedMap.empty
  spares : ∀ x, Spares b x vault.disk fresh.disk

/-- A store succeeds to the one that was closed before it was opened. -/
theorem succeeds_of_open (husable : UsableRoot root b vault.disk) {settings : Settings}
    (hroot : settings.dataDir = root) {disk : Disk}
    (hopen : Vault.open settings vault.close = .ok fresh disk) : vault.Succeeds fresh root b := by
  have hnodes := vault.nodes_close
  have hyields := open_yields settings vault.close
  rw [Yields, hopen, hroot] at hyields
  obtain ⟨hfresh, hprepared⟩ := hyields
  have hclosed : UsableRoot root b vault.close := Site.usable_of_nodes husable hnodes
  rw [hfresh]
  exact ⟨hroot, rfl, fun x => (spares_of_nodes hnodes).trans (spares_prepared hclosed hprepared)⟩

variable {sets : Guid → VertexSet}

/-- Where there are copies of an entity and of the vertex sets that it fits, the next store loads the
entity from its copy. -/
theorem Succeeds.getOrLoad_yields (h : vault.Succeeds fresh root b)
    (hroot : vault.settings.dataDir = root) (husable : UsableRoot root b vault.disk)
    {refs : List Guid} (hforeign : guid ∉ refs) (hdistinct : ∀ r ∈ refs, (sets r).mapping.Nodup)
    (hsets : ∀ r ∈ refs, vault.Stores r (sets r)) (hkept : vault.StoresOver refs sets guid entity) :
    Yields (getOrLoad guid) fresh (fun found _ => found = entity) fun _ _ => False := by
  have hnone (x : Guid) : fresh.get? x = none := by
    rw [get?, h.entities]
    rfl
  have hset : ∀ r ∈ refs, fresh.HasSet r (sets r) := by
    intro r hr
    exact .inr ⟨hnone r, (hsets r hr).spared hroot husable (h.spares r) h.dataDir⟩
  have hfresh := hkept.spared hroot husable (h.spares guid) h.dataDir
  have hpersisted : fresh.hasPersisted guid := by
    obtain ⟨stored, hread, -⟩ := hfresh
    exact contains_of_read hread
  have hsupplied : Supplied fresh guid refs sets :=
    ⟨hforeign, hdistinct, fun r hr hlacks => absurd hlacks (hset r hr).not_lacks⟩
  have hgathering : Gathering fresh guid refs sets refs fresh :=
    ⟨rfl, rfl, hnone guid, fun r hr => .inl (hset r hr)⟩
  obtain ⟨fuel, hdepth⟩ := depth_of_contains hpersisted
  simp only [getOrLoad, findWith, load, yields_bind, yields_get, hnone, hpersisted, if_true, hdepth]
  exact loadWithin_yields hfresh hgathering hsupplied _

/-- Where memory and disk go together and all copies are there, the next store loads the entity from
its copy. -/
theorem Consistent.getOrLoad_yields (h : vault.Consistent root b guid entity sets)
    (hmarked : ∀ x ∈ guid :: entity.references, Marked b x vault.disk)
    (hsucceeds : vault.Succeeds fresh root b) :
    Yields (getOrLoad guid) fresh
      (fun found _ => vault.StoresOver entity.references sets guid found) fun _ _ => False := by
  obtain ⟨kept, hkept⟩ := h.kept (hmarked guid List.mem_cons_self)
  have hsets : ∀ r ∈ entity.references, vault.Stores r (sets r) := fun r hr =>
    h.written r hr (hmarked r (List.mem_cons_of_mem guid hr))
  apply (hsucceeds.getOrLoad_yields h.dataDir h.usable h.foreign h.distinct hsets hkept).mono ?_
    fun _ _ hfalse => hfalse
  rintro found - rfl
  exact hkept

/-- Where what a store has in memory and the copies that it finds go together, whatever it persists
is loaded by a store that is opened anew. It is loaded with the same content, unless there was a
copy before. -/
theorem persist_loadable (h : vault.Consistent root b guid entity sets) {path : String}
    (hpersist : persist guid vault = .ok path after) {settings : Settings}
    (hroot : settings.dataDir = root) {disk : Disk}
    (hopen : Vault.open settings after.close = .ok fresh disk) :
    ∃ found last, getOrLoad guid fresh = .ok found last ∧
      (¬ Marked b guid vault.disk → found.sameContent entity) := by
  have hyields := persist_yields h
  rw [Yields, hpersist] at hyields
  obtain ⟨hafter, -, hmarked, hnew⟩ := hyields
  have hsucceeds := succeeds_of_open hafter.usable hroot hopen
  obtain ⟨found, last, hfound, hstores⟩ := (hafter.getOrLoad_yields hmarked hsucceeds).exists_ok
  refine ⟨found, last, hfound, fun hnot => ?_⟩
  rw [(hnew hnot).eq hstores]
  exact Entity.settled_sameContent h.fits

theorem persist_loadable_column :
    let column : Entity := .column .double ⟨[Double.zero, ⟨1⟩], [false, true], Guid.filled 1⟩
    let sets : SortedMap Guid Entity :=
      SortedMap.empty.insert (Guid.filled 1) (.vertexSet ⟨[7, 8]⟩)
    let vault : Vault := ⟨⟨"data", "exchange", .reject, false, false⟩,
      sets.insert (Guid.filled 2) column, none, Disk.empty⟩
    vault.Consistent "data" ["data"] (Guid.filled 2) column (fun _ => ⟨[7, 8]⟩) ∧
      ∃ path after, persist (Guid.filled 2) vault = .ok path after ∧
        ∃ fresh disk, Vault.open vault.settings after.close = .ok fresh disk ∧
          ∃ found last, getOrLoad (Guid.filled 2) fresh = .ok found last ∧
            found.sameContent column := by
  intro column sets vault
  have hset : vault.get? (Guid.filled 1) = some (.vertexSet ⟨[7, 8]⟩) := rfl
  have hmem : ∀ r ∈ column.references, r = Guid.filled 1 := fun r hr => List.mem_singleton.1 hr
  have hconsistent :
      vault.Consistent "data" ["data"] (Guid.filled 2) column (fun _ => ⟨[7, 8]⟩) := by
    constructor
    case dataDir => rfl
    case usable =>
      exact usableRoot_empty (by decide)
    case registered => rfl
    case fits => exact ⟨_, rfl, rfl, rfl⟩
    case distinct => exact fun _ _ => by decide
    case memory =>
      intro r hr e he
      rw [hmem r hr, hset, Option.some.injEq] at he
      exact ⟨_, he.symm, rfl⟩
    case unwritten =>
      rintro r hr - e he
      rw [hmem r hr, hset, Option.some.injEq] at he
      exact he.symm
    case written => exact fun r _ hmarked => absurd hmarked (not_marked_empty _ r)
    case kept => exact fun hmarked => absurd hmarked (not_marked_empty _ _)
    case rowCount => decide
    case rowFile =>
      intro stored hencode
      cases hencode
      decide
    case setRowCount => exact fun _ _ => by decide
    case setRowFile =>
      intro r hr
      rw [hmem r hr]
      decide
  obtain ⟨path, after, hpersist, -⟩ := ((persist_yields hconsistent).mono (fun _ _ h => h) (by
    rintro _ _ (hcatalog | ⟨r, hr, hnone⟩)
    · exact hcatalog rfl
    · rw [hmem r hr, hset] at hnone
      cases hnone)).exists_ok
  have hopen : Vault.open vault.settings after.close
    = .ok ⟨vault.settings, SortedMap.empty, none, after.close⟩ after.close := rfl
  obtain ⟨found, last, hfound, hsame⟩ := persist_loadable hconsistent hpersist rfl hopen
  exact ⟨hconsistent, path, after, hpersist, _, _, hopen, found, last, hfound,
    hsame (not_marked_empty _ _)⟩

/-! ### Memory that does not go together -/

section Mismatched

variable {type : ColumnType} {cells : Attribute type.Cell} {set : VertexSet}

/-- In memory there are a column and its vertex set, which has another size than it had when the
column was registered. Neither is written yet. -/
structure Mismatched (vault : Vault) (root : String) (b : Address) (guid : Guid)
    (cells : Attribute type.Cell) (set : VertexSet) : Prop where
  dataDir : vault.settings.dataDir = root
  usable : UsableRoot root b vault.disk
  column : vault.get? guid = some (.column type cells)
  vertexSet : vault.get? cells.vertexSet = some (.vertexSet set)
  size : set.size ≠ cells.size
  distinct : set.mapping.Nodup
  unwritten : ¬ Marked b guid vault.disk ∧ ¬ Marked b cells.vertexSet vault.disk
  count : set.size < 2 ^ 63 ∧ cells.size < 2 ^ 64
  readable : Readable (columnCopy guid cells) ∧ Readable (setCopy cells.vertexSet set)

theorem Mismatched.ne (h : vault.Mismatched root b guid cells set) : cells.vertexSet ≠ guid := by
  intro heq
  have hset := h.vertexSet
  rw [heq, h.column] at hset
  cases hset

/-- The copies of a column and of its vertex set are there, with different sizes. -/
private structure Split (vault : Vault) (root : String) (b : Address) (guid : Guid)
    (cells : Attribute type.Cell) (set : VertexSet) : Prop where
  dataDir : vault.settings.dataDir = root
  usable : UsableRoot root b vault.disk
  column : EntityDirectory.read vault.disk root guid = .ok (columnCopy guid cells)
  vertexSet : vault.Stores cells.vertexSet set

private theorem Mismatched.persist_yields (h : vault.Mismatched root b guid cells set) :
    Yields (persist guid) vault (fun _ after => Split after root b guid cells set)
      fun _ _ => vault.catalog ≠ none := by
  apply (persist_column_of_not_marked h.dataDir h.usable h.column h.unwritten.1 h.vertexSet
    h.unwritten.2).mono ?_ fun _ _ hcatalog => hcatalog
  rintro _ after ⟨between, hbetween, hafter⟩
  have hdataDir : after.settings.dataDir = root := by
    rw [hafter.settings, hbetween.settings, h.dataDir]
  have hset : EntityDirectory.read between.disk root cells.vertexSet
      = .ok (setCopy cells.vertexSet set) :=
    hbetween.wrote.read rfl (by simp [setCopy]) h.readable.2
  have hspared := (hafter.wrote.spares _ h.ne).read hbetween.wrote.usable hset
  refine ⟨hdataDir, hafter.wrote.usable,
    hafter.wrote.read rfl (by simp [columnCopy]) h.readable.1, setCopy cells.vertexSet set, ?_, rfl,
    decode_setCopy h.distinct h.count.1⟩
  rw [hdataDir, hspared]

private theorem references_columnCopy (guid : Guid) (cells : Attribute type.Cell) :
    (columnCopy guid cells).manifest.references
      = [⟨cells.vertexSet, UInt64.ofNat cells.size⟩] := rfl

private theorem decode_columnCopy (hset : now.get? cells.vertexSet = some (.vertexSet set))
    (hsize : set.size ≠ cells.size) (hcount : cells.size < 2 ^ 64) :
    Yields (Ordered.decode (columnCopy guid cells) vertexSet) now (fun _ _ => False)
      fun failure _ => failure = .lengthMismatch guid "vertex_set" set.size cells.size := by
  have hfound := (follows_vertexSet_registered now cells.vertexSet set
    (registered_eq_ok_iff.2 hset)).yields now rfl
  have hcells : (UInt64.ofNat cells.size).toNat = cells.size := UInt64.toNat_ofNat_of_lt' hcount
  have hreference : (columnCopy guid cells).manifest.reference 0
    = .ok ⟨cells.vertexSet, UInt64.ofNat cells.size⟩ := rfl
  simp only [columnCopy] at hreference ⊢
  simp only [Ordered.decode, hreference, yields_bind, yields_ofExcept_ok, Reference.resolve, hcells]
  apply hfound.mono ?_ fun _ _ hfalse => hfalse.2.elim
  rintro found _ ⟨-, rfl⟩
  simp only [ne_eq, hsize, not_false_eq_true, if_true, yields_bind]
  exact rfl

private theorem Split.getOrLoad_yields (h : Split vault root b guid cells set)
    (hsize : set.size ≠ cells.size) (hdistinct : set.mapping.Nodup) (hcount : cells.size < 2 ^ 64)
    (hsucceeds : vault.Succeeds fresh root b) :
    Yields (getOrLoad guid) fresh (fun _ _ => False)
      fun failure _ => failure = .lengthMismatch guid "vertex_set" set.size cells.size := by
  have hnone (x : Guid) : fresh.get? x = none := by
    rw [get?, hsucceeds.entities]
    rfl
  have hread := (hsucceeds.spares guid).read h.usable h.column
  have hset := h.vertexSet.spared h.dataDir h.usable (hsucceeds.spares _) hsucceeds.dataDir
  rw [← hsucceeds.dataDir] at hread
  have hpersisted : fresh.hasPersisted guid := contains_of_read hread
  obtain ⟨fuel, hdepth⟩ := depth_of_contains hpersisted
  simp only [getOrLoad, findWith, load, yields_bind, yields_get, hnone, hpersisted, if_true, hdepth]
  rw [loadWithin]
  simp only [yields_bind, yields_get, hread, yields_ofExcept_ok, references_columnCopy,
    List.forM_eq_forM, List.forM_cons, List.forM_nil, yields_pure]
  apply (findWith_of_hasSet (loadsSets_loadWithin _) (.inr ⟨hnone _, hset⟩) hdistinct).mono ?_
    fun _ _ hfalse => hfalse.elim
  rintro _ _ ⟨-, ⟨-, hget⟩ | ⟨-, rfl⟩⟩
  · rw [hnone] at hget
    cases hget
  · have hset := get?_insert_self fresh cells.vertexSet (.vertexSet set)
    apply (decode_columnCopy hset hsize hcount).mono
    · exact fun _ _ hfalse => hfalse.elim
    · exact fun _ _ hfailure => hfailure

/-- Such a column is persisted, and no store that is opened anew can load it. -/
theorem Mismatched.persist_unloadable (h : vault.Mismatched root b guid cells set) {path : String}
    (hpersist : persist guid vault = .ok path after) {settings : Settings}
    (hroot : settings.dataDir = root) {disk : Disk}
    (hopen : Vault.open settings after.close = .ok fresh disk) :
    ∃ last, getOrLoad guid fresh
      = .error (.lengthMismatch guid "vertex_set" set.size cells.size) last := by
  have hyields := h.persist_yields
  rw [Yields, hpersist] at hyields
  have hsucceeds := succeeds_of_open hyields.usable hroot hopen
  have hfails := hyields.getOrLoad_yields h.size h.distinct h.count.2 hsucceeds
  unfold Yields at hfails
  split at hfails
  · exact hfails.elim
  · rename_i failure last hfailure
    exact ⟨last, hfails ▸ hfailure⟩

/-- A vertex set is dropped and registered anew with an id more, which no column over it notices. -/
theorem persist_unloadable_replaced :
    let settings : Settings := ⟨"ordered", "unordered", .reject, false, false⟩
    let cells : Attribute ColumnType.double.Cell := ⟨[⟨1⟩, ⟨2⟩], [true, true], Guid.filled 1⟩
    let requests : List Request := [.open settings, .put (Guid.filled 1) (.vertexSet ⟨[1, 2]⟩),
      .put (Guid.filled 2) (.column .double cells), .remove (Guid.filled 1),
      .put (Guid.filled 1) (.vertexSet ⟨[1, 2, 3]⟩)]
    ∃ vault, Session.History Registry.empty (fun _ _ => True) (.closed Disk.empty) requests
        (.opened vault) ∧
      ∃ path after, persist (Guid.filled 2) vault = .ok path after ∧
        ∃ fresh disk, Vault.open settings after.close = .ok fresh disk ∧
          ∃ last, getOrLoad (Guid.filled 2) fresh
            = .error (.lengthMismatch (Guid.filled 2) "vertex_set" 3 2) last := by
  intro settings cells requests
  have hstart : Session.History Registry.empty (fun _ _ => True) (.closed Disk.empty) []
    (.closed Disk.empty) := .start
  let entities : SortedMap Guid Entity :=
    (SortedMap.empty.insert (Guid.filled 2) (.column .double cells)).insert (Guid.filled 1)
      (.vertexSet ⟨[1, 2, 3]⟩)
  have hmismatched : (⟨settings, entities, none, Disk.empty⟩ : Vault).Mismatched "ordered"
      ["ordered"] (Guid.filled 2) cells ⟨[1, 2, 3]⟩ := by
    constructor
    case dataDir => rfl
    case usable =>
      exact usableRoot_empty (by decide)
    case column => rfl
    case vertexSet => rfl
    case size => decide
    case distinct => decide
    case unwritten => exact ⟨not_marked_empty _ _, not_marked_empty _ _⟩
    case count => decide
    case readable =>
      exact ⟨readable_of_limits (by simp [columnCopy]) rfl (by decide) (by decide),
        readable_of_limits (by simp [setCopy]) rfl (by decide) (by decide)⟩
  obtain ⟨path, after, hpersist, -⟩ := ((hmismatched.persist_yields).mono (fun _ _ h => h)
    fun _ _ hcatalog => hcatalog rfl).exists_ok
  have hopen : Vault.open settings after.close
    = .ok ⟨settings, SortedMap.empty, none, after.close⟩ after.close := rfl
  obtain ⟨last, hlast⟩ := hmismatched.persist_unloadable hpersist rfl hopen
  exact ⟨_, hstart.foldl requests, path, after, hpersist, _, _, hopen, last, hlast⟩

end Mismatched

end Vault

end GraphVault
