import GraphVault.Proofs.Roots
import GraphVault.Proofs.StoredForms
import GraphVault.Vault

/-!
# Where a store keeps its files

A store is opened over two roots and keeps its catalog below the first. Over roots that lie apart
and can be used, opening a store and writing and removing entities never fails, and the roots stay
as they have to be.
-/

namespace GraphVault

open GraphVault.Path (Plain Admissible)
open Disk

/-- Every record of an entity is read back. -/
def Catalog.Legible (catalog : Catalog) : Prop :=
  ∀ guid, ∃ entry, catalog.entity? guid = .ok entry

namespace Catalog

theorem legible_empty : Legible empty := fun _ => ⟨none, rfl⟩

theorem entity?_eq {catalog : Catalog} {guid : Guid} :
    catalog.entity? guid = match catalog.entities.get? guid.text with
      | none => .ok none
      | some bytes => some <$> readRecord Entry.codec guid.text bytes := rfl

theorem entity?_recordEntity_self (catalog : Catalog) (entry : Entry) :
    (catalog.recordEntity entry).entity? entry.guid = .ok (some entry) := by
  rw [entity?_eq, Catalog.recordEntity, SortedMap.get?_insert_self]
  simp only [readRecord, entry.restores_codec.read_encode]
  rfl

theorem entity?_recordEntity_of_ne (catalog : Catalog) {entry : Entry} {guid : Guid}
    (h : guid ≠ entry.guid) : (catalog.recordEntity entry).entity? guid = catalog.entity? guid := by
  have htext : guid.text ≠ entry.guid.text := fun heq => h (Guid.text_injective heq)
  rw [entity?_eq, Catalog.recordEntity, SortedMap.get?_insert_of_ne _ _ htext, entity?_eq]

theorem entity?_forgetEntity_self (catalog : Catalog) (guid : Guid) :
    (catalog.forgetEntity guid).entity? guid = .ok none := by
  rw [entity?_eq, Catalog.forgetEntity, SortedMap.get?_erase_self]

theorem entity?_forgetEntity_of_ne (catalog : Catalog) {guid other : Guid} (h : other ≠ guid) :
    (catalog.forgetEntity guid).entity? other = catalog.entity? other := by
  have htext : other.text ≠ guid.text := fun heq => h (Guid.text_injective heq)
  rw [entity?_eq, Catalog.forgetEntity, SortedMap.get?_erase_of_ne _ htext, entity?_eq]

theorem Legible.recordEntity {catalog : Catalog} (h : catalog.Legible) (entry : Entry) :
    (catalog.recordEntity entry).Legible := by
  intro guid
  by_cases heq : guid = entry.guid
  · rw [heq, entity?_recordEntity_self]
    exact ⟨some entry, rfl⟩
  · rw [entity?_recordEntity_of_ne catalog heq]
    exact h guid

theorem Legible.forgetEntity {catalog : Catalog} (h : catalog.Legible) (guid : Guid) :
    (catalog.forgetEntity guid).Legible := by
  intro other
  by_cases heq : other = guid
  · rw [heq, entity?_forgetEntity_self]
    exact ⟨none, rfl⟩
  · rw [entity?_forgetEntity_of_ne catalog heq]
    exact h other

end Catalog

/-- The address of the catalog below a base address. -/
def Disk.catalogAddress (b : Address) : Address := b ++ ["catalog.redb"]

theorem plain_catalogName : Plain "catalog.redb" := by decide

namespace Disk

theorem isPermanent_catalogAddress (b : Address) : isPermanent (catalogAddress b) = false :=
  isPermanent_of_mem (List.mem_append_right b List.mem_cons_self) (by decide) (by decide)

theorem text_ne_catalogAddress (b : Address) (g : Guid) (rest : Address) :
    b ++ g.text :: rest ≠ catalogAddress b := by
  intro heq
  rw [catalogAddress, List.append_right_inj, List.cons_eq_cons] at heq
  exact Guid.text_ne (by decide) heq.1

theorem not_above_catalogAddress (b : Address) (g : Guid) : ¬ b ++ [g.text] <+: catalogAddress b := by
  intro habove
  rw [catalogAddress, List.prefix_append_right_inj, List.cons_prefix_cons] at habove
  exact Guid.text_ne (by decide) habove.1

/-- Disks that differ at most in the catalog at an address, and in what catalogs hold. -/
def AgreesBut (address : Address) (before after : Disk) : Prop :=
  ∀ a, a ≠ address → after.node? a = before.node? a

theorem KeptAs.of_agreesBut {suits : Guid → Stored → Prop} {b b' : Address} {before after : Disk}
    (h : KeptAs suits b before) (hagrees : AgreesBut (catalogAddress b') before after) :
    KeptAs suits b after := by
  have hnode (g : Guid) {file : String} (hne : file ≠ "catalog.redb") :
      after.node? (b ++ [g.text, file]) = before.node? (b ++ [g.text, file]) := by
    apply hagrees
    intro heq
    rw [List.append_cons b, catalogAddress] at heq
    exact hne (List.cons.inj (List.append_inj_right' heq rfl)).1
  rintro g ⟨node, hmarker, hfile⟩
  rw [hnode g (by decide)] at hmarker
  obtain ⟨stored, hsuits, hholds⟩ := h g ⟨node, hmarker, hfile⟩
  exact ⟨stored, hsuits, (hnode g (by decide)).trans hholds.manifest,
    (hnode g (by decide)).trans hholds.rows⟩

theorem Kept.of_agreesBut {copies : Guid → Option Stored} {b : Address} {before after : Disk}
    (h : Kept copies b before) (hagrees : AgreesBut (catalogAddress b) before after) :
    Kept copies b after := KeptAs.of_agreesBut h hagrees

/-- Opening a catalog changes at most the node at its address. -/
theorem openCatalog_yields (root : String) (disk : Disk) :
    Yields (openCatalog (Path.join root "catalog.redb")) disk
      (fun _ after => ∃ b, base root = .ok b ∧ AgreesBut (catalogAddress b) disk after)
      fun failure after => (∃ fault, failure = .storage fault) ∧ after = disk := by
  simp only [openCatalog, yields_bind, yields_get]
  refine yields_ofExcept (fun address haddress => ?_) fun failure hfailure => ?_
  · obtain ⟨-, b, hb, rfl⟩ :=
      (resolve_join_eq_ok_iff plain_catalogName).1 (mapError_eq_ok_iff.1 haddress)
    have hput (catalogs : List Catalog) (id : Nat) : AgreesBut (catalogAddress b) disk
        (({ disk with catalogs }.put (b ++ ["catalog.redb"]) (.database id)).hold id) := by
      intro a ha
      exact node?_put_of_ne { disk with catalogs } _ ha
    split
    · exact ⟨b, hb.base_eq, hput _ _⟩
    · exact ⟨⟨_, rfl⟩, rfl⟩
    · split
      · exact ⟨b, hb.base_eq, hput _ _⟩
      · exact ⟨⟨_, rfl⟩, rfl⟩
    · split
      · exact ⟨⟨_, rfl⟩, rfl⟩
      · exact ⟨b, hb.base_eq, fun _ _ => rfl⟩
  · obtain ⟨fault, -, rfl⟩ := mapError_eq_error_iff.1 hfailure
    exact ⟨⟨_, rfl⟩, rfl⟩

/-- What opening a store over a root does to a disk: directories are made, and a catalog is put
below the root. -/
def Prepared (root : String) (before after : Disk) : Prop :=
  ∃ grown, Grows (fun _ => True) before grown ∧
    (after = grown ∨ ∃ b, base root = .ok b ∧ AgreesBut (catalogAddress b) grown after)

theorem KeptAs.prepared {suits : Guid → Stored → Prop} {b : Address} {root : String}
    {before after : Disk} (h : KeptAs suits b before) (hprepared : Prepared root before after) :
    KeptAs suits b after := by
  obtain ⟨grown, hgrows, hafter⟩ := hprepared
  cases hafter with
  | inl heq =>
    rw [heq]
    exact h.grows hgrows
  | inr hcatalog =>
    obtain ⟨b', -, hagrees⟩ := hcatalog
    exact (h.grows hgrows).of_agreesBut hagrees

theorem Kept.prepared {copies : Guid → Option Stored} {root : String} {before after : Disk}
    (h : ∀ b, base root = .ok b → Kept copies b before) (hprepared : Prepared root before after) :
    ∀ b, base root = .ok b → Kept copies b after :=
  fun b hb => KeptAs.prepared (h b hb) hprepared

end Disk

/-- A store is opened with nothing in memory. -/
theorem Vault.open_yields (settings : Settings) (disk : Disk) :
    Yields (Vault.open settings) disk
      (fun vault after => vault = ⟨settings, SortedMap.empty, vault.catalog, after⟩ ∧
        Prepared settings.dataDir disk after)
      fun failure after => ((∃ fault, failure = .io fault) ∨ ∃ fault, failure = .storage fault) ∧
        Prepared settings.dataDir disk after := by
  unfold Vault.open
  split
  · simp only [yields_bind, yields_adaptExcept, yields_get, yields_pure]
    refine (moves_createAll _ disk).mono (fun _ grown hgrows => ?_)
      fun fault grown hgrows => ⟨.inl ⟨_, rfl⟩, grown, hgrows, .inl rfl⟩
    refine (openCatalog_yields settings.dataDir grown).mono (fun id after hafter => ?_)
      fun failure after hfailure => ⟨.inr hfailure.1, grown, hgrows, .inl hfailure.2⟩
    exact ⟨trivial, grown, hgrows, .inr hafter⟩
  · exact ⟨rfl, disk, Std.Refl.refl disk, .inl rfl⟩

@[simp] theorem Vault.nodes_close (vault : Vault) : vault.close.nodes = vault.disk.nodes := by
  unfold Vault.close
  split <;> rfl

/-! ### Opening over usable roots -/

/-- The two roots of a store, and the addresses that they lead to. -/
structure Site where
  dataDir : String
  unorderedDir : String
  dataBase : Address
  unorderedBase : Address

namespace Site

-- What these do is known from what they yield, so that they need not be looked into.
attribute [local irreducible] EntityDirectory.write EntityDirectory.remove createAll openCatalog

/-- An address below neither root. -/
def Outside (site : Site) (a : Address) : Prop :=
  ¬ Inside site.dataBase a ∧ ¬ Inside site.unorderedBase a

/-- The roots are different, and neither lies below the other. -/
structure Apart (site : Site) : Prop where
  ne : site.dataBase ≠ site.unorderedBase
  data : ¬ Inside site.dataBase site.unorderedBase
  unordered : ¬ Inside site.unorderedBase site.dataBase

/-- A disk on which a store that holds the catalog `own`, if any, can do its work. -/
structure Ready (site : Site) (own : Option Nat) (disk : Disk) : Prop where
  apart : site.Apart
  data : Usable site.Outside site.dataDir site.dataBase disk
  unordered : Usable site.Outside site.unorderedDir site.unorderedBase disk
  database : ∀ node, disk.node? (catalogAddress site.dataBase) = some node →
    ∃ id, node = .database id ∧ (disk.catalog id).Legible ∧ (id ∈ disk.held → own = some id)
  legible : ∀ id, own = some id → (disk.catalog id).Legible

variable {site : Site} {own : Option Nat} {disk after : Disk}

/-- Work on an entity below the other root leaves what is kept below the root of the data. -/
theorem Apart.kept (h : site.Apart) {copies : Guid → Option Stored}
    (hkept : Kept copies site.dataBase disk) {g : Guid}
    (hagrees : AgreesOff (site.unorderedBase ++ [g.text]) disk after) :
    Kept copies site.dataBase after := by
  have hnode (g' : Guid) (rest : Address) :
      after.node? (site.dataBase ++ g'.text :: rest)
        = disk.node? (site.dataBase ++ g'.text :: rest) := by
    apply hagrees
    exact not_prefix_of_apart (Ne.symm h.ne) h.unordered h.data g rest (Guid.text_ne (by decide))
      (Guid.text_ne (by decide))
  rintro g' ⟨node, hmarker, hfile⟩
  rw [hnode] at hmarker
  obtain ⟨stored, hcopy, hholds⟩ := hkept g' ⟨node, hmarker, hfile⟩
  exact ⟨stored, hcopy, (hnode _ _).trans hholds.manifest, (hnode _ _).trans hholds.rows⟩

theorem inside_catalogAddress (b : Address) : Inside b (catalogAddress b) :=
  ⟨"catalog.redb", [], rfl, by decide, by decide⟩

/-- Roots with nothing below them are ready for a store. -/
theorem ready_of_empty (hapart : site.Apart)
    (hdata : Usable site.Outside site.dataDir site.dataBase disk)
    (hunordered : Usable site.Outside site.unorderedDir site.unorderedBase disk)
    (hempty : ∀ a, Inside site.dataBase a → disk.node? a = none) : site.Ready none disk := by
  refine ⟨hapart, hdata, hunordered, fun node hnode => ?_, fun id hid => ?_⟩
  · rw [hempty _ (inside_catalogAddress _)] at hnode
    cases hnode
  · cases hid

/-- Work that leaves the roots usable and catalogs as they are leaves the disk ready. -/
private theorem Ready.of_usable (h : site.Ready own disk)
    (hdata : Usable site.Outside site.dataDir site.dataBase after)
    (hunordered : Usable site.Outside site.unorderedDir site.unorderedBase after)
    (hnode : after.node? (catalogAddress site.dataBase)
      = disk.node? (catalogAddress site.dataBase))
    (hcatalogs : after.catalogs = disk.catalogs) (hheld : after.held = disk.held) :
    site.Ready own after := by
  have hcatalog (id : Nat) : after.catalog id = disk.catalog id := by
    rw [Disk.catalog, Disk.catalog, hcatalogs]
  refine ⟨h.apart, hdata, hunordered, fun node hafter => ?_, fun id hid => ?_⟩
  · rw [hnode] at hafter
    obtain ⟨id, hid, hlegible, hown⟩ := h.database node hafter
    exact ⟨id, hid, by rw [hcatalog]; exact hlegible, by rw [hheld]; exact hown⟩
  · rw [hcatalog]
    exact h.legible id hid

theorem Ready.grows (h : site.Ready own disk) (hgrows : Grows site.Outside disk after) :
    site.Ready own after := by
  refine h.of_usable (h.data.grows hgrows) (h.unordered.grows hgrows) ?_ hgrows.catalogs
    hgrows.held
  cases hgrows.node (catalogAddress site.dataBase) with
  | inl heq => exact heq
  | inr hnew => exact absurd (inside_catalogAddress _) hnew.1.1

private theorem not_above_catalog (hapart : site.Apart) {b : Address}
    (hb : b = site.dataBase ∨ b = site.unorderedBase) (g : Guid) :
    ¬ b ++ [g.text] <+: catalogAddress site.dataBase := by
  cases hb with
  | inl heq =>
    subst heq
    exact not_above_catalogAddress site.dataBase g
  | inr heq =>
    subst heq
    exact not_prefix_of_apart (Ne.symm hapart.ne) hapart.unordered hapart.data g [] (by decide)
      (by decide)

/-- The work of a store on one entity leaves the disk ready. -/
theorem Ready.of_agreesOff (h : site.Ready own disk) {b : Address} {g : Guid}
    (hb : b = site.dataBase ∨ b = site.unorderedBase)
    (hagrees : AgreesOff (b ++ [g.text]) disk after) (hpassable : after.Passable (b ++ [g.text]))
    (hcatalogs : after.catalogs = disk.catalogs) (hheld : after.held = disk.held) :
    site.Ready own after := by
  have hdata : Usable site.Outside site.dataDir site.dataBase after := by
    cases hb with
    | inl heq =>
      subst heq
      exact h.data.of_agreesOff hagrees (fun x hx => hx.1 ∘ inside_of_above) hpassable (.inl rfl)
    | inr heq =>
      subst heq
      exact h.data.of_agreesOff hagrees (fun x hx => hx.2 ∘ inside_of_above) hpassable
        (.inr ⟨h.apart.unordered, h.apart.data⟩)
  have hunordered : Usable site.Outside site.unorderedDir site.unorderedBase after := by
    cases hb with
    | inl heq =>
      subst heq
      exact h.unordered.of_agreesOff hagrees (fun x hx => hx.1 ∘ inside_of_above) hpassable
        (.inr ⟨h.apart.data, h.apart.unordered⟩)
    | inr heq =>
      subst heq
      exact h.unordered.of_agreesOff hagrees (fun x hx => hx.2 ∘ inside_of_above) hpassable (.inl rfl)
  exact h.of_usable hdata hunordered (hagrees _ (not_above_catalog h.apart hb g)) hcatalogs hheld

/-- An entity is written below either root. -/
theorem Ready.write_yields (h : site.Ready own disk) {root : String} {b : Address}
    (hroot : root = site.dataDir ∧ b = site.dataBase ∨
      root = site.unorderedDir ∧ b = site.unorderedBase) (stored : Stored) :
    Yields (EntityDirectory.write root stored) disk
      (fun _ after => site.Ready own after ∧
        (after = disk ∨ ∃ grown, Grows site.Outside disk grown ∧
          after = EntityDirectory.publish grown (b ++ [stored.manifest.guid.text]) stored))
      fun _ _ => False := by
  have hbase : b = site.dataBase ∨ b = site.unorderedBase := hroot.imp And.right And.right
  have husable : Usable site.Outside root b disk := by
    cases hroot with
    | inl hdata =>
      rw [hdata.1, hdata.2]
      exact h.data
    | inr hunordered =>
      rw [hunordered.1, hunordered.2]
      exact h.unordered
  refine (EntityDirectory.write_succeeds husable stored).mono (fun _ after hafter => ?_)
    fun _ _ hfalse => hfalse
  cases hafter with
  | inl heq =>
    rw [heq]
    exact ⟨h, .inl rfl⟩
  | inr hpublished =>
    obtain ⟨grown, hgrows, rfl⟩ := hpublished
    refine ⟨(h.grows hgrows).of_agreesOff hbase (publish_agreesOff _ _ _) ?_ rfl rfl,
      .inr ⟨grown, hgrows, rfl⟩⟩
    exact publish_passable grown b _ stored

/-- An entity is removed from the root of the data. -/
theorem Ready.remove_yields (h : site.Ready own disk) (g : Guid) :
    Yields (EntityDirectory.remove site.dataDir g) disk
      (fun _ after => site.Ready own after ∧
        (after = disk ∨ Removed site.dataBase g disk after)) fun _ _ => False := by
  have hremove := EntityDirectory.remove_succeeds h.data (fun x hx => hx.1) g
  refine hremove.mono (fun _ after hafter => ?_) fun _ _ hfalse => hfalse
  cases hafter with
  | inl heq =>
    rw [heq]
    exact ⟨h, .inl rfl⟩
  | inr hremoved =>
    have hpassable := hremoved.passable (h.data.entities g)
    exact ⟨h.of_agreesOff (.inl rfl) hremoved.agrees hpassable hremoved.catalogs hremoved.held,
      .inr hremoved⟩

theorem usable_of_nodes {outside : Address → Prop} {root : String} {b : Address}
    (h : Usable outside root b disk) (hnodes : after.nodes = disk.nodes) :
    Usable outside root b after := by
  have hnode (a : Address) : after.node? a = disk.node? a := by
    rw [node?, node?, hnodes]
  refine h.of_changes (fun x _ => .inl (hnode x)) fun g node hentity => ?_
  exact h.entities g node ((hnode _).symm.trans hentity)

/-- A store changes the catalog that it holds. -/
theorem Ready.setCatalog {id : Nat} (h : site.Ready (some id) disk) {catalog : Catalog}
    (hlegible : catalog.Legible) : site.Ready (some id) (disk.setCatalog id catalog) := by
  have hcatalog (other : Nat) (hother : (disk.catalog other).Legible) :
      ((disk.setCatalog id catalog).catalog other).Legible := by
    have hget : (disk.setCatalog id catalog).catalog other
        = ((disk.catalogs.set id catalog)[other]?).getD Catalog.empty := rfl
    rw [hget]
    by_cases heq : id = other
    · subst heq
      by_cases hlt : id < disk.catalogs.length
      · rw [List.getElem?_set_self hlt]
        exact hlegible
      · rw [List.getElem?_eq_none (by rw [List.length_set]; omega)]
        exact Catalog.legible_empty
    · rw [List.getElem?_set_ne heq]
      exact hother
  refine ⟨h.apart, usable_of_nodes h.data rfl, usable_of_nodes h.unordered rfl,
    fun node hnode => ?_, fun other hother => hcatalog other (h.legible other hother)⟩
  obtain ⟨other, hid, hother, hheld⟩ := h.database node hnode
  exact ⟨other, hid, hcatalog other hother, hheld⟩

/-- The disk that a store leaves behind is ready for the next one. -/
theorem Ready.close {vault : Vault} (h : site.Ready vault.catalog vault.disk) :
    site.Ready none vault.close := by
  unfold Vault.close
  cases hown : vault.catalog with
  | none =>
    rw [hown] at h
    exact h
  | some id =>
    rw [hown] at h
    refine ⟨h.apart, usable_of_nodes h.data rfl, usable_of_nodes h.unordered rfl,
      fun node hnode => ?_, fun _ hnone => by cases hnone⟩
    obtain ⟨other, hother, hlegible, hheld⟩ := h.database node hnode
    refine ⟨other, hother, hlegible, fun hmem => ?_⟩
    obtain ⟨hbefore, hne⟩ := List.mem_filter.1 hmem
    have heq := Option.some.inj (hheld hbefore)
    simp [heq] at hne

theorem Ready.hold {id : Nat} (h : site.Ready none disk)
    (hnode : disk.node? (catalogAddress site.dataBase) = some (.database id)) :
    site.Ready (some id) (disk.hold id) := by
  obtain ⟨other, hother, hlegible, -⟩ := h.database _ hnode
  cases hother
  refine ⟨h.apart, usable_of_nodes h.data rfl, usable_of_nodes h.unordered rfl,
    fun node hafter => ?_, fun other hown => ?_⟩
  · have heq := hnode.symm.trans hafter
    rw [Option.some.injEq] at heq
    exact ⟨id, heq.symm, hlegible, fun _ => rfl⟩
  · cases hown
    exact hlegible

/-- The disk with a new catalog at an address, which is held. -/
private def created (disk : Disk) (address : Address) : Disk :=
  ({ disk with catalogs := disk.catalogs ++ [Catalog.empty] }.put address
    (.database disk.catalogs.length)).hold disk.catalogs.length

private theorem created_agrees (disk : Disk) (address : Address) :
    AgreesBut address disk (created disk address) := fun _ ha =>
  node?_put_of_ne { disk with catalogs := disk.catalogs ++ [Catalog.empty] } _ ha

private theorem created_node {address : Address} (h : isPermanent address = false) :
    (created disk address).node? address = some (.database disk.catalogs.length) :=
  node?_put_self { disk with catalogs := disk.catalogs ++ [Catalog.empty] } _ h

private theorem created_catalog (disk : Disk) (address : Address) :
    (created disk address).catalog disk.catalogs.length = Catalog.empty := by
  have hget : (created disk address).catalog disk.catalogs.length
      = ((disk.catalogs ++ [Catalog.empty])[disk.catalogs.length]?).getD Catalog.empty := rfl
  rw [hget, List.getElem?_concat_length]
  rfl

/-- A new catalog is put where none is. -/
private theorem Ready.of_created (h : site.Ready none disk) :
    site.Ready (some disk.catalogs.length) (created disk (catalogAddress site.dataBase)) := by
  have hagrees := created_agrees disk (catalogAddress site.dataBase)
  have hself := @created_node disk _ (isPermanent_catalogAddress site.dataBase)
  have hempty := created_catalog disk (catalogAddress site.dataBase)
  have husable {root : String} {b : Address} (hroot : Usable site.Outside root b disk)
      (hentity : ∀ g : Guid, b ++ [g.text] ≠ catalogAddress site.dataBase) :
      Usable site.Outside root b (created disk (catalogAddress site.dataBase)) := by
    refine hroot.of_changes (fun x hx => .inl (hagrees x ?_)) fun g node hnode => ?_
    · rintro rfl
      exact hx.1 (inside_catalogAddress _)
    · exact hroot.entities g node ((hagrees _ (hentity g)).symm.trans hnode)
  refine ⟨h.apart, husable h.data fun g => text_ne_catalogAddress _ g [],
    husable h.unordered fun g heq => ?_, fun node hnode => ?_, fun id hid => ?_⟩
  · rw [catalogAddress, List.append_inj_left' heq rfl] at heq
    exact text_ne_catalogAddress _ g [] heq
  · rw [hself, Option.some.injEq] at hnode
    exact ⟨_, hnode.symm, by rw [hempty]; exact Catalog.legible_empty, fun _ => rfl⟩
  · cases hid
    rw [hempty]
    exact Catalog.legible_empty

theorem Ready.openCatalog_yields (h : site.Ready none disk)
    (hreaches : disk.Reaches site.dataDir site.dataBase) :
    Yields (openCatalog (Path.join site.dataDir "catalog.redb")) disk
      (fun id after => site.Ready (some id) after ∧
        AgreesBut (catalogAddress site.dataBase) disk after) fun _ _ => False := by
  have hadmissible : Admissible (Path.join site.dataDir "catalog.redb") :=
    h.data.admissible_join plain_catalogName (by decide)
  have hresolve : disk.resolve (Path.join site.dataDir "catalog.redb")
      = .ok (catalogAddress site.dataBase) :=
    (resolve_join_eq_ok_iff plain_catalogName).2 ⟨hadmissible, site.dataBase, hreaches, rfl⟩
  simp only [openCatalog, yields_bind, yields_get, hresolve, Except.mapError, yields_ofExcept_ok]
  cases hnode : disk.node? (catalogAddress site.dataBase) with
  | none =>
    exact ⟨h.of_created, created_agrees disk _⟩
  | some node =>
    obtain ⟨id, rfl, -, hheld⟩ := h.database node hnode
    have hfree : id ∉ disk.held := by
      intro hmem
      cases hheld hmem
    simp only [if_neg hfree]
    exact ⟨h.hold hnode, fun _ _ => rfl⟩

/-- A store is opened over ready roots. -/
theorem Ready.open_yields (h : site.Ready none disk) {settings : Settings}
    (hdata : settings.dataDir = site.dataDir) :
    Yields (Vault.open settings) disk
      (fun vault after => vault = ⟨settings, SortedMap.empty, vault.catalog, after⟩ ∧
        site.Ready vault.catalog after ∧ Prepared site.dataDir disk after)
      fun _ _ => False := by
  unfold Vault.open
  split
  · have hbase : base site.dataDir = .ok site.dataBase := h.data.way.walk_eq
    simp only [yields_bind, yields_adaptExcept, yields_get, yields_pure, Settings.catalogPath, hdata]
    refine (h.data.createParent_yields plain_catalogName).mono (fun _ grown hgrown => ?_)
      fun _ _ hfalse => hfalse
    refine ((h.grows hgrown.1).openCatalog_yields hgrown.2).mono (fun id after hafter => ?_)
      fun _ _ hfalse => hfalse
    have hgrows : Grows (fun _ => True) disk grown := hgrown.1.mono fun _ _ => trivial
    exact ⟨trivial, hafter.1, grown, hgrows, .inr ⟨_, hbase, hafter.2⟩⟩
  · exact ⟨rfl, h, disk, Std.Refl.refl disk, .inl rfl⟩

end Site

end GraphVault
