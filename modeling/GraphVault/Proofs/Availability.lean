import GraphVault.Proofs.Additions
import GraphVault.Proofs.Fetching

/-!
# What is known stays known

A store knows an entity if it has it in memory or in a complete copy. Work that drops nothing never
takes a complete copy away, unless the data directory lies in an entity directory itself: this is
then put in place as a whole, and what was below it is gone.
-/

namespace GraphVault

open Disk EntityDirectory

namespace Disk

variable {root root' : String} {b b' : Address} {g x : Guid} {stored : Stored}
  {disk after grown : Disk}

/-- The way to a root leads neither to an entity directory below a base address nor through one. -/
def Avoids (root : String) (b : Address) : Prop :=
  ∀ address, base root = .ok address →
    Way (fun a => ∀ g : Guid, ¬ b ++ [g.text] <+: a) (origin root) (Path.segments root) address

/-- A root is reached as before if its way avoids what changes. -/
theorem Reaches.of_avoids (h : disk.Reaches root b) (havoids : Avoids root b')
    (hnode : ∀ a, (∀ g : Guid, ¬ b' ++ [g.text] <+: a) → disk.HasDirectory a →
      after.HasDirectory a) :
    after.Reaches root b :=
  reaches_iff_way.2 (((havoids b h.base_eq).and (reaches_iff_way.1 h)).mono
    fun a ha => hnode a ha.1 ha.2)

/-- What is published below a base address that the way to a root avoids leaves all complete copies
below this root complete, also the one in whose place it is put. -/
private theorem contains_publish_of_avoids (havoids : Avoids root b')
    (hgrows : Grows (fun _ => True) disk grown) (hcontains : EntityDirectory.contains disk root x) :
    EntityDirectory.contains (publish grown (b' ++ [g.text]) stored) root x := by
  obtain ⟨hadmissible, b, hreaches, hdirectory, hfile⟩ := contains_iff.1 hcontains
  have hagrees := publish_agreesOff grown (b' ++ [g.text]) stored
  have hkept {a : Address} {node : Node} (ha : ¬ b' ++ [g.text] <+: a)
      (hnode : disk.node? a = some node) :
      (publish grown (b' ++ [g.text]) stored).node? a = some node :=
    (hagrees a ha).trans (hgrows.node_eq hnode)
  have hreaches' : (publish grown (b' ++ [g.text]) stored).Reaches root b :=
    hreaches.of_avoids havoids fun a ha hd => hkept (ha g) hd
  refine contains_iff.2 ⟨hadmissible, b, hreaches', ?_⟩
  by_cases habove : b' ++ [g.text] <+: b ++ [x.text]
  · -- nothing of the way is replaced, so that it is the entity directory itself
    have hsame : b' ++ [g.text] = b ++ [x.text] :=
      (List.prefix_concat_iff.1 habove).resolve_right ((havoids b hreaches.base_eq).last g)
    obtain ⟨rfl, hguid⟩ := List.append_inj' hsame rfl
    obtain rfl : g = x := Guid.text_injective (List.cons.inj hguid).1
    exact publish_marked grown b' g stored
  · obtain ⟨node, hmarker, hne⟩ := hfile
    refine ⟨hkept habove hdirectory, node, hkept (fun hprefix => habove ?_) hmarker, hne⟩
    exact prefix_of_file (by decide) hprefix

/-- Directories stay directories, and files stay files. -/
structure KeepsKinds (before after : Disk) : Prop where
  directory : ∀ a, before.HasDirectory a → after.HasDirectory a
  file : ∀ a, before.HoldsFile a → after.HoldsFile a

namespace KeepsKinds

instance : Std.Refl KeepsKinds := ⟨fun _ => ⟨fun _ h => h, fun _ h => h⟩⟩

instance : Trans KeepsKinds KeepsKinds KeepsKinds where
  trans hab hbc :=
    ⟨fun a h => hbc.directory a (hab.directory a h), fun a h => hbc.file a (hab.file a h)⟩

theorem of_stays (h : ∀ a node, disk.node? a = some node → after.node? a = some node) :
    disk.KeepsKinds after := by
  refine ⟨fun a hdirectory => h a _ hdirectory, ?_⟩
  rintro a ⟨node, hnode, hfile⟩
  exact ⟨node, h a node hnode, hfile⟩

theorem of_grows {allowed : Address → Prop} (h : Grows allowed disk after) :
    disk.KeepsKinds after := of_stays fun _ _ hnode => h.node_eq hnode

/-- A complete copy is there as long as directories and files are. -/
theorem contains (h : disk.KeepsKinds after) (hcontains : EntityDirectory.contains disk root x) :
    EntityDirectory.contains after root x := by
  obtain ⟨hadmissible, b, hreaches, hdirectory, hfile⟩ := contains_iff.1 hcontains
  exact contains_iff.2 ⟨hadmissible, b,
    reaches_iff_way.2 ((reaches_iff_way.1 hreaches).mono h.directory),
    h.directory _ hdirectory, h.file _ hfile⟩

end KeepsKinds

/-- Whatever comes of a write below a base address that the way to a root avoids, all complete
copies below this root are complete afterwards. -/
theorem write_keeps (havoids : ∀ b, base root' = .ok b → Avoids root b) (stored : Stored)
    (disk : Disk) :
    Yields (EntityDirectory.write root' stored) disk
      (fun _ after => ∀ x, EntityDirectory.contains disk root x →
        EntityDirectory.contains after root x)
      fun _ after => ∀ x, EntityDirectory.contains disk root x →
        EntityDirectory.contains after root x := by
  apply (write_yields root' stored disk).mono
  · rintro - after (rfl | ⟨grown, b, hgrows, hbase, rfl⟩) x hx
    · exact hx
    · exact contains_publish_of_avoids (havoids b hbase) hgrows hx
  · rintro failure after ⟨-, hgrows⟩ x hx
    exact (KeepsKinds.of_grows hgrows).contains hx

end Disk

/-- No entity directory of either layout stands in the place of the data directory, or on the way to
it. -/
def Settings.Steady (settings : Settings) : Prop :=
  ∀ root ∈ [settings.dataDir, settings.unorderedDir], ∀ b, base root = .ok b →
    Avoids settings.dataDir b

/-- The way to a root that can be used avoids what it is known to stay outside of. -/
private theorem Disk.Usable.avoids {outside : Address → Prop} {root : String} {b b' : Address}
    {disk : Disk} (h : Usable outside root b disk) (houtside : ∀ a, outside a → ¬ Inside b' a) :
    Avoids root b' := by
  intro address haddress
  rw [base, h.way.walk_eq, Except.ok.injEq] at haddress
  rw [← haddress]
  exact h.way.mono fun a ha g habove => houtside a ha.1 (inside_of_above habove)

/-- The data directory stands if the two roots lie apart. -/
theorem Site.Ready.steady {site : Site} {own : Option Nat} {disk : Disk} {settings : Settings}
    (h : site.Ready own disk) (hdata : settings.dataDir = site.dataDir)
    (hunordered : settings.unorderedDir = site.unorderedDir) : settings.Steady := by
  intro root hroot b hbase
  rw [hdata]
  simp only [List.mem_cons, List.not_mem_nil, or_false] at hroot
  rcases hroot with rfl | rfl
  · rw [hdata, base, h.data.way.walk_eq, Except.ok.injEq] at hbase
    exact h.data.avoids fun a ha => hbase ▸ ha.1
  · rw [hunordered, base, h.unordered.way.walk_eq, Except.ok.injEq] at hbase
    exact h.data.avoids fun a ha => hbase ▸ ha.2

-- Of these only what they yield is used.
attribute [local irreducible] EntityDirectory.read EntityDirectory.write EntityDirectory.remove
  EntityDirectory.contains

namespace Vault

variable {vault : Vault} {guid : Guid}

/-- A store keeps its settings, and knows what it knew if its data directory stands. -/
structure Accrues (before after : Vault) : Prop where
  settings : after.settings = before.settings
  knows : before.settings.Steady → ∀ guid, before.Knows guid → after.Knows guid

namespace Accrues

instance : Std.Refl Accrues := ⟨fun _ => ⟨rfl, fun _ _ h => h⟩⟩

instance : Trans Accrues Accrues Accrues where
  trans hab hbc := by
    refine ⟨hbc.settings.trans hab.settings, fun hsteady guid h => ?_⟩
    exact hbc.knows (hab.settings ▸ hsteady) guid (hab.knows hsteady guid h)

theorem of_loads {new : Guid → Prop} {before after : Vault} (h : Loads new before after) :
    before.Accrues after := ⟨h.settings, fun _ _ => h.knows⟩

private theorem register (guid : Guid) (entity : Entity) :
    Moves Accrues (register guid entity) := by
  have hloads : Moves (Loads (· = guid)) (Vault.register guid entity) := loads_register entity rfl
  exact hloads.mono fun _ _ => of_loads

/-- A copy is written below one of the two roots. -/
private theorem write (root : Settings → String)
    (hroot : ∀ settings, root settings ∈ [settings.dataDir, settings.unorderedDir])
    (stored : Stored) :
    Moves Accrues (do Vault.write (root (← get).settings) stored) := by
  intro vault
  rw [yields_bind, yields_get, Vault.write, yields_bind, onDisk_yields_iff]
  by_cases hsteady : vault.settings.Steady
  · have hknows {after : Disk} (hafter : ∀ x, EntityDirectory.contains vault.disk
        vault.settings.dataDir x → EntityDirectory.contains after vault.settings.dataDir x) :
        vault.Accrues { vault with disk := after } :=
      ⟨rfl, fun _ guid h => h.imp_right (hafter guid)⟩
    exact (write_keeps (hsteady _ (hroot _)) stored vault.disk).mono
      (fun _ _ hafter => hknows hafter) fun _ _ hafter => hknows hafter
  · have hvoid (after : Disk) : vault.Accrues { vault with disk := after } :=
      ⟨rfl, fun h => absurd h hsteady⟩
    unfold Yields
    split
    · exact hvoid _
    · exact hvoid _

theorem additive : Additive Accrues where
  register := register
  writeData := write (·.dataDir) fun _ => List.mem_cons_self
  writeExchange := write (·.unorderedDir) fun _ => List.mem_cons_of_mem _ List.mem_cons_self
  modifyCatalog change := by
    intro vault
    rw [Vault.modifyCatalog, yields_modify]
    split
    · exact Std.Refl.refl vault
    · rename_i id _
      have hnode (a : Address) (node : Node) (h : vault.disk.node? a = some node) :
          (vault.disk.setCatalog id (change (vault.disk.catalog id))).node? a = some node := h
      exact ⟨rfl, fun _ guid h => h.imp_right (KeepsKinds.of_stays hnode).contains⟩

end Accrues

end Vault

end GraphVault
