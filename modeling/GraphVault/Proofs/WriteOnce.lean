import GraphVault.Proofs.Content
import GraphVault.Proofs.DirectoryCalls
import GraphVault.Proofs.Staging
import Mathlib.Data.List.Nodup
import Mathlib.Data.List.Pairwise

/-!
# Entity directories as maps

Whoever writes, reads, removes and lists below a root sees a map of copies that are written once:
the first copy of an entity stays until it is removed. What an interrupted write has left, and
whatever else is there that is not named like an entity, does not show
(`EntityDirectory.calls_perform`). It may show where the root leads through the directory of an
entity of its own.
-/

namespace GraphVault

open GraphVault.Path (Plain Admissible)

namespace EntityDirectory

open Disk

/-! ### Maps on a disk -/

/-- An address is neither that of an entry that is named like an entity nor below one. -/
def OffEntities (b a : Address) : Prop :=
  ∀ name g, Guid.parse? name = some g → ¬ b ++ [name] <+: a

variable {calls : List Call} {call : Call} {copies copies' : SortedMap Guid Stored} {g : Guid}
  {stored : Stored} {root name : String} {b x : Address} {disk after grown : Disk}

theorem OffEntities.not_below (h : OffEntities b x) (g : Guid) : ¬ b ++ [g.text] <+: x :=
  h g.text g g.parse?_text

/-- What is named like an entity is named as the directories of entities are. -/
def Lowercase (b : Address) (disk : Disk) : Prop :=
  ∀ name g, disk.node? (b ++ [name]) ≠ none → Guid.parse? name = some g → name = g.text

/-- A readable copy is published. -/
structure Published (root : String) (b : Address) (g : Guid) (stored : Stored) (disk : Disk) :
    Prop where
  guid : stored.manifest.guid = g
  readable : Readable stored
  reaches : disk.Reaches root b
  directory : disk.HasDirectory (b ++ [g.text])
  marked : Marked b g disk
  holds : disk.Holds b g stored

/-- A disk has these copies below a root that can be used, and no others. -/
structure Represents (root : String) (b : Address) (copies : SortedMap Guid Stored) (disk : Disk) :
    Prop where
  usable : Usable (OffEntities b) root b disk
  lowercase : Lowercase b disk
  published : ∀ g stored, copies.get? g = some stored → Published root b g stored disk
  unmarked : ∀ g, copies.get? g = none → ¬ Marked b g disk

/-- A copy of another entity stays published. -/
theorem Published.of_stays (h : Published root b g stored disk)
    (husable : Usable (OffEntities b) root b disk)
    (hstays : ∀ x, OffEntities b x → disk.HasDirectory x → after.HasDirectory x)
    (hnode : ∀ rest, after.node? (b ++ g.text :: rest) = disk.node? (b ++ g.text :: rest)) :
    Published root b g stored after := by
  refine ⟨h.guid, h.readable, husable.reaches_of_stays h.reaches hstays,
    (hnode []).trans h.directory, ?_, (hnode _).trans h.holds.manifest,
    (hnode _).trans h.holds.rows⟩
  obtain ⟨node, hmarker, hfile⟩ := h.marked
  exact ⟨node, (hnode _).trans hmarker, hfile⟩

private theorem node?_of_grows (h : Grows (OffEntities b) disk grown) (g : Guid) (rest : Address) :
    grown.node? (b ++ g.text :: rest) = disk.node? (b ++ g.text :: rest) := by
  cases h.node (b ++ g.text :: rest) with
  | inl heq => exact heq
  | inr hmade => exact absurd ⟨rest, by simp⟩ (hmade.1.not_below g)

/-- The directories of a root are made. -/
theorem Represents.grows (h : Represents root b copies disk)
    (hgrows : Grows (OffEntities b) disk grown) : Represents root b copies grown := by
  have hnode := node?_of_grows hgrows
  constructor
  case usable => exact h.usable.grows hgrows
  case lowercase =>
    intro name g hname hparse
    cases hgrows.node (b ++ [name]) with
    | inl heq => exact h.lowercase name g (heq ▸ hname) hparse
    | inr hmade => exact absurd List.prefix_rfl (hmade.1 name g hparse)
  case published =>
    intro g stored hget
    exact (h.published g stored hget).of_stays h.usable (fun x _ hx => hgrows.node_eq hx) (hnode g)
  case unmarked =>
    rintro g hget ⟨node, hmarker, hfile⟩
    exact h.unmarked g hget ⟨node, (hnode g _).symm.trans hmarker, hfile⟩

/-- The directory of one entity is changed. -/
theorem Represents.of_agreesOff (h : Represents root b copies disk)
    (hagrees : AgreesOff (b ++ [g.text]) disk after) (hpassable : after.Passable (b ++ [g.text]))
    (hothers : ∀ other, other ≠ g → copies'.get? other = copies.get? other)
    (hpublished : ∀ stored, copies'.get? g = some stored → Published root b g stored after)
    (hunmarked : copies'.get? g = none → ¬ Marked b g after) :
    Represents root b copies' after := by
  have hstays (x : Address) (hx : OffEntities b x) (hd : disk.HasDirectory x) :
      after.HasDirectory x := (hagrees x (hx.not_below g)).trans hd
  have hnode {other : Guid} (hne : other ≠ g) (rest : Address) :
      after.node? (b ++ other.text :: rest) = disk.node? (b ++ other.text :: rest) :=
    hagrees _ (not_prefix_text hne rest)
  constructor
  case usable =>
    exact h.usable.of_agreesOff hagrees (fun x hx => hx.not_below g) hpassable (.inl rfl)
  case lowercase =>
    intro name other hname hparse
    by_cases hprefix : b ++ [g.text] <+: b ++ [name]
    · rw [List.prefix_append_right_inj, List.cons_prefix_cons] at hprefix
      obtain ⟨rfl, -⟩ := hprefix
      rw [g.parse?_text, Option.some.injEq] at hparse
      rw [hparse]
    · exact h.lowercase name other (hagrees _ hprefix ▸ hname) hparse
  case published =>
    intro other stored hget
    by_cases hother : other = g
    · subst hother
      exact hpublished stored hget
    · rw [hothers other hother] at hget
      exact (h.published other stored hget).of_stays h.usable hstays (hnode hother)
  case unmarked =>
    intro other hget
    by_cases hother : other = g
    · subst hother
      exact hunmarked hget
    · rw [hothers other hother] at hget
      rintro ⟨node, hmarker, hfile⟩
      exact h.unmarked other hget ⟨node, (hnode hother _).symm.trans hmarker, hfile⟩

/-! ### Answers -/

theorem Represents.contains_eq (h : Represents root b copies disk) (g : Guid) :
    contains disk root g = copies.contains g := by
  rw [SortedMap.contains]
  cases hget : copies.get? g with
  | none =>
    rw [Option.isSome_none, Bool.eq_false_iff]
    exact fun hcontains => h.unmarked g hget (marked_of_contains h.usable hcontains)
  | some stored =>
    have hpublished := h.published g stored hget
    exact contains_of_marked h.usable hpublished.reaches hpublished.directory hpublished.marked

theorem Represents.contains_of_marked (h : Represents root b copies disk) (g : Guid)
    (hmarked : Marked b g disk) : contains disk root g := by
  rw [h.contains_eq, SortedMap.contains, Option.isSome_iff_ne_none]
  exact fun hget => h.unmarked g hget hmarked

theorem Represents.read_eq (h : Represents root b copies disk) (g : Guid) :
    read disk root g = match copies.get? g with
      | some stored => .ok stored
      | none => .error (.missingEntity g) := by
  have hcontains := h.contains_eq g
  rw [SortedMap.contains] at hcontains
  cases hget : copies.get? g with
  | none =>
    rw [hget] at hcontains
    exact read_of_not_contains hcontains
  | some stored =>
    rw [hget] at hcontains
    have hpublished := h.published g stored hget
    have hreferences : stored.manifest.references.length < 2 ^ 64 := by
      have hcount := stored.manifest.references_le_length_encode
      have hlimit := hpublished.readable.manifest
      have hmax : maxManifestSize < 2 ^ 64 := by decide
      omega
    refine (read_of_holds hpublished.guid hreferences hcontains fun b' hb' => ?_).1
      hpublished.readable
    rw [hpublished.reaches.base_eq, Except.ok.injEq] at hb'
    exact hb' ▸ hpublished.holds

/-- The names in a directory are the last parts of the addresses right below it. -/
theorem names_eq_ok_iff {names : List String} : disk.names root = .ok names ↔
    Admissible root ∧ ∃ b, disk.Reaches root b ∧ names = disk.nodes.keys.filterMap fun other =>
      if other.dropLast = b then other.getLast? else none := by
  rw [Disk.names, bind_eq_ok_iff]
  constructor
  · rintro ⟨address, hresolve, hnames⟩
    obtain ⟨found, hparts, hfollow⟩ := bind_eq_ok_iff.1 hresolve
    obtain ⟨hadmissible, rfl⟩ := parts_eq_ok_iff.1 hparts
    obtain ⟨hdirectory, hnames⟩ := check_bind_eq_ok_iff.1 hnames
    exact ⟨hadmissible, address, ⟨hfollow, requireDirectory_eq_ok_iff.1 hdirectory⟩,
      (Except.ok.inj hnames).symm⟩
  · rintro ⟨hadmissible, b, hreaches, rfl⟩
    exact ⟨b, bind_eq_ok_iff.2 ⟨_, parts_eq_ok_iff.2 ⟨hadmissible, rfl⟩, hreaches.1⟩,
      check_bind_eq_ok_iff.2 ⟨requireDirectory_eq_ok_iff.2 hreaches.2, rfl⟩⟩

theorem name_eq_some_iff {other : Address} :
    (if other.dropLast = b then other.getLast? else none) = some name ↔ other = b ++ [name] := by
  constructor
  · intro h
    split at h
    · rename_i hb
      rw [← hb, List.dropLast_append_getLast? name h]
    · cases h
  · rintro rfl
    simp

theorem node?_ne_none_of_mem {a : Address} (h : a ∈ disk.nodes.keys) :
    disk.node? a ≠ none := by
  unfold node?
  split
  · exact Option.some_ne_none _
  · exact Option.isSome_iff_ne_none.1 (SortedMap.mem_keys_iff.1 h)

theorem mem_keys_of_node? {a : Address} {node : Node} (hpermanent : isPermanent a = false)
    (hnode : disk.node? a = some node) : a ∈ disk.nodes.keys := by
  rw [node?, hpermanent] at hnode
  exact SortedMap.mem_keys_iff.2 (Option.isSome_iff_exists.2 ⟨node, hnode⟩)

private theorem pairwise_keys (copies : SortedMap Guid Stored) :
    copies.keys.Pairwise fun a b => (compare a b).isLE = true := by
  refine List.pairwise_map.2 (copies.sorted.imp fun hlt => ?_)
  rw [hlt]
  rfl

theorem pairwise_mergeSort_guids (guids : List Guid) :
    (guids.mergeSort fun a b => (compare a b).isLE).Pairwise
      fun a b => (compare a b).isLE = true := by
  refine List.pairwise_mergeSort (fun a b c => Std.TransCmp.isLE_trans) (fun a b => ?_) guids
  rw [@Std.OrientedCmp.eq_swap Guid compare _ b a]
  cases compare a b <;> rfl

theorem eq_of_isLE {a b : Guid} (h : (compare a b).isLE) (h' : (compare b a).isLE) :
    a = b := by
  rw [@Std.OrientedCmp.eq_swap Guid compare _ b a] at h'
  exact Std.LawfulEqCmp.eq_of_compare (Ordering.eq_eq_of_isLE_of_isLE_swap h h')

/-- The guids that are listed are those of the copies, in order. -/
theorem Represents.list_eq (h : Represents root b copies disk) (hroot : root ≠ "") :
    list disk root = copies.keys := by
  have hshort := h.usable.short
  have hadmissible : Admissible root := ⟨h.usable.no_null, hroot, by omega⟩
  have hpublished {g : Guid} (hg : g ∈ copies.keys) : ∃ stored, Published root b g stored disk := by
    obtain ⟨stored, hget⟩ := Option.isSome_iff_exists.1 (SortedMap.mem_keys_iff.1 hg)
    exact ⟨stored, h.published g stored hget⟩
  unfold list
  cases hnames : disk.names root with
  | error fault =>
    refine (List.eq_nil_iff_forall_not_mem.2 fun g hg => ?_).symm
    obtain ⟨stored, hg⟩ := hpublished hg
    rw [names_eq_ok_iff.2 ⟨hadmissible, b, hg.reaches, rfl⟩] at hnames
    cases hnames
  | ok names =>
    obtain ⟨-, b', hreaches, rfl⟩ := names_eq_ok_iff.1 hnames
    obtain rfl := h.usable.eq_of_reaches hreaches
    refine List.Perm.eq_of_pairwise (fun a b _ _ => eq_of_isLE) (pairwise_mergeSort_guids _)
      (pairwise_keys copies) ((List.mergeSort_perm _ _).trans ?_)
    refine (List.perm_ext_iff_of_nodup ?_ copies.nodup_keys).2 fun g => ?_
    · -- two names of one entity are the same, as they are both its text
      refine List.Nodup.filter _ ?_
      rw [List.Nodup, List.pairwise_filterMap, List.pairwise_filterMap]
      refine disk.nodes.nodup_keys.imp_of_mem ?_
      intro a a' ha ha' hne name hname name' hname' g hg g' hg' heq
      have htext {a : Address} {name : String} (ha : a ∈ disk.nodes.keys)
          (hname : a = b' ++ [name]) (hg : Guid.parse? name = some g) : a = b' ++ [g.text] := by
        rw [hname] at ha
        rw [hname, h.lowercase name g (node?_ne_none_of_mem ha) hg]
      exact hne ((htext ha (name_eq_some_iff.1 hname) hg).trans
        (htext ha' (name_eq_some_iff.1 hname') (heq ▸ hg')).symm)
    · simp only [List.mem_filter, List.mem_filterMap, name_eq_some_iff, h.contains_eq,
        ← SortedMap.mem_keys_iff]
      refine and_iff_right_of_imp fun hg => ?_
      obtain ⟨stored, hg'⟩ := hpublished hg
      have hkey := mem_keys_of_node? (isPermanent_text b' g []) hg'.directory
      exact ⟨g.text, ⟨b' ++ [g.text], hkey, rfl⟩, g.parse?_text⟩

/-! ### Calls on a disk -/

-- What these do is known from what they yield, so that they need not be looked into.
attribute [local irreducible] Disk.createAll EntityDirectory.write EntityDirectory.remove

/-- A copy has been published where none was. -/
private theorem Represents.publish (h : Represents root b copies disk)
    (hreaches : disk.Reaches root b) (hreadable : Readable stored) :
    Represents root b (copies.insert stored.manifest.guid stored)
      (publish disk (b ++ [stored.manifest.guid.text]) stored) := by
  have hagrees := publish_agreesOff disk (b ++ [stored.manifest.guid.text]) stored
  obtain ⟨hdirectory, hmarked⟩ := publish_marked disk b stored.manifest.guid stored
  refine h.of_agreesOff hagrees (publish_passable _ _ _ _)
    (fun other hother => SortedMap.get?_insert_of_ne _ _ hother) (fun kept hget => ?_)
    fun hget => ?_
  · rw [SortedMap.get?_insert_self, Option.some.injEq] at hget
    subst hget
    have hafter := (h.usable.reaches hreaches fun x hx => hagrees x (hx.not_below _)).2
    exact ⟨rfl, hreadable, hafter, hdirectory, hmarked, publish_holds _ _ _ _⟩
  · rw [SortedMap.get?_insert_self] at hget
    cases hget

/-- A write leaves the directories of other entities as they are, and no new directory beside
them. -/
structure WriteLeaves (root : String) (b : Address) (stored : Stored) (disk after : Disk) :
    Prop where
  others : ∀ g, stored.manifest.guid ≠ g → ∀ rest,
    after.node? (b ++ g.text :: rest) = disk.node? (b ++ g.text :: rest)
  staging : ∀ suffix, Fresh root b stored.manifest.guid suffix disk → ∀ rest,
    after.node? (b ++ stagingName stored.manifest.guid ("-" ++ suffix) :: rest) = none

theorem Represents.write_yields (h : Represents root b copies disk) (hreadable : Readable stored) :
    Yields (EntityDirectory.write root stored) disk
      (fun _ after => Represents root b ((Call.write stored).change copies) after ∧
        WriteLeaves root b stored disk after) fun _ _ => False := by
  obtain ⟨_, grown, hcreate, hgrows, hreaches⟩ := h.usable.createAll_yields.exists_ok
  have hcontains := h.contains_eq stored.manifest.guid
  rw [Call.change]
  cases hcopies : copies.contains stored.manifest.guid with
  | true =>
    apply (write_of_contains (hcontains.trans hcopies)).mono ?_ fun _ _ hfalse => hfalse
    rintro - _ rfl
    refine ⟨h, fun _ _ _ => rfl, fun suffix hfresh rest => ?_⟩
    have hfree := hfresh.free grown hcreate rest
    rw [Option.eq_none_iff_forall_ne_some] at hfree ⊢
    exact fun node hnode => hfree node (hgrows.node_eq hnode)
  | false =>
    have hnew := hcontains.trans hcopies
    apply (write_of_createAll h.usable stored hnew hcreate hgrows hreaches).mono ?_
      fun _ _ hfalse => hfalse
    rintro - _ rfl
    have hagrees := publish_agreesOff grown (b ++ [stored.manifest.guid.text]) stored
    refine ⟨(h.grows hgrows).publish hreaches hreadable, fun g hne rest => ?_,
      fun suffix hfresh rest => ?_⟩
    · rw [hagrees _ (not_prefix_text hne.symm rest), node?_of_grows hgrows]
    · exact (hagrees _ (hfresh.not_below _ rest)).trans (hfresh.free grown hcreate rest)

theorem Represents.remove_yields (h : Represents root b copies disk) (g : Guid) :
    Yields (EntityDirectory.remove root g) disk
      (fun _ after => Represents root b (copies.erase g) after ∧
        AgreesOff (b ++ [g.text]) disk after) fun _ _ => False := by
  have herased (kept : Stored) : (copies.erase g).get? g ≠ some kept := by
    rw [SortedMap.get?_erase_self]
    exact nofun
  cases hexists : disk.contains (path root g) with
  | true =>
    apply (remove_of_exists h.usable g (fun x hx => hx.not_below g) hexists).mono ?_
      fun _ _ hfalse => hfalse
    intro _ after hremoved
    refine ⟨h.of_agreesOff hremoved.agrees (hremoved.passable (h.usable.entities g))
      (fun other hother => SortedMap.get?_erase_of_ne _ hother)
      (fun kept hget => absurd hget (herased kept)) ?_, hremoved.agrees⟩
    rintro - ⟨node, hmarker, -⟩
    rw [hremoved.node [marker] (by simp)] at hmarker
    cases hmarker
  | false =>
    have hnone : copies.get? g = none := by
      rw [Option.eq_none_iff_forall_ne_some]
      intro stored hget
      have hpublished := h.published g stored hget
      rw [(contains_path_iff h.usable g).2 ⟨hpublished.reaches, hpublished.directory⟩] at hexists
      cases hexists
    simp only [EntityDirectory.remove, yields_bind, yields_get, hexists, Bool.false_eq_true,
      if_false, yields_pure]
    exact ⟨h.of_agreesOff (fun _ _ => rfl) (h.usable.entities g)
      (fun other hother => SortedMap.get?_erase_of_ne _ hother)
      (fun kept hget => absurd hget (herased kept)) fun _ => h.unmarked g hnone, fun _ _ => rfl⟩

/-- A call changes nothing but the directories that it may change. -/
structure Call.Leaves (call : Call) (b : Address) (disk after : Disk) : Prop where
  others : ∀ g, ¬ call.Changes g → ∀ rest,
    after.node? (b ++ g.text :: rest) = disk.node? (b ++ g.text :: rest)
  all : (∀ g, ¬ call.Changes g) → after = disk

theorem Call.leaves_self (call : Call) (b : Address) (disk : Disk) : call.Leaves b disk disk :=
  ⟨fun _ _ _ => rfl, fun _ => rfl⟩

/-- A call is answered as the map of the copies answers it, and changes the map as it says. -/
theorem Represents.perform_yields (h : Represents root b copies disk) (hroot : root ≠ "")
    (hcall : call.Readable) :
    Yields (call.perform root) disk
      (fun answer after => answer = call.answer copies ∧
        Represents root b (call.change copies) after ∧ call.Leaves b disk after)
      fun _ _ => False := by
  cases call with
  | write stored =>
    simp only [Call.perform, yields_bind, yields_pure]
    apply (h.write_yields hcall).mono ?_ fun _ _ hfalse => hfalse
    intro _ after hafter
    exact ⟨rfl, hafter.1, fun g hg => hafter.2.others g hg, fun hall => absurd rfl (hall _)⟩
  | remove guid =>
    simp only [Call.perform, yields_bind, yields_pure]
    apply (h.remove_yields guid).mono ?_ fun _ _ hfalse => hfalse
    intro _ after hafter
    exact ⟨rfl, hafter.1, fun g hg rest => hafter.2 _ (not_prefix_text (Ne.symm hg) rest),
      fun hall => absurd rfl (hall _)⟩
  | read guid =>
    simp only [Call.perform, yields_bind, yields_get, yields_pure, h.read_eq]
    exact ⟨rfl, h, Call.leaves_self _ _ _⟩
  | contains guid =>
    simp only [Call.perform, yields_bind, yields_get, yields_pure, h.contains_eq]
    exact ⟨rfl, h, Call.leaves_self _ _ _⟩
  | list =>
    simp only [Call.perform, yields_bind, yields_get, yields_pure, h.list_eq hroot]
    exact ⟨rfl, h, Call.leaves_self _ _ _⟩

/-- So are calls one after the other. -/
theorem Represents.calls_yield (h : Represents root b copies disk) (hroot : root ≠ "")
    (hcalls : ∀ call ∈ calls, call.Readable) :
    Yields (calls.mapM (Call.perform root)) disk
      (fun given after => given = answers copies calls ∧
        Represents root b (calls.foldl Call.change copies) after) fun _ _ => False := by
  induction calls generalizing copies disk with
  | nil => exact ⟨rfl, h⟩
  | cons call calls ih =>
    simp only [List.mapM_cons, yields_bind, yields_pure]
    apply (h.perform_yields hroot (hcalls call List.mem_cons_self)).mono ?_ fun _ _ hfalse => hfalse
    rintro _ between ⟨rfl, hbetween, -⟩
    apply (ih hbetween fun other hother => hcalls other (List.mem_cons_of_mem call hother)).mono ?_
      fun _ _ hfalse => hfalse
    rintro _ after ⟨rfl, hafter⟩
    exact ⟨rfl, hafter⟩

/-- Below a root that leads to a directory not through an entity directory of its own, no entity is
complete, and there is room for the names of the files. Then all calls succeed, and are answered as
by a map of the copies that stand, each the first that was written of its entity since that was last
removed. A call leaves the directories of other entities as they are, and changes nothing if it does
not write or remove. What is written step by step comes to the same, and the directory of the
assembly is gone afterwards. -/
theorem calls_perform (hroot : root ≠ "") (hroom : root.utf8ByteSize + 90 < 4096)
    (husable : Usable (OffEntities b) root b disk) (hlowercase : Lowercase b disk)
    (hunmarked : ∀ g, ¬ Marked b g disk) (hcalls : ∀ call ∈ calls, call.Readable) :
    ∃ now, calls.mapM (Call.perform root) disk = .ok (answers .empty calls) now ∧
      (∀ g, ((copiesAfter calls).get? g = none ↔ Vacant calls g) ∧
        ∀ stored, (copiesAfter calls).get? g = some stored ↔ Standing calls g stored) ∧
      ∀ call : Call, call.Readable → ∃ after,
        call.perform root now = .ok (call.answer (copiesAfter calls)) after ∧
        call.Leaves b now after ∧
        ∀ stored suffix, call = .write stored → Fresh root b stored.manifest.guid suffix now →
          stage root suffix stored now = .ok () after ∧
            ∀ rest, after.node? (b ++ stagingName stored.manifest.guid ("-" ++ suffix) :: rest)
              = none := by
  have hstart : Represents root b .empty disk :=
    ⟨husable, hlowercase, nofun, fun g _ => hunmarked g⟩
  obtain ⟨_, now, hperform, rfl, hnow⟩ := (hstart.calls_yield hroot hcalls).exists_ok
  refine ⟨now, hperform, get?_copiesAfter calls, fun call hcall => ?_⟩
  have hcall' := hnow.perform_yields hroot hcall
  obtain ⟨_, after, hafter, rfl, -, hleaves⟩ := hcall'.exists_ok
  refine ⟨after, hafter, hleaves, ?_⟩
  rintro stored suffix rfl hfresh
  obtain ⟨_, last, hwrite, -, hlast⟩ := (hnow.write_yields hcall).exists_ok
  have hsame : last = after := by
    simp only [Call.perform, bind, EStateM.bind, hwrite, pure, EStateM.pure] at hafter
    exact (EStateM.Result.ok.inj hafter).2
  rw [stage_eq_write hnow.usable (fun x hx => hx.not_below _) hroom (hnow.contains_of_marked _)
    hfresh]
  exact hsame ▸ ⟨hwrite, hlast.staging suffix hfresh⟩

/-- A copy of an empty vertex set, with a byte to tell it from others. -/
def sampleCopy (g : Guid) (byte : UInt8) : Stored := ⟨⟨g, .vertexSet, 0, []⟩, [byte]⟩

theorem readable_sampleCopy (g : Guid) (byte : UInt8) : Readable (sampleCopy g byte) :=
  readable_of_limits (Nat.zero_le 2) (rfl : _ = UInt64.ofNat 0) (Nat.zero_le _)
    (by simp [sampleCopy])

/-- What interrupted writes have left in a directory: a copy without a marker, and one that was not
put in its place. -/
def littered : Disk :=
  (((Disk.empty.put ["data"] .directory).put
    ["data", stagingName (Guid.filled 1) "-Zz09aA"] .directory).put
    ["data", (Guid.filled 1).text] .directory).put
    ["data", (Guid.filled 1).text, manifestFile] (.file (.stored [0]))

private theorem node?_littered {node : Node} (h : littered.node? ("data" :: x) = some node) :
    node = .directory ∧ (x = [] ∨ x = [stagingName (Guid.filled 1) "-Zz09aA"] ∨
        x = [(Guid.filled 1).text]) ∨
      x = [(Guid.filled 1).text, manifestFile] := by
  have hput {disk : Disk} {address : Address} {made : Node}
      (h : (disk.put address made).node? ("data" :: x) = some node) :
      "data" :: x = address ∧ node = made ∨ disk.node? ("data" :: x) = some node := by
    by_cases heq : "data" :: x = address
    · subst heq
      rw [node?_put_self _ _ (isPermanent_of_mem List.mem_cons_self (by decide) (by decide)),
        Option.some.injEq] at h
      exact .inl ⟨rfl, h.symm⟩
    · exact .inr (node?_put_of_ne _ _ heq ▸ h)
  rcases hput h with ⟨heq, -⟩ | h
  · exact .inr (List.cons.inj heq).2
  rcases hput h with ⟨heq, rfl⟩ | h
  · exact .inl ⟨rfl, .inr (.inr (List.cons.inj heq).2)⟩
  rcases hput h with ⟨heq, rfl⟩ | h
  · exact .inl ⟨rfl, .inr (.inl (List.cons.inj heq).2)⟩
  rcases hput h with ⟨heq, rfl⟩ | h
  · exact .inl ⟨rfl, .inl (List.cons.inj heq).2⟩
  rw [node?, isPermanent_of_mem List.mem_cons_self (by decide) (by decide)] at h
  cases h

private theorem usable_littered {outside : Address → Prop} (hworking : outside workingDirectory)
    (hname : outside ["data"]) : Usable outside "data" ["data"] littered := by
  refine usable_of_plain (by decide) hworking
    hname (fun node hnode => ?_) fun g node hnode => ?_
  · rcases node?_littered hnode with ⟨rfl, -⟩ | heq
    · rfl
    · simp at heq
  · rcases node?_littered hnode with ⟨rfl, -⟩ | heq
    · rfl
    · simp at heq

private theorem fresh_littered : Fresh "data" ["data"] (Guid.filled 1) "a1B2c3" littered := by
  refine ⟨by decide, List.all_eq_true.1 rfl, fun grown hcreate rest => ?_⟩
  have husable : Usable (fun x => x = workingDirectory ∨ x = ["data"]) "data" ["data"] littered :=
    usable_littered (.inl rfl) (.inr rfl)
  obtain ⟨_, _, hcreate', hgrows, -⟩ := husable.createAll_yields.exists_ok
  rw [hcreate] at hcreate'
  cases hcreate'
  rw [Option.eq_none_iff_forall_ne_some]
  intro node hnode
  cases hgrows.node (["data"] ++ stagingName (Guid.filled 1) ("-" ++ "a1B2c3") :: rest) with
  | inl heq =>
    rw [heq] at hnode
    have hname {name : String} (hsize : name.utf8ByteSize = 64) :
        stagingName (Guid.filled 1) ("-" ++ "a1B2c3") ≠ name := by
      rintro rfl
      rw [utf8ByteSize_stagingName] at hsize
      exact absurd hsize (by decide)
    have hnew : stagingName (Guid.filled 1) ("-" ++ "a1B2c3")
        ≠ stagingName (Guid.filled 1) "-Zz09aA" := by decide
    rcases node?_littered hnode with ⟨-, hempty | hstaging | hguid⟩ | hfile
    · cases hempty
    · exact hnew (List.cons.inj hstaging).1
    · exact hname (Guid.utf8ByteSize_text _) (List.cons.inj hguid).1
    · exact hname (Guid.utf8ByteSize_text _) (List.cons.inj hfile).1
  | inr hmade =>
    obtain ⟨hmade | hmade, -⟩ := hmade
    · cases hmade
    · simp at hmade

/-- After an interrupted write, an entity is written once, removed, and written anew. -/
theorem calls_perform_littered :
    let guid := Guid.filled 1
    let first := sampleCopy guid 1
    let second := sampleCopy guid 2
    "data" ≠ "" ∧ Usable (OffEntities ["data"]) "data" ["data"] littered ∧
      Lowercase ["data"] littered ∧ (∀ g, ¬ Marked ["data"] g littered) ∧
      (∃ now, [.write first, .write second, .read guid, .remove guid, .read guid, .write second,
          .read guid, .list].mapM (Call.perform "data") littered
        = .ok [.done, .done, .copy (.ok first), .done, .copy (.error (.missingEntity guid)), .done,
          .copy (.ok second), .guids [guid]] now) ∧
      ∃ after, stage "data" "a1B2c3" first littered = .ok () after ∧
        ∀ rest, after.node? (["data"] ++ stagingName guid ("-" ++ "a1B2c3") :: rest) = none := by
  intro guid first second
  have husable : Usable (OffEntities ["data"]) "data" ["data"] littered := by
    refine usable_littered ?_ ?_
    · intro name g _
      simp [workingDirectory]
    · intro name g _
      simp
  have hlowercase : Lowercase ["data"] littered := by
    intro name g hname hparse
    obtain ⟨node, hnode⟩ := Option.ne_none_iff_exists'.1 hname
    rcases node?_littered hnode with ⟨-, hempty | hstaging | hguid⟩ | hfile
    · cases hempty
    · obtain rfl := (List.cons.inj hstaging).1
      have hnone : Guid.parse? (stagingName (Guid.filled 1) "-Zz09aA") = none := by decide
      rw [hnone] at hparse
      cases hparse
    · obtain rfl := (List.cons.inj hguid).1
      rw [Guid.parse?_text, Option.some.injEq] at hparse
      rw [hparse]
    · simp at hfile
  have hunmarked (g : Guid) : ¬ Marked ["data"] g littered := by
    rintro ⟨node, hnode, hfile⟩
    rcases node?_littered hnode with ⟨rfl, -⟩ | heq
    · exact hfile rfl
    · simp [marker, manifestFile] at heq
  refine ⟨by decide, husable, hlowercase, hunmarked, ?_, ?_⟩
  · obtain ⟨now, hnow, -⟩ := calls_perform (by decide) (by decide) husable hlowercase hunmarked
      (show ∀ call ∈ [Call.write first, .write second, .read guid, .remove guid, .read guid,
        .write second, .read guid, .list], call.Readable by
          simp [Call.Readable, first, second, readable_sampleCopy])
    exact ⟨now, hnow⟩
  · obtain ⟨now, hnow, -, hcall⟩ := calls_perform (by decide) (by decide) husable hlowercase
      hunmarked (List.forall_mem_nil Call.Readable)
    cases hnow
    obtain ⟨after, -, -, hstage⟩ := hcall (.write first) (readable_sampleCopy guid 1)
    exact ⟨after, hstage first "a1B2c3" rfl fresh_littered⟩

/-! ### Roots that lead through themselves -/

/-- The working directory, by way of a directory in it. -/
def winding (name : String) : String := name ++ "/" ++ ".."

theorem way_winding_iff (hplain : Plain name) {p : Address → Prop} :
    Way p (origin (winding name)) (Path.segments (winding name)) [] ↔ p [] ∧ p [name] := by
  have hsegments : Path.segments (winding name) = [name, ".."] := by
    rw [winding, Path.segments_append_slash, Path.segments_of_no_slash hplain.no_slash,
      Path.segments_of_no_slash (by decide)]
    rfl
  have horigin : origin (winding name) = [] := by
    have hcons : name.toList ≠ [] := fun hnil => hplain.ne_empty (String.toList_inj.1 hnil)
    obtain ⟨c, cs, hcs⟩ := List.exists_cons_of_ne_nil hcons
    have hslash := hplain.no_slash
    rw [hcs, List.mem_cons, not_or] at hslash
    have hrelative : Path.isAbsolute (winding name) = false := by
      simpa [Path.isAbsolute, winding, hcs] using Ne.symm hslash.1
    rw [origin, hrelative]
    rfl
  have hback : enter [name] ".." = .ok [] := by
    have hroot : name ≠ "/" := by
      rintro rfl
      exact hplain.no_slash (by decide)
    have habove : above [name] = [] := by
      rw [above, if_neg (by simpa [Disk.root] using hroot),
        isPermanent_of_mem (List.mem_singleton_self name) hroot hplain.ne_parent]
      rfl
    exact congrArg Except.ok habove
  rw [hsegments, horigin]
  constructor
  · intro hway
    cases hway with
    | enter hp henter rest =>
      rw [enter_plain hplain, Except.ok.injEq] at henter
      subst henter
      exact ⟨hp, rest.first⟩
  · rintro ⟨hp, hname⟩
    exact .enter hp (enter_plain hplain []) (.enter hname hback (.done hp))

theorem reaches_winding_iff (hplain : Plain name) :
    disk.Reaches (winding name) [] ↔ disk.HasDirectory [name] := by
  rw [reaches_iff_way, way_winding_iff hplain]
  exact and_iff_right rfl

theorem usable_winding (hplain : Plain name) :
    Usable (fun x => x = [] ∨ x = [name]) (winding name) [] .empty := by
  have hsize : (winding name).utf8ByteSize = name.utf8ByteSize + 3 := by
    rw [winding, String.utf8ByteSize_append, String.utf8ByteSize_append]
    rfl
  have hshort := hplain.short
  constructor
  case no_null => simpa [winding] using hplain.no_null
  case short => omega
  case way =>
    exact (way_winding_iff hplain).2 ⟨⟨.inl rfl, passable_empty _⟩, ⟨.inr rfl, passable_empty _⟩⟩
  case dot => exact fun _ _ => rfl
  case entities => exact fun g => passable_empty _

/-- What is written below such a root is there, and so is the directory on its way. -/
private theorem write_winding (hplain : Plain name) (hname : name ≠ stored.manifest.guid.text) :
    Yields (write (winding name) stored) .empty
      (fun _ after => Usable (fun x => x = [] ∨ x = [name]) (winding name) [] after ∧
        after.Reaches (winding name) [] ∧ after.HasDirectory ([] ++ [stored.manifest.guid.text]) ∧
        contains after (winding name) stored.manifest.guid) fun _ _ => False := by
  have hempty := usable_winding hplain
  have hnew : contains .empty (winding name) stored.manifest.guid = false := by
    rw [Bool.eq_false_iff]
    intro hcontains
    obtain ⟨node, hnode, hfile⟩ := marked_of_contains hempty hcontains
    exact hfile (passable_empty _ node hnode)
  apply (write_publishes hempty stored hnew).mono ?_ fun _ _ hfalse => hfalse
  rintro _ _ ⟨grown, hgrows, hreaches, rfl⟩
  have hagrees := publish_agreesOff grown ([] ++ [stored.manifest.guid.text]) stored
  obtain ⟨hdirectory, hmarked⟩ := publish_marked grown [] stored.manifest.guid stored
  have hapart (x : Address) (hx : x = [] ∨ x = [name]) :
      ¬ [] ++ [stored.manifest.guid.text] <+: x := by
    rcases hx with rfl | rfl
    · simp
    · simpa using Ne.symm hname
  have hgrown := hempty.grows hgrows
  have hafter := hgrown.of_agreesOff hagrees hapart (publish_passable _ _ _ _) (.inl rfl)
  have hreaches' := (hgrown.reaches hreaches fun x hx => hagrees x (hapart x hx)).2
  exact ⟨hafter, hreaches', hdirectory, contains_of_marked hafter hreaches' hdirectory hmarked⟩

/-- With an entity through whose directory the root leads, all others are gone. -/
theorem calls_winding_remove (hne : stored.manifest.guid ≠ g) :
    Yields ([.write stored, .remove g, .contains stored.manifest.guid].mapM
        (Call.perform (winding g.text))) .empty
      (fun given _ => given = [.done, .done, .present false]) fun _ _ => False := by
  have hplain := g.plain_text
  simp only [List.mapM_cons, List.mapM_nil, Call.perform, yields_bind, yields_pure, yields_get]
  apply (write_winding hplain fun heq => hne (Guid.text_injective heq).symm).mono ?_
    fun _ _ hfalse => hfalse
  rintro _ written ⟨husable, hreaches, -⟩
  have hadmissible := husable.admissible_path g
  have hdirectory : written.HasDirectory ([] ++ [g.text]) := (reaches_winding_iff hplain).1 hreaches
  have hcleared : (written.clear ([] ++ [g.text])).Reaches (winding g.text) [] := by
    rw [reaches_winding_iff hplain, HasDirectory, node?_clear_of_not_below _ (by simp [isBelow])]
    exact hdirectory
  have hexists := contains_path_of_reaches hadmissible hreaches hdirectory
  simp only [remove, yields_bind, yields_get, hexists, if_true, yields_adaptExcept]
  apply (removeAll_of_reaches hadmissible hreaches hdirectory hcleared).mono ?_
    fun _ _ hfalse => hfalse
  rintro _ after hafter
  have hlost : contains after (winding g.text) stored.manifest.guid = false := by
    rw [Bool.eq_false_iff]
    intro hcontains
    obtain ⟨-, b, hb, -⟩ := contains_iff.1 hcontains
    obtain rfl := husable.eq_of_reaches hb
    have hthere : after.node? ([] ++ [g.text]) = some .directory :=
      (reaches_winding_iff hplain).1 hb
    rw [hafter, node?_removeTree_of_prefix _ List.prefix_rfl (isPermanent_text [] g [])] at hthere
    cases hthere
  rw [hlost]

/-- An entity through another writing of whose name the root leads is listed twice. -/
theorem calls_winding_list (hplain : Plain name)
    (hparse : Guid.parse? name = some stored.manifest.guid)
    (hname : name ≠ stored.manifest.guid.text) :
    Yields ([.write stored, .list].mapM (Call.perform (winding name))) .empty
      (fun given _ => ∃ guids, given = [.done, .guids guids] ∧ ¬ guids.Nodup) fun _ _ => False := by
  simp only [List.mapM_cons, List.mapM_nil, Call.perform, yields_bind, yields_pure, yields_get]
  apply (write_winding hplain hname).mono ?_ fun _ _ hfalse => hfalse
  rintro _ after ⟨husable, hreaches, hdirectory, hcontains⟩
  refine ⟨_, rfl, fun hnodup => ?_⟩
  have hsize := husable.short
  have hadmissible : Admissible (winding name) := by
    refine ⟨husable.no_null, ?_, by omega⟩
    simp [winding]
  have hother : after.HasDirectory ([] ++ [name]) := (reaches_winding_iff hplain).1 hreaches
  rw [list, names_eq_ok_iff.2 ⟨hadmissible, [], hreaches, rfl⟩] at hnodup
  have hpairwise := (List.mergeSort_perm _ _).nodup_iff.1 hnodup
  rw [List.Nodup, List.pairwise_filter, List.pairwise_filterMap,
    List.pairwise_filterMap] at hpairwise
  -- the two names that are read as the guid are the same if it is listed once
  have hapart := @List.Pairwise.forall _ _ _
    ⟨fun _ _ h name hname name' hname' g hg g' hg' hc hc' =>
      (h name' hname' name hname g' hg' g hg hc' hc).symm⟩ hpairwise
  exact hapart (mem_keys_of_node? (isPermanent_plain hplain [] []) hother)
    (mem_keys_of_node? (isPermanent_text [] _ []) hdirectory) (by simpa using hname)
    name (name_eq_some_iff.2 rfl) _ (name_eq_some_iff.2 rfl) _ hparse _ (Guid.parse?_text _)
    hcontains hcontains rfl

/-- Nothing is listed below the root without a name, which is the working directory for writes. -/
theorem calls_unnamed (stored : Stored) :
    Yields ([.write stored, .list].mapM (Call.perform "")) .empty
      (fun given _ => given = [.done, .guids []]) fun _ _ => False := by
  have husable : Usable (fun _ => True) "" [] .empty := by
    refine ⟨by decide, by decide, ?_, fun _ _ => rfl, fun g => passable_empty _⟩
    exact .enter ⟨trivial, passable_empty _⟩ (enter_empty []) (.done ⟨trivial, passable_empty _⟩)
  simp only [List.mapM_cons, List.mapM_nil, Call.perform, yields_bind, yields_pure, yields_get]
  apply (write_succeeds husable stored).mono ?_ fun _ _ hfalse => hfalse
  intro _ _ _
  rfl

/-- Below no name nothing is listed, and a root that leads through the directory of an entity, also
one whose name is written in capitals, shows what is written below it lost or twice. -/
theorem calls_perform_fails :
    let first := Guid.filled 1
    let second := Guid.filled 2
    let third := Guid.filled 0xAB
    let capitals := "ABABABABABABABABABABABABABABABABABABABABABABABABABABABABABABABAB"
    (∃ now, [.write (sampleCopy first 1), .list].mapM (Call.perform "") .empty
        = .ok [.done, .guids []] now ∧
      answers .empty [.write (sampleCopy first 1), .list] = [.done, .guids [first]]) ∧
    (∃ now, [.write (sampleCopy second 1), .remove first, .contains second].mapM
        (Call.perform (winding first.text)) .empty = .ok [.done, .done, .present false] now ∧
      answers .empty [.write (sampleCopy second 1), .remove first, .contains second]
        = [.done, .done, .present true]) ∧
    ∃ now guids, [.write (sampleCopy third 1), .list].mapM (Call.perform (winding capitals)) .empty
        = .ok [.done, .guids guids] now ∧ ¬ guids.Nodup ∧
      answers .empty [.write (sampleCopy third 1), .list] = [.done, .guids [third]] := by
  intro first second third capitals
  refine ⟨?_, ?_, ?_⟩
  · obtain ⟨_, now, hnow, rfl⟩ := (calls_unnamed (sampleCopy first 1)).exists_ok
    exact ⟨now, hnow, rfl⟩
  · have hne : (sampleCopy second 1).manifest.guid ≠ first := by decide
    obtain ⟨_, now, hnow, rfl⟩ := (calls_winding_remove hne).exists_ok
    exact ⟨now, hnow, rfl⟩
  · have hplain : Plain capitals := by decide
    have hparse : Guid.parse? capitals = some (sampleCopy third 1).manifest.guid := by decide
    obtain ⟨_, now, hnow, guids, rfl, htwice⟩ :=
      (calls_winding_list hplain hparse (by decide)).exists_ok
    exact ⟨now, guids, hnow, htwice, rfl⟩

end EntityDirectory

end GraphVault
