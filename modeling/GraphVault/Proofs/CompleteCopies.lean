import GraphVault.Proofs.Sites

/-!
# Complete copies

Below a root that can be used, a copy that is written where none was is complete and is read back.
What happens to the copy of one entity spares those of the others: they are read as before.
-/

namespace GraphVault

open EntityDirectory

namespace Disk

variable {root : String} {b : Address} {g x : Guid} {stored : Stored} {disk after last : Disk}

/-- Below its root a disk changes at will, and elsewhere directories may be made. -/
abbrev UsableRoot (root : String) (b : Address) (disk : Disk) : Prop :=
  Usable (fun a => ¬ Inside b a) root b disk

/-! ### What is spared -/

/-- What is there of an entity stays, and so do the directories that lead to it. -/
structure Spares (b : Address) (x : Guid) (disk after : Disk) : Prop where
  way : ∀ a, ¬ Inside b a → disk.HasDirectory a → after.HasDirectory a
  node : ∀ rest node, disk.node? (b ++ x.text :: rest) = some node →
    after.node? (b ++ x.text :: rest) = some node

theorem Spares.trans (h : Spares b x disk after) (h' : Spares b x after last) :
    Spares b x disk last :=
  ⟨fun a ha hd => h'.way a ha (h.way a ha hd), fun _ _ hn => h'.node _ _ (h.node _ _ hn)⟩

theorem Spares.holds (h : Spares b x disk after) (hholds : disk.Holds b x stored) :
    after.Holds b x stored := ⟨h.node _ _ hholds.manifest, h.node _ _ hholds.rows⟩

theorem spares_of_nodes (h : after.nodes = disk.nodes) : Spares b x disk after := by
  have hnode (a : Address) : after.node? a = disk.node? a := by rw [node?, node?, h]
  exact ⟨fun a _ hd => (hnode a).trans hd, fun _ _ hn => (hnode _).trans hn⟩

theorem spares_grows {allowed : Address → Prop} (h : Grows allowed disk after) :
    Spares b x disk after :=
  ⟨fun _ _ hd => h.node_eq hd, fun _ _ hn => h.node_eq hn⟩

theorem spares_agreesBut (h : AgreesBut (catalogAddress b) disk after) : Spares b x disk after := by
  constructor
  case way =>
    intro a ha hd
    apply (h a ?_).trans hd
    rintro rfl
    exact ha (Site.inside_catalogAddress b)
  case node =>
    intro rest node hn
    exact (h _ (text_ne_catalogAddress b x rest)).trans hn

theorem spares_prepared (husable : UsableRoot root b disk) (h : Prepared root disk after) :
    Spares b x disk after := by
  obtain ⟨grown, hgrows, hafter⟩ := h
  have hgrown : Spares b x disk grown := spares_grows hgrows
  cases hafter with
  | inl heq => exact heq ▸ hgrown
  | inr hcatalog =>
    obtain ⟨b', hb', hagrees⟩ := hcatalog
    have hbase : base root = .ok b := husable.way.walk_eq
    rw [hb', Except.ok.injEq] at hbase
    rw [hbase] at hagrees
    exact hgrown.trans (spares_agreesBut hagrees)

/-- Other entities are spared. -/
theorem spares_agreesOff (h : AgreesOff (b ++ [g.text]) disk after) (hne : x ≠ g) :
    Spares b x disk after := by
  constructor
  case way =>
    intro a ha hd
    apply (h a ?_).trans hd
    exact fun habove => ha (inside_of_above habove)
  case node =>
    intro rest node hn
    exact (h _ (not_prefix_text hne rest)).trans hn

theorem Spares.reaches (h : Spares b x disk after) (husable : UsableRoot root b disk)
    (hreaches : disk.Reaches root b) : after.Reaches root b :=
  husable.reaches_of_stays hreaches h.way

theorem Spares.find (h : Spares b x disk after) (husable : UsableRoot root b disk)
    {file : String} (hfile : Path.Plain file) {node : Node}
    (hfind : disk.find (Path.join (path root x) file) = .ok node) :
    after.find (Path.join (path root x) file) = .ok node := by
  unfold Disk.find at hfind ⊢
  obtain ⟨address, hresolve, hnode⟩ := bind_eq_ok_iff.1 hfind
  obtain ⟨hadmissible, b', hreaches, hdirectory, rfl⟩ := (resolve_file_iff hfile).1 hresolve
  obtain rfl := husable.eq_of_reaches hreaches
  have hafter : after.resolve (Path.join (path root x) file) = .ok (b' ++ [x.text, file]) :=
    (resolve_file_iff hfile).2 ⟨hadmissible, b', h.reaches husable hreaches,
      h.node [] _ hdirectory, rfl⟩
  rw [hafter]
  cases hthere : disk.node? (b' ++ [x.text, file]) with
  | none =>
    rw [hthere] at hnode
    cases hnode
  | some found =>
    rw [hthere] at hnode
    simp only [bind, Except.bind, h.node _ _ hthere]
    exact hnode

private theorem Spares.readLimited (h : Spares b x disk after) (husable : UsableRoot root b disk)
    {file : String} (hfile : Path.Plain file) {limit : Nat} {bytes : Bytes}
    (hread : readLimited disk (Path.join (path root x) file) limit = .ok bytes) :
    readLimited after (Path.join (path root x) file) limit = .ok bytes := by
  have hsame : after.find (Path.join (path root x) file)
      = disk.find (Path.join (path root x) file) := by
    cases hfind : disk.find (Path.join (path root x) file) with
    | ok node => exact h.find husable hfile hfind
    | error fault =>
      rw [EntityDirectory.readLimited, Disk.sizeOf, hfind] at hread
      cases hread
  rw [EntityDirectory.readLimited, Disk.sizeOf, Disk.read, hsame]
  exact hread

theorem Spares.contains (h : Spares b x disk after) (husable : UsableRoot root b disk)
    (hcontains : EntityDirectory.contains disk root x) :
    EntityDirectory.contains after root x := by
  unfold EntityDirectory.contains isFile at hcontains ⊢
  cases hfind : disk.find (Path.join (path root x) marker) with
  | ok node =>
    rw [hfind] at hcontains
    rw [h.find husable plain_marker hfind]
    exact hcontains
  | error fault =>
    rw [hfind] at hcontains
    cases hcontains

/-- When a copy is read. -/
theorem read_eq_ok_iff : EntityDirectory.read disk root g = .ok stored ↔
    EntityDirectory.contains disk root g ∧ ∃ bytes,
      readLimited disk (Path.join (path root g) manifestFile) maxManifestSize = .ok bytes ∧
      Manifest.decode bytes g = .ok stored.manifest ∧
      readLimited disk (Path.join (path root g) rowsFile) maxRowFileSize = .ok stored.rows := by
  cases hcontains : EntityDirectory.contains disk root g with
  | false => simp [read_of_not_contains hcontains]
  | true =>
    have hread : EntityDirectory.read disk root g = (do
        let bytes ← readLimited disk (Path.join (path root g) manifestFile) maxManifestSize
        let manifest ← Manifest.decode bytes g
        let rows ← readLimited disk (Path.join (path root g) rowsFile) maxRowFileSize
        return ⟨manifest, rows⟩) := by
      rw [EntityDirectory.read, hcontains]
      rfl
    simp only [hread, bind_eq_ok_iff, true_and]
    constructor
    · rintro ⟨bytes, hbytes, manifest, hmanifest, rows, hrows, hresult⟩
      cases hresult
      exact ⟨bytes, hbytes, hmanifest, hrows⟩
    · rintro ⟨bytes, hbytes, hmanifest, hrows⟩
      exact ⟨bytes, hbytes, _, hmanifest, _, hrows, rfl⟩

theorem contains_of_read (h : EntityDirectory.read disk root g = .ok stored) :
    EntityDirectory.contains disk root g := (read_eq_ok_iff.1 h).1

/-- The copy of an entity that is spared is read as before. -/
theorem Spares.read (h : Spares b x disk after) (husable : UsableRoot root b disk)
    (hread : EntityDirectory.read disk root x = .ok stored) :
    EntityDirectory.read after root x = .ok stored := by
  obtain ⟨hcontains, bytes, hbytes, hmanifest, hrows⟩ := read_eq_ok_iff.1 hread
  exact read_eq_ok_iff.2 ⟨h.contains husable hcontains, bytes,
    h.readLimited husable plain_manifestFile hbytes, hmanifest,
    h.readLimited husable plain_rowsFile hrows⟩

/-! ### Writing and removing -/

/-- The marker of an entity is there, which is the mark of a complete copy. -/
def Marked (b : Address) (g : Guid) (disk : Disk) : Prop := disk.HoldsFile (b ++ [g.text, marker])

/-- On the empty disk, a plain name can be a root. -/
theorem usableRoot_empty {name : String} (h : Path.Plain name) :
    UsableRoot name [name] Disk.empty :=
  usable_of_plain h (not_inside_workingDirectory name) (not_inside_name name name)
    (passable_empty _) fun _ => passable_empty _

theorem not_marked_empty (b : Address) (g : Guid) : ¬ Marked b g Disk.empty := by
  rintro ⟨node, hnode, -⟩
  rw [node?_empty_of_inside (inside_text b g _)] at hnode
  cases hnode

theorem Spares.marked (h : Spares b x disk after) (hmarked : Marked b x disk) :
    Marked b x after := by
  obtain ⟨node, hnode, hfile⟩ := hmarked
  exact ⟨node, h.node _ _ hnode, hfile⟩

theorem marked_of_contains {outside : Address → Prop} (husable : Usable outside root b disk)
    (h : EntityDirectory.contains disk root g) : Marked b g disk := by
  obtain ⟨-, b', hreaches, -, hfile⟩ := contains_iff.1 h
  obtain rfl := husable.eq_of_reaches hreaches
  exact hfile

/-- A copy has been written: it is complete, and those of other entities are as they were. -/
structure Wrote (root : String) (b : Address) (g : Guid) (stored : Stored) (disk after : Disk) :
    Prop where
  usable : UsableRoot root b after
  contains : EntityDirectory.contains after root g
  holds : after.Holds b g stored
  spares : ∀ x, x ≠ g → Spares b x disk after
  marks : ∀ x, x ≠ g → Marked b x after → Marked b x disk
  database : after.node? (catalogAddress b) = disk.node? (catalogAddress b)

/-- Where there was no copy before, all that were complete are as they were. -/
theorem Wrote.spares_of_marked (h : Wrote root b g stored disk after) (hnew : ¬ Marked b g disk)
    {x : Guid} (hx : Marked b x disk) : Spares b x disk after := by
  apply h.spares x
  rintro rfl
  exact hnew hx

/-- What has been written is read back. -/
theorem Wrote.read (h : Wrote root b g stored disk after) (hguid : stored.manifest.guid = g)
    (hreferences : stored.manifest.references.length < 2 ^ 64) (hreadable : Readable stored) :
    EntityDirectory.read after root g = .ok stored := by
  have hholds : ∀ b', base root = .ok b' → after.Holds b' g stored := by
    intro b' hb'
    have hbase : base root = .ok b := h.usable.way.walk_eq
    rw [hb', Except.ok.injEq] at hbase
    rw [hbase]
    exact h.holds
  exact (read_of_holds hguid hreferences h.contains hholds).1 hreadable

/-- Only the nodes of the disk matter. -/
theorem Wrote.of_nodes (h : Wrote root b g stored disk after) (hnodes : last.nodes = after.nodes) :
    Wrote root b g stored disk last := by
  have hnode (a : Address) : last.node? a = after.node? a := by rw [node?, node?, hnodes]
  constructor
  case usable => exact Site.usable_of_nodes h.usable hnodes
  case contains => exact (spares_of_nodes (b := b) hnodes).contains h.usable h.contains
  case holds => exact ⟨(hnode _).trans h.holds.manifest, (hnode _).trans h.holds.rows⟩
  case spares =>
    intro x hne
    exact (h.spares x hne).trans (spares_of_nodes hnodes)
  case marks =>
    rintro x hne ⟨node, hmarker, hfile⟩
    exact h.marks x hne ⟨node, (hnode _).symm.trans hmarker, hfile⟩
  case database => exact (hnode _).trans h.database

/-- Below a root that can be used, an entity is complete if its directory can be reached and has the
marker. -/
theorem contains_of_marked {outside : Address → Prop} (husable : Usable outside root b disk)
    (hreaches : disk.Reaches root b) (hdirectory : disk.HasDirectory (b ++ [g.text]))
    (hmarked : Marked b g disk) : EntityDirectory.contains disk root g := by
  have hpath : (path root g).utf8ByteSize ≤ root.utf8ByteSize + 65 := by
    have hfront := Path.frontSize_le root
    rw [path, Path.size_join g.plain_text, Guid.utf8ByteSize_text]
    omega
  have hadmissible : Path.Admissible (Path.join (path root g) marker) := by
    rw [Path.admissible_join_iff plain_marker]
    have hfront := Path.frontSize_le (path root g)
    have hshort := husable.short
    have hmarker : marker.utf8ByteSize = 8 := by decide
    exact ⟨(husable.admissible_path g).no_null, by omega⟩
  exact contains_iff.2 ⟨hadmissible, b, hreaches, hdirectory, hmarked⟩

/-- What is published has its directory and its marker. -/
theorem publish_marked (disk : Disk) (b : Address) (g : Guid) (stored : Stored) :
    (publish disk (b ++ [g.text]) stored).HasDirectory (b ++ [g.text]) ∧
      Marked b g (publish disk (b ++ [g.text]) stored) := by
  have hfile (file : String) : b ++ [g.text] ≠ b ++ [g.text] ++ [file] := by simp
  constructor
  · rw [HasDirectory, publish, node?_put_of_ne _ _ (hfile _), node?_put_of_ne _ _ (hfile _),
      node?_put_of_ne _ _ (hfile _), node?_put_self _ _ (isPermanent_text b g [])]
  · refine ⟨.file (.stored []), ?_, by simp⟩
    rw [publish, List.append_assoc, List.append_assoc, List.append_assoc]
    exact node?_put_self _ _ (isPermanent_text b g [marker])

private theorem wrote_publish (husable : UsableRoot root b disk) {grown : Disk}
    (hgrows : Grows (fun a => ¬ Inside b a) disk grown) (hreaches : grown.Reaches root b)
    (g : Guid) (stored : Stored) :
    Wrote root b g stored disk (publish grown (b ++ [g.text]) stored) := by
  have hgrown : UsableRoot root b grown := husable.grows hgrows
  have hagrees := publish_agreesOff grown (b ++ [g.text]) stored
  have husable : UsableRoot root b (publish grown (b ++ [g.text]) stored) :=
    hgrown.of_agreesOff hagrees (fun _ ha => ha ∘ inside_of_above) (publish_passable _ _ _ _)
      (.inl rfl)
  constructor
  case usable => exact husable
  case contains =>
    obtain ⟨hdirectory, hmarked⟩ := publish_marked grown b g stored
    refine contains_of_marked husable (hgrown.reaches hreaches ?_).2 hdirectory hmarked
    exact fun a ha => hagrees a (ha ∘ inside_of_above)
  case holds => exact publish_holds grown b g stored
  case spares =>
    intro x hne
    exact (spares_grows hgrows).trans (spares_agreesOff hagrees hne)
  case marks =>
    rintro x hne ⟨node, hnode, hfile⟩
    have hbefore : grown.node? (b ++ [x.text, marker]) = some node :=
      (hagrees _ (not_prefix_text hne _)).symm.trans hnode
    cases hgrows.node (b ++ [x.text, marker]) with
    | inl heq => exact ⟨node, heq ▸ hbefore, hfile⟩
    | inr hmade => exact absurd (inside_text b x [marker]) hmade.1
  case database =>
    apply (hagrees _ (not_above_catalogAddress b g)).trans
    cases hgrows.node (catalogAddress b) with
    | inl heq => exact heq
    | inr hmade => exact absurd (Site.inside_catalogAddress b) hmade.1

/-- A copy is written where none is complete. -/
theorem write_of_not_contains (husable : UsableRoot root b disk) (hguid : stored.manifest.guid = g)
    (hnot : EntityDirectory.contains disk root g = false) :
    Yields (EntityDirectory.write root stored) disk
      (fun _ after => Wrote root b g stored disk after) fun _ _ => False := by
  apply (write_publishes husable stored (hguid ▸ hnot)).mono ?_ fun _ _ hfalse => hfalse
  rintro - after ⟨grown, hgrows, hreaches, rfl⟩
  rw [hguid]
  exact wrote_publish husable hgrows hreaches g stored

theorem write_wrote (husable : UsableRoot root b disk) (hguid : stored.manifest.guid = g)
    (hnew : ¬ Marked b g disk) :
    Yields (EntityDirectory.write root stored) disk
      (fun _ after => Wrote root b g stored disk after) fun _ _ => False := by
  apply write_of_not_contains husable hguid
  rw [Bool.eq_false_iff]
  exact fun hcontains => hnew (marked_of_contains husable hcontains)

end Disk

end GraphVault
