import GraphVault.Proofs.MakingDirectories

/-!
# Roots that can be used

Below a root to which a free way leads, entities are written and removed without a fault. Two roots
that lie apart do not get in each other's way.
-/

namespace GraphVault

open GraphVault.Path (Plain Admissible)

namespace Disk

/-- An address below a directory. -/
def Inside (base address : Address) : Prop :=
  ∃ name rest, address = base ++ name :: rest ∧ name ≠ ".." ∧ name ≠ "/"

theorem inside_text (b : Address) (g : Guid) (rest : Address) : Inside b (b ++ g.text :: rest) :=
  ⟨g.text, rest, rfl, Guid.text_ne (by decide), Guid.text_ne (by decide)⟩

/-- Nothing is inside anything on the empty disk. -/
theorem node?_empty_of_inside {b a : Address} (h : Inside b a) : Disk.empty.node? a = none := by
  obtain ⟨name, rest, rfl, hparent, hroot⟩ := h
  have hpermanent : isPermanent (b ++ name :: rest) = false :=
    isPermanent_of_mem (List.mem_append_right b List.mem_cons_self) hroot hparent
  rw [node?, hpermanent]
  rfl

/-- On the empty disk there are only directories. -/
theorem passable_empty (a : Address) : Disk.empty.Passable a := by
  intro node hnode
  unfold node? at hnode
  split at hnode
  · exact (Option.some.inj hnode).symm
  · cases hnode

theorem not_inside_name (base name : String) : ¬ Inside [base] [name] := by
  rintro ⟨next, rest, heq, -⟩
  simp at heq

theorem not_inside_workingDirectory (base : String) : ¬ Inside [base] workingDirectory := by
  rintro ⟨next, rest, heq, -⟩
  cases heq

theorem inside_of_above {b x : Address} {g : Guid} (h : b ++ [g.text] <+: x) : Inside b x := by
  obtain ⟨rest, rfl⟩ := h
  rw [List.append_assoc]
  exact inside_text b g rest

/-- The directories of entities of one root are not above what is below another root. -/
theorem not_prefix_of_apart {b b' : Address} (hne : b ≠ b') (h : ¬ Inside b b')
    (h' : ¬ Inside b' b) (g : Guid) {name : String} (rest : Address) (hparent : name ≠ "..")
    (hroot : name ≠ "/") : ¬ b ++ [g.text] <+: b' ++ name :: rest := by
  intro habove
  cases List.prefix_or_prefix_of_prefix habove (List.prefix_append b' (name :: rest)) with
  | inl hb' => exact h (inside_of_above hb')
  | inr hb' =>
    -- what is longer by one name than `b` and not below it is `b` or above it
    have hb : b' <+: b := by
      cases List.prefix_concat_iff.1 hb' with
      | inl heq => exact absurd (heq ▸ inside_text b g []) h
      | inr hle => exact hle
    obtain ⟨front, hfront⟩ := hb
    cases front with
    | nil =>
      rw [List.append_nil] at hfront
      exact hne hfront.symm
    | cons first front =>
      apply h'
      rw [← hfront, List.append_assoc, List.prefix_append_right_inj, List.cons_append,
        List.cons_prefix_cons] at habove
      rw [← hfront, habove.1]
      exact ⟨name, front, rfl, hparent, hroot⟩

/-- A root to which a free way leads and that has room for the names below it. -/
structure Usable (outside : Address → Prop) (root : String) (b : Address) (disk : Disk) : Prop where
  no_null : '\x00' ∉ root.toList
  short : root.utf8ByteSize + 81 < 4096
  way : Way (fun x => outside x ∧ disk.Passable x) (origin root) (Path.segments root) b
  dot : ∀ front, Ends root front "." → disk.HasDirectory b
  entities : ∀ g : Guid, disk.Passable (b ++ [g.text])

variable {outside : Address → Prop} {root : String} {b : Address} {disk after : Disk}

/-- A plain name in the working directory can be used where only directories are in its place and in
those of entities. -/
theorem usable_of_plain {name : String} (hplain : Plain name) (hworking : outside workingDirectory)
    (hname : outside [name]) (hpassable : disk.Passable [name])
    (hentities : ∀ g : Guid, disk.Passable [name, g.text]) : Usable outside name [name] disk := by
  have hsegments := Path.segments_of_no_slash hplain.no_slash
  have horigin : origin name = workingDirectory := by
    have hrelative := Path.isAbsolute_join hplain ""
    rw [Path.join_empty] at hrelative
    rw [origin, hrelative]
    rfl
  have hsize := hplain.short
  have hthere : disk.Passable workingDirectory := fun _ hnode => (Option.some.inj hnode).symm
  refine ⟨hplain.no_null, by omega, ?_, ?_, hentities⟩
  · rw [hsegments, horigin]
    exact .enter ⟨hworking, hthere⟩ (enter_plain hplain _) (.done ⟨hname, hpassable⟩)
  · intro front hends
    obtain ⟨blanks, -, hparts⟩ := hends.segments
    have hdot : "." ∈ Path.segments name := by
      rw [hparts]
      exact List.mem_append_right _ List.mem_cons_self
    rw [hsegments, List.mem_singleton] at hdot
    exact absurd hdot.symm hplain.ne_dot

theorem Usable.of_changes (h : Usable outside root b disk)
    (hnode : ∀ x, outside x → after.node? x = disk.node? x ∨ after.HasDirectory x)
    (hentities : ∀ g : Guid, after.Passable (b ++ [g.text])) : Usable outside root b after := by
  have hpassable : ∀ x, outside x → disk.Passable x → after.Passable x := by
    intro x hx hpass node hafter
    cases hnode x hx with
    | inl heq => exact hpass node (heq ▸ hafter)
    | inr hdirectory =>
      rw [hdirectory] at hafter
      exact (Option.some.inj hafter).symm
  refine ⟨h.no_null, h.short, h.way.mono fun x hx => ⟨hx.1, hpassable x hx.1 hx.2⟩, ?_, hentities⟩
  intro front hends
  cases hnode b h.way.last.1 with
  | inl heq => exact heq.trans (h.dot front hends)
  | inr hdirectory => exact hdirectory

theorem Usable.mono {outside' : Address → Prop} (h : Usable outside root b disk)
    (houtside : ∀ x, outside x → outside' x) : Usable outside' root b disk :=
  ⟨h.no_null, h.short, h.way.mono fun x hx => ⟨houtside x hx.1, hx.2⟩, h.dot, h.entities⟩

theorem Usable.grows (h : Usable outside root b disk) (hgrows : Grows outside disk after) :
    Usable outside root b after := by
  refine h.of_changes (fun x _ => ?_) fun g => (h.entities g).grows hgrows
  cases hgrows.node x with
  | inl heq => exact .inl heq
  | inr hnew => exact .inr hnew.2.2

theorem Way.and {p q : Address → Prop} {a b c : Address} {parts : List String}
    (h : Way p a parts b) (h' : Way q a parts c) : Way (fun x => p x ∧ q x) a parts b := by
  induction h with
  | done h => exact .done ⟨h, h'.first⟩
  | enter h henter _ ih =>
    cases h' with
    | enter hq henter' rest =>
      rw [henter, Except.ok.injEq] at henter'
      subst henter'
      exact .enter ⟨h, hq⟩ henter (ih rest)

theorem Usable.admissible_join (h : Usable outside root b disk) {name : String}
    (hplain : Plain name) (hsize : name.utf8ByteSize ≤ 80) : Admissible (Path.join root name) := by
  have hfront := Path.frontSize_le root
  have hshort := h.short
  exact (Path.admissible_join_iff hplain).2 ⟨h.no_null, by omega⟩

theorem Usable.admissible_path (h : Usable outside root b disk) (g : Guid) :
    Admissible (EntityDirectory.path root g) := h.admissible_join g.plain_text (by simp)

/-- The directories of a root are made where they are missing. -/
theorem Usable.createAll_yields (h : Usable outside root b disk) :
    Yields (createAll root) disk
      (fun _ grown => Grows outside disk grown ∧ grown.Reaches root b) fun _ _ => False := by
  have hpath : root = "" ∨ Admissible root := by
    by_cases hempty : root = ""
    · exact .inl hempty
    · have hshort := h.short
      exact .inr ⟨h.no_null, hempty, by omega⟩
  refine (Disk.createAll_yields hpath h.way h.dot).mono (fun _ grown hgrown => ?_)
    fun _ _ hfalse => hfalse
  exact ⟨hgrown.1, reaches_iff_way.2 hgrown.2⟩

private theorem parent_join {name : String} (hplain : Plain name) (root : String) :
    Path.parent (Path.join root name) = Path.ofNames (Path.isAbsolute root) (Path.names root) := by
  have hnames : Path.names (Path.join root name) = Path.names root ++ [name] := by
    have hkept : Path.names (Path.join root name)
        = (Path.segments (Path.join root name)).filter fun part => !stays part := names_filter _
    have hname : stays name = false := by simp [stays, hplain.ne_empty, hplain.ne_dot]
    obtain ⟨front, hjoin, hroot⟩ := Path.segments_join hplain root
    rw [hkept, hjoin, List.filter_append, List.filter_cons_of_pos (by simp [hname]), names_filter]
    cases hroot with
    | inl heq => rw [heq, List.filter_nil]
    | inr heq => rw [heq, List.filter_append, List.filter_cons_of_neg (by decide), List.filter_nil,
        List.append_nil]
  rw [Path.parent, hnames, List.dropLast_concat, Path.isAbsolute_join hplain]

/-- The directories above a name below a root are those of the root. -/
private theorem createParent_of_way {name : String} (hplain : Plain name)
    (hnull : '\x00' ∉ root.toList) (hshort : root.utf8ByteSize < 4096)
    (hway : Way (fun x => outside x ∧ disk.Passable x) (origin root) (Path.segments root) b) :
    Yields (createAll (Path.parent (Path.join root name))) disk
      (fun _ grown => Grows outside disk grown ∧ grown.Reaches root b) fun _ _ => False := by
  rw [parent_join hplain]
  have hnull' : '\x00' ∉ (Path.ofNames (Path.isAbsolute root) (Path.names root)).toList := by
    apply Path.null_not_mem_ofNames
    intro part hpart hmem
    exact hnull ((Path.mem_segments (Path.mem_names.1 hpart).1).2 _ hmem)
  have hpath : Path.ofNames (Path.isAbsolute root) (Path.names root) = "" ∨
      Admissible (Path.ofNames (Path.isAbsolute root) (Path.names root)) := by
    by_cases hempty : Path.ofNames (Path.isAbsolute root) (Path.names root) = ""
    · exact .inl hempty
    · have hsize := Path.size_ofNames_le (List.Sublist.refl (Path.names root))
      exact .inr ⟨hnull', hempty, by omega⟩
  have hyields := Disk.createAll_yields hpath ((way_ofNames_iff hnull).2 hway)
    fun front hends => absurd hends (not_ends_ofNames _ hnull)
  refine hyields.mono (fun _ grown hgrown => ?_) fun _ _ hfalse => hfalse
  exact ⟨hgrown.1, reaches_iff_way.2 ((way_ofNames_iff hnull).1 hgrown.2)⟩

theorem Usable.createParent_yields (h : Usable outside root b disk) {name : String}
    (hplain : Plain name) :
    Yields (createAll (Path.parent (Path.join root name))) disk
      (fun _ grown => Grows outside disk grown ∧ grown.Reaches root b) fun _ _ => False := by
  have hshort := h.short
  exact createParent_of_way hplain h.no_null (by omega) h.way

/-- Where a root leads to a directory, nothing is made above a name below it. -/
theorem createParent_of_reaches {name : String} (hplain : Plain name)
    (hadmissible : Admissible (Path.join root name)) (hreaches : disk.Reaches root b) :
    Yields (createAll (Path.parent (Path.join root name))) disk
      (fun _ after => Grows (fun _ => False) disk after ∧ after.Reaches root b)
      fun _ _ => False := by
  obtain ⟨hnull, hshort⟩ := (Path.admissible_join_iff hplain).1 hadmissible
  have hsize := Path.size_le_frontSize root
  have hway := (reaches_iff_way.1 hreaches).mono fun x hx =>
    (⟨hx, fun node hnode => (Option.some.inj (hx.symm.trans hnode)).symm⟩ :
      disk.HasDirectory x ∧ disk.Passable x)
  apply (createParent_of_way hplain hnull (by omega) hway).mono ?_ fun _ _ hfalse => hfalse
  rintro _ after ⟨hgrows, hafter⟩
  refine ⟨⟨fun a => ?_, hgrows.catalogs, hgrows.held⟩, hafter⟩
  refine (hgrows.node a).imp_right fun hnew => ?_
  have hdirectory : disk.node? a = some .directory := hnew.1
  rw [hdirectory] at hnew
  cases hnew.2.1

/-- A root that can be used leads nowhere else. -/
theorem Usable.eq_of_reaches (h : Usable outside root b disk) {b' : Address}
    (hreaches : after.Reaches root b') : b' = b := by
  have hbase := hreaches.base_eq
  rw [base, h.way.walk_eq, Except.ok.injEq] at hbase
  exact hbase.symm

/-- A root that leads to a directory goes on to do so while the directories on its way stay. -/
theorem Usable.reaches_of_stays (h : Usable outside root b disk) (hreaches : disk.Reaches root b)
    (hstays : ∀ x, outside x → disk.HasDirectory x → after.HasDirectory x) :
    after.Reaches root b :=
  reaches_iff_way.2 ((h.way.and (reaches_iff_way.1 hreaches)).mono
    fun x hx => hstays x hx.1.1 hx.2)

/-- A root that leads to a directory can be used while the directories on its way stay. -/
theorem Usable.of_stays (h : Usable outside root b disk) (hreaches : disk.Reaches root b)
    (hstays : ∀ x, outside x → disk.HasDirectory x → after.HasDirectory x)
    (hentities : ∀ g : Guid, after.Passable (b ++ [g.text])) : Usable outside root b after := by
  have hafter := h.reaches_of_stays hreaches hstays
  refine ⟨h.no_null, h.short, ?_, fun _ _ => hafter.2, hentities⟩
  refine (h.way.and (reaches_iff_way.1 hreaches)).mono fun x hx => ⟨hx.1.1, fun node hnode => ?_⟩
  rw [hstays x hx.1.1 hx.2, Option.some.injEq] at hnode
  exact hnode.symm

/-- A root that leads to a directory goes on to do so when only what is below it changes. -/
theorem Usable.reaches (h : Usable outside root b disk) {b' : Address}
    (hreaches : disk.Reaches root b') (hnode : ∀ x, outside x → after.node? x = disk.node? x) :
    b' = b ∧ after.Reaches root b := by
  obtain rfl := h.eq_of_reaches hreaches
  exact ⟨rfl, h.reaches_of_stays hreaches fun x hx hd => (hnode x hx).trans hd⟩

/-- Changing an entity directory below this root or one that lies apart leaves the root usable. -/
theorem Usable.of_agreesOff (h : Usable outside root b disk) {b' : Address} {g : Guid}
    (hagrees : AgreesOff (b' ++ [g.text]) disk after)
    (houtside : ∀ x, outside x → ¬ b' ++ [g.text] <+: x)
    (hpassable : after.Passable (b' ++ [g.text]))
    (hapart : b' = b ∨ ¬ Inside b' b ∧ ¬ Inside b b') : Usable outside root b after := by
  refine h.of_changes (fun x hx => .inl (hagrees x (houtside x hx))) fun g' => ?_
  by_cases heq : b' ++ [g.text] = b ++ [g'.text]
  · rw [← heq]
    exact hpassable
  · have hkept : after.node? (b ++ [g'.text]) = disk.node? (b ++ [g'.text]) := by
      apply hagrees
      intro habove
      by_cases hbase : b' = b
      · subst hbase
        rw [List.prefix_append_right_inj, List.cons_prefix_cons] at habove
        exact heq (by rw [habove.1])
      · obtain ⟨hb, hb'⟩ := hapart.resolve_left hbase
        exact not_prefix_of_apart hbase hb hb' g [] (Guid.text_ne (by decide))
          (Guid.text_ne (by decide)) habove
    intro node hnode
    exact h.entities g' node (hkept ▸ hnode)

theorem publish_passable (disk : Disk) (b : Address) (g : Guid) (stored : Stored) :
    (EntityDirectory.publish disk (b ++ [g.text]) stored).Passable (b ++ [g.text]) := by
  have hfile (file : String) : b ++ [g.text] ≠ b ++ [g.text] ++ [file] := by simp
  intro node hnode
  rw [EntityDirectory.publish, node?_put_of_ne _ _ (hfile _), node?_put_of_ne _ _ (hfile _),
    node?_put_of_ne _ _ (hfile _), node?_put_self _ _ (isPermanent_text b g [])] at hnode
  exact (Option.some.inj hnode).symm

theorem Removed.passable {g : Guid} (h : Removed b g disk after)
    (hpassable : disk.Passable (b ++ [g.text])) : after.Passable (b ++ [g.text]) := by
  intro node hnode
  cases h.directory with
  | inl heq => exact hpassable node (heq ▸ hnode)
  | inr hnone =>
    rw [hnone] at hnode
    cases hnode

end Disk

namespace EntityDirectory

open Disk

variable {outside : Address → Prop} {root : String} {b : Address} {disk : Disk}

/-- The name of a directory in which an entity is assembled; its last part makes it a new one. -/
def stagingName (g : Guid) (tail : String) : String := ".staging-" ++ g.text ++ tail

theorem utf8ByteSize_stagingName (g : Guid) (tail : String) :
    (stagingName g tail).utf8ByteSize = 73 + tail.utf8ByteSize := by
  rw [stagingName, String.utf8ByteSize_append, String.utf8ByteSize_append, g.utf8ByteSize_text]
  rfl

theorem plain_stagingName (g : Guid) {tail : String} (hsize : tail.utf8ByteSize = 7)
    (hslash : '/' ∉ tail.toList) (hnull : '\x00' ∉ tail.toList) : Plain (stagingName g tail) := by
  have hplain := g.plain_text
  have hne (name : String) (hname : name.utf8ByteSize ≠ 80) : stagingName g tail ≠ name := by
    rintro rfl
    rw [utf8ByteSize_stagingName, hsize] at hname
    exact hname rfl
  refine ⟨hne _ (by decide), hne _ (by decide), hne _ (by decide), ?_, ?_, ?_⟩
  · simp only [stagingName, String.toList_append, List.mem_append, not_or]
    exact ⟨⟨by decide, hplain.no_slash⟩, hslash⟩
  · simp only [stagingName, String.toList_append, List.mem_append, not_or]
    exact ⟨⟨by decide, hplain.no_null⟩, hnull⟩
  · rw [utf8ByteSize_stagingName, hsize]
    decide

/-- Once the directories of a root are made, an entity that was not there is put in its place. -/
theorem write_of_createAll (h : Usable outside root b disk) (stored : Stored)
    (hnew : contains disk root stored.manifest.guid = false) {grown : Disk}
    (hcreate : createAll root disk = .ok () grown) (hgrows : Grows outside disk grown)
    (hreaches : grown.Reaches root b) :
    Yields (write root stored) disk
      (fun _ after => after = publish grown (b ++ [stored.manifest.guid.text]) stored)
      fun _ _ => False := by
  have hstaging : Plain (stagingName stored.manifest.guid "-000000") :=
    plain_stagingName _ (by decide) (by decide) (by decide)
  have hgrown : Yields (createAll root) disk (fun _ after => after = grown) fun _ _ => False := by
    rw [Yields, hcreate]
  simp only [write, yields_bind, yields_get, hnew, Bool.false_eq_true, if_false, yields_adaptExcept]
  apply hgrown.mono ?_ fun _ _ hfalse => hfalse
  intro _ after hafter
  subst hafter
  have hassembly : after.resolve (assembly root stored.manifest.guid)
      = .ok (b ++ [stagingName stored.manifest.guid "-000000"]) := by
    refine (resolve_join_eq_ok_iff hstaging).2 ⟨h.admissible_join hstaging ?_, b, hreaches, rfl⟩
    rw [utf8ByteSize_stagingName]
    decide
  have htarget : after.resolve (path root stored.manifest.guid)
      = .ok (b ++ [stored.manifest.guid.text]) :=
    resolve_path_iff.2 ⟨h.admissible_path _, b, hreaches, rfl⟩
  rw [hassembly, htarget]
  simp only [Except.mapError, yields_ofExcept_ok]
  have hpassable := (h.entities stored.manifest.guid).grows hgrows
  cases hnode : after.node? (b ++ [stored.manifest.guid.text]) with
  | none => rfl
  | some node =>
    rw [hpassable node hnode]
    rfl

section Writing

-- What writing does is known by now, so that it need not be looked into.
attribute [local irreducible] write

/-- An entity that is not there is put in its place below a root that can be used. -/
theorem write_publishes (h : Usable outside root b disk) (stored : Stored)
    (hnew : contains disk root stored.manifest.guid = false) :
    Yields (write root stored) disk
      (fun _ after => ∃ grown, Grows outside disk grown ∧ grown.Reaches root b ∧
        after = publish grown (b ++ [stored.manifest.guid.text]) stored)
      fun _ _ => False := by
  obtain ⟨_, grown, hcreate, hgrows, hreaches⟩ := h.createAll_yields.exists_ok
  exact (write_of_createAll h stored hnew hcreate hgrows hreaches).mono
    (fun _ _ heq => ⟨grown, hgrows, hreaches, heq⟩) fun _ _ hfalse => hfalse

/-- An entity that is there stays as it is. -/
theorem write_of_contains {stored : Stored} (h : contains disk root stored.manifest.guid) :
    Yields (write root stored) disk (fun _ after => after = disk) fun _ _ => False := by
  simp only [write, yields_bind, yields_get, h, if_true]
  trivial

/-- An entity is written below a root that can be used. -/
theorem write_succeeds (h : Usable outside root b disk) (stored : Stored) :
    Yields (write root stored) disk
      (fun _ after => after = disk ∨ ∃ grown, Grows outside disk grown ∧
        after = publish grown (b ++ [stored.manifest.guid.text]) stored)
      fun _ _ => False := by
  cases hcontains : contains disk root stored.manifest.guid with
  | true => exact (write_of_contains hcontains).mono (fun _ _ heq => .inl heq) fun _ _ h => h
  | false =>
    refine (write_publishes h stored hcontains).mono (fun _ after hafter => ?_) fun _ _ h => h
    obtain ⟨grown, hgrows, -, heq⟩ := hafter
    exact .inr ⟨grown, hgrows, heq⟩

end Writing

private theorem any_isBelow_clear (disk : Disk) (address : Address) :
    (disk.clear address).nodes.keys.any (isBelow address) = false := by
  rw [List.any_eq_false]
  intro other hother hbelow
  obtain ⟨node, hnode⟩ := Option.isSome_iff_exists.1 (SortedMap.mem_keys_iff.1 hother)
  have hkept := (SortedMap.get?_filter_eq_some_iff.1 hnode).2
  rw [hbelow] at hkept
  cases hkept

theorem contains_path_of_reaches {g : Guid} (hadmissible : Admissible (path root g))
    (hreaches : disk.Reaches root b) (hdirectory : disk.HasDirectory (b ++ [g.text])) :
    disk.contains (path root g) := by
  unfold Disk.contains find
  rw [resolve_path_iff.2 ⟨hadmissible, b, hreaches, rfl⟩]
  simp only [bind, Except.bind, show disk.node? _ = _ from hdirectory]
  rfl

/-- Something stands in the place of an entity below a root that can be used just if the root leads
there and it is a directory. -/
theorem contains_path_iff (h : Usable outside root b disk) (g : Guid) :
    disk.contains (path root g) ↔ disk.Reaches root b ∧ disk.HasDirectory (b ++ [g.text]) := by
  constructor
  · unfold Disk.contains find
    intro hexists
    cases hresolve : disk.resolve (path root g) with
    | error fault =>
      rw [hresolve] at hexists
      cases hexists
    | ok address =>
      obtain ⟨-, b', hb', rfl⟩ := resolve_path_iff.1 hresolve
      obtain rfl := h.eq_of_reaches hb'
      refine ⟨hb', ?_⟩
      cases hnode : disk.node? (b' ++ [g.text]) with
      | none =>
        simp only [hresolve, bind, Except.bind, hnode] at hexists
        cases hexists
      | some node => rw [HasDirectory, hnode, h.entities g node hnode]
  · rintro ⟨hreaches, hdirectory⟩
    exact contains_path_of_reaches (h.admissible_path g) hreaches hdirectory

/-- The directory of an entity is removed with all that is in it, if its root can still be reached
when it is empty. -/
theorem removeAll_of_reaches {g : Guid} (hadmissible : Admissible (path root g))
    (hreaches : disk.Reaches root b) (hdirectory : disk.HasDirectory (b ++ [g.text]))
    (hcleared : (disk.clear (b ++ [g.text])).Reaches root b) :
    Yields (Disk.removeAll (path root g)) disk
      (fun _ after => after = (disk.clear (b ++ [g.text])).removeTree (b ++ [g.text]))
      fun _ _ => False := by
  have hplain := g.plain_text
  have hresolve := resolve_path_iff.2 ⟨hadmissible, b, hreaches, rfl⟩
  have hlocate : (disk.clear (b ++ [g.text])).locate (path root g) = .ok (b, some g.text) :=
    (locate_join_eq_ok_iff hplain).2 ⟨hadmissible, b, hcleared, rfl⟩
  have hstays : (disk.clear (b ++ [g.text])).node? (b ++ [g.text]) = some .directory := by
    rw [node?_clear_of_not_below disk (by simp [isBelow])]
    exact hdirectory
  have hremove : (disk.clear (b ++ [g.text])).removeDirectory (path root g)
      = .ok ((disk.clear (b ++ [g.text])).removeTree (b ++ [g.text])) := by
    rw [removeDirectory_of_locate hplain hlocate, requireDirectory_eq_ok_iff.2 hstays,
      any_isBelow_clear]
    rfl
  simp only [removeAll, yields_bind, yields_get, yields_set, hresolve, yields_ofExcept_ok,
    requireDirectory_eq_ok_iff.2 hdirectory, hremove]

/-- The directory of an entity below a root that can be used is removed with all that is in it. -/
theorem removeAll_yields (h : Usable outside root b disk) (g : Guid)
    (houtside : ∀ x, outside x → ¬ b ++ [g.text] <+: x) (hreaches : disk.Reaches root b)
    (hdirectory : disk.HasDirectory (b ++ [g.text])) :
    Yields (Disk.removeAll (path root g)) disk
      (fun _ after => after = (disk.clear (b ++ [g.text])).removeTree (b ++ [g.text]))
      fun _ _ => False := by
  have hagrees := (removed_clear disk b g).agrees
  exact removeAll_of_reaches (h.admissible_path g) hreaches hdirectory
    (h.reaches hreaches fun x hx => hagrees x (houtside x hx)).2

/-- What is there of an entity below a root that can be used is removed. -/
theorem remove_of_exists (h : Usable outside root b disk) (g : Guid)
    (houtside : ∀ x, outside x → ¬ b ++ [g.text] <+: x) (hexists : disk.contains (path root g)) :
    Yields (remove root g) disk (fun _ after => Removed b g disk after) fun _ _ => False := by
  obtain ⟨hreaches, hdirectory⟩ := (contains_path_iff h g).1 hexists
  simp only [remove, yields_bind, yields_get, hexists, if_true, yields_adaptExcept]
  apply (removeAll_yields h g houtside hreaches hdirectory).mono ?_ fun _ _ hfalse => hfalse
  rintro - _ rfl
  exact (removed_clear disk b g).trans (removed_removeTree _ b g)

/-- An entity below a root that can be used is removed. -/
theorem remove_succeeds (h : Usable outside root b disk) (houtside : ∀ x, outside x → ¬ Inside b x)
    (g : Guid) :
    Yields (remove root g) disk (fun _ after => after = disk ∨ Removed b g disk after)
      fun _ _ => False := by
  cases hexists : disk.contains (path root g) with
  | true =>
    have hapart (x : Address) (hx : outside x) : ¬ b ++ [g.text] <+: x := fun habove =>
      houtside x hx (inside_of_above habove)
    exact (remove_of_exists h g hapart hexists).mono (fun _ _ hremoved => .inr hremoved)
      fun _ _ hfalse => hfalse
  | false =>
    simp only [remove, yields_bind, yields_get, hexists]
    exact .inl rfl

end EntityDirectory

end GraphVault
