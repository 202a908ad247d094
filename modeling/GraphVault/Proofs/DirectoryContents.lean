import GraphVault.Proofs.Addresses

/-!
# What entity directories hold

Work below a root only ever makes directories, puts a complete entity directory in its place in one
step, or takes one away. So whatever goes wrong on the way, an entity that is complete on disk is
there as it was published.
-/

namespace GraphVault

@[simp] theorem yields_adaptExcept {ε ε' σ α : Type} {f : ε → ε'} {work : EStateM ε σ α} {s : σ}
    {post : α → σ → Prop} {fail : ε' → σ → Prop} :
    Yields (work.adaptExcept f) s post fail ↔ Yields work s post fun e t => fail (f e) t := by
  simp only [Yields, EStateM.adaptExcept]
  cases work s <;> rfl

open GraphVault.Path (Plain Admissible)

namespace Guid

private theorem digit_plain {n : Nat} (h : n < 16) :
    Hex.digit n ≠ '/' ∧ Hex.digit n ≠ '\x00' := by
  rcases n with _ | _ | _ | _ | _ | _ | _ | _ | _ | _ | _ | _ | _ | _ | _ | _ | n
  all_goals first | decide | omega

private theorem mem_hex_plain {bytes : Bytes} {c : Char} (h : c ∈ Hex.encode bytes) :
    c ≠ '/' ∧ c ≠ '\x00' := by
  induction bytes with
  | nil => simp [Hex.encode] at h
  | cons b rest ih =>
    have hb : b.toNat < 256 := b.toNat_lt
    rw [Hex.encode, List.mem_cons, List.mem_cons] at h
    rcases h with rfl | rfl | h
    · exact digit_plain (by omega)
    · exact digit_plain (by omega)
    · exact ih h

theorem text_ne {g : Guid} {name : String} (h : name.utf8ByteSize ≠ 64) : g.text ≠ name := by
  intro heq
  rw [← heq, utf8ByteSize_text] at h
  exact h rfl

theorem plain_text (g : Guid) : Plain g.text := by
  have hchars : ∀ c ∈ g.text.toList, c ≠ '/' ∧ c ≠ '\x00' := by
    intro c hc
    rw [text, String.toList_ofList] at hc
    exact mem_hex_plain hc
  refine ⟨text_ne (by decide), text_ne (by decide), text_ne (by decide), ?_, ?_, ?_⟩
  · intro hslash
    exact (hchars _ hslash).1 rfl
  · intro hnull
    exact (hchars _ hnull).2 rfl
  · rw [utf8ByteSize_text]
    decide

end Guid

namespace Disk

/-! ### Nodes -/

theorem isPermanent_of_mem {address : Address} {name : String} (h : name ∈ address)
    (hroot : name ≠ "/") (hparent : name ≠ "..") : isPermanent address = false := by
  have hne : address ≠ root := by
    rintro rfl
    exact hroot (List.mem_singleton.1 h)
  simp only [isPermanent, Bool.or_eq_false_iff, decide_eq_false_iff_not]
  refine ⟨hne, ?_⟩
  rw [List.all_eq_false]
  exact ⟨name, h, by simpa using (show ¬ name = parent from hparent)⟩

theorem isPermanent_text (b : Address) (g : Guid) (rest : Address) :
    isPermanent (b ++ g.text :: rest) = false :=
  isPermanent_of_mem (List.mem_append_right b List.mem_cons_self) (Guid.text_ne (by decide))
    (Guid.text_ne (by decide))

theorem node?_of_permanent {disk : Disk} {address : Address} (h : isPermanent address) :
    disk.node? address = some .directory := by
  rw [node?, if_pos h]

theorem node?_put_self (disk : Disk) {address : Address} (node : Node)
    (h : isPermanent address = false) : (disk.put address node).node? address = some node := by
  rw [node?, h]
  exact SortedMap.get?_insert_self _ _ _

theorem node?_put_of_ne (disk : Disk) {address other : Address} (node : Node)
    (h : other ≠ address) : (disk.put address node).node? other = disk.node? other := by
  have hget : (disk.put address node).nodes.get? other = disk.nodes.get? other :=
    SortedMap.get?_insert_of_ne _ _ h
  rw [node?, node?, hget]

/-- The disk without some of its nodes. -/
private theorem node?_filter_of_pos (disk : Disk) {keep : Address → Node → Bool}
    {address : Address} (h : ∀ node, keep address node) :
    ({ disk with nodes := disk.nodes.filter keep } : Disk).node? address = disk.node? address := by
  have hget : (disk.nodes.filter keep).get? address = disk.nodes.get? address := by
    refine Option.ext fun node => ?_
    rw [SortedMap.get?_filter_eq_some_iff]
    simp [h node]
  rw [node?, node?, hget]

private theorem node?_filter_of_neg (disk : Disk) {keep : Address → Node → Bool}
    {address : Address} (hpermanent : isPermanent address = false)
    (h : ∀ node, keep address node = false) :
    ({ disk with nodes := disk.nodes.filter keep } : Disk).node? address = none := by
  rw [node?, hpermanent]
  refine Option.eq_none_iff_forall_not_mem.2 fun node hnode => ?_
  have hkeep := (SortedMap.get?_filter_eq_some_iff.1 hnode).2
  rw [h node] at hkeep
  cases hkeep

theorem node?_removeTree_of_not_prefix (disk : Disk) {address other : Address}
    (h : ¬ address <+: other) : (disk.removeTree address).node? other = disk.node? other :=
  node?_filter_of_pos disk fun _ => by
    rw [Bool.not_eq_true', Bool.eq_false_iff, Ne, List.isPrefixOf_iff_prefix]
    exact h

theorem node?_removeTree_of_prefix (disk : Disk) {address other : Address} (h : address <+: other)
    (hpermanent : isPermanent other = false) : (disk.removeTree address).node? other = none :=
  node?_filter_of_neg disk hpermanent fun _ => by simpa using h

theorem node?_clear_of_not_below (disk : Disk) {address other : Address}
    (h : isBelow address other = false) : (disk.clear address).node? other = disk.node? other :=
  node?_filter_of_pos disk fun _ => by simp [h]

theorem node?_clear_of_below (disk : Disk) {address other : Address} (h : isBelow address other)
    (hpermanent : isPermanent other = false) : (disk.clear address).node? other = none :=
  node?_filter_of_neg disk hpermanent fun _ => by simp [h]

/-! ### Directories that are made -/

/-- A disk with more directories, all of them at addresses that are allowed. -/
structure Grows (allowed : Address → Prop) (before after : Disk) : Prop where
  node : ∀ a, after.node? a = before.node? a ∨
    allowed a ∧ before.node? a = none ∧ after.node? a = some .directory
  catalogs : after.catalogs = before.catalogs
  held : after.held = before.held

instance (allowed : Address → Prop) : Std.Refl (Grows allowed) := ⟨fun _ => ⟨fun _ => .inl rfl, rfl, rfl⟩⟩

instance (allowed : Address → Prop) : Trans (Grows allowed) (Grows allowed) (Grows allowed) where
  trans {a b c} hab hbc := by
    refine ⟨fun address => ?_, hbc.catalogs.trans hab.catalogs, hbc.held.trans hab.held⟩
    rcases hbc.node address with heq | ⟨hallowed, hnone, hdirectory⟩
    · rw [heq]
      exact hab.node address
    · rcases hab.node address with heq | ⟨-, -, hpresent⟩
      · exact .inr ⟨hallowed, heq ▸ hnone, hdirectory⟩
      · rw [hpresent] at hnone
        cases hnone

/-- What is there stays there. -/
theorem Grows.node_eq {allowed : Address → Prop} {before after : Disk}
    (h : Grows allowed before after) {a : Address} {node : Node} (hnode : before.node? a = some node) :
    after.node? a = some node := by
  rcases h.node a with heq | ⟨-, hnone, -⟩
  · rw [heq, hnode]
  · rw [hnode] at hnone
    cases hnone

theorem Grows.mono {allowed allowed' : Address → Prop} {before after : Disk}
    (h : Grows allowed before after) (hallowed : ∀ a, allowed a → allowed' a) :
    Grows allowed' before after :=
  ⟨fun a => (h.node a).imp id fun hnew => ⟨hallowed a hnew.1, hnew.2⟩, h.catalogs, h.held⟩

theorem grows_put {allowed : Address → Prop} {disk : Disk} {address : Address}
    (hallowed : allowed address) (hnone : disk.node? address = none) :
    Grows allowed disk (disk.put address .directory) := by
  refine ⟨fun a => ?_, rfl, rfl⟩
  by_cases heq : a = address
  · subst heq
    have hpermanent : isPermanent a = false := by
      cases h : isPermanent a with
      | false => rfl
      | true =>
        rw [node?_of_permanent h] at hnone
        cases hnone
    exact .inr ⟨hallowed, hnone, node?_put_self disk _ hpermanent⟩
  · exact .inl (node?_put_of_ne disk _ heq)

private theorem makeDirectory_grows {disk made : Disk} {path : String}
    (h : disk.makeDirectory path = .ok made) : Grows (fun _ => True) disk made := by
  rw [makeDirectory] at h
  obtain ⟨found, -, h⟩ := bind_eq_ok_iff.1 h
  split at h
  · cases h
  · cases h
  · cases h
  · obtain ⟨address, -, h⟩ := bind_eq_ok_iff.1 h
    by_cases hpresent : (disk.node? address).isSome
    · simp [hpresent, bind, Except.bind, throw, throwThe, MonadExceptOf.throw] at h
    · have hnone : disk.node? address = none := by simpa using hpresent
      simp [hnone, pure, Except.pure] at h
      subst h
      exact grows_put trivial hnone

theorem moves_ensureDirectory (path : String) :
    Moves (Grows fun _ => True) (ensureDirectory path) := by
  intro disk
  simp only [ensureDirectory, yields_bind, yields_get]
  split
  · rename_i made h
    exact makeDirectory_grows h
  · simp only [yields_bind, yields_get]
    split <;> exact Std.Refl.refl disk

private theorem moves_createBelow {createAbove : Steps Unit}
    (h : Moves (Grows fun _ => True) createAbove) (path : String) :
    Moves (Grows fun _ => True) (createBelow createAbove path) := by
  refine .bind .get fun disk => ?_
  split
  · exact .bind h fun _ => moves_ensureDirectory path
  · exact moves_ensureDirectory path

private theorem moves_createNames (absolute : Bool) (names : List String) :
    Moves (Grows fun _ => True) (createNames absolute names) := by
  induction names with
  | nil => exact .pure _
  | cons name above ih => exact moves_createBelow ih _

theorem moves_createAll (path : String) : Moves (Grows fun _ => True) (createAll path) := by
  unfold createAll
  split
  · exact .pure _
  · exact moves_createBelow (moves_createNames _ _) path

/-! ### Entity directories -/

/-- Something stands at an address that is not a directory. -/
def HoldsFile (disk : Disk) (address : Address) : Prop :=
  ∃ node, disk.node? address = some node ∧ node ≠ .directory

theorem isFile_iff {disk : Disk} {path : String} :
    disk.isFile path ↔ ∃ address, disk.resolve path = .ok address ∧ disk.HoldsFile address := by
  unfold isFile find HoldsFile
  cases hresolve : disk.resolve path with
  | error fault => simp [bind, Except.bind]
  | ok address =>
    cases hnode : disk.node? address with
    | none => simp [bind, Except.bind, hnode, throw, throwThe, MonadExceptOf.throw]
    | some node => cases node <;> simp [bind, Except.bind, hnode, pure, Except.pure]

end Disk

namespace EntityDirectory

open Disk

theorem plain_marker : Plain marker := by decide

theorem plain_manifestFile : Plain manifestFile := by decide

theorem plain_rowsFile : Plain rowsFile := by decide

theorem resolve_file_iff {disk : Disk} {root file : String} {g : Guid} {address : Address}
    (h : Plain file) :
    disk.resolve (Path.join (path root g) file) = .ok address ↔
      Admissible (Path.join (path root g) file) ∧ ∃ b, disk.Reaches root b ∧
        disk.node? (b ++ [g.text]) = some .directory ∧ address = b ++ [g.text, file] := by
  rw [resolve_join_eq_ok_iff h]
  refine and_congr_right fun _ => ?_
  constructor
  · rintro ⟨a, ha, rfl⟩
    obtain ⟨b, hb, rfl, hdirectory⟩ := (reaches_join_iff g.plain_text).1 ha
    exact ⟨b, hb, hdirectory, by simp⟩
  · rintro ⟨b, hb, hdirectory, rfl⟩
    exact ⟨b ++ [g.text], (reaches_join_iff g.plain_text).2 ⟨b, hb, rfl, hdirectory⟩, by simp⟩

theorem contains_iff {disk : Disk} {root : String} {g : Guid} :
    contains disk root g ↔ Admissible (Path.join (path root g) marker) ∧
      ∃ b, disk.Reaches root b ∧ disk.node? (b ++ [g.text]) = some .directory ∧
        disk.HoldsFile (b ++ [g.text, marker]) := by
  rw [contains, isFile_iff]
  constructor
  · rintro ⟨address, hresolve, hfile⟩
    obtain ⟨hadmissible, b, hb, hdirectory, rfl⟩ := (resolve_file_iff plain_marker).1 hresolve
    exact ⟨hadmissible, b, hb, hdirectory, hfile⟩
  · rintro ⟨hadmissible, b, hb, hdirectory, hfile⟩
    exact ⟨_, (resolve_file_iff plain_marker).2 ⟨hadmissible, b, hb, hdirectory, rfl⟩, hfile⟩

end EntityDirectory

namespace Disk

open EntityDirectory

/-- The files of an entity are there as they are published. -/
structure Holds (disk : Disk) (b : Address) (g : Guid) (stored : Stored) : Prop where
  manifest : disk.node? (b ++ [g.text, manifestFile])
    = some (.file (.stored stored.manifest.encode))
  rows : disk.node? (b ++ [g.text, rowsFile]) = some (.file (.stored stored.rows))

/-- Every entity that has its marker below a base address is there with a copy that suits it. -/
def KeptAs (suits : Guid → Stored → Prop) (b : Address) (disk : Disk) : Prop :=
  ∀ g, disk.HoldsFile (b ++ [g.text, marker]) → ∃ stored, suits g stored ∧ disk.Holds b g stored

/-- Every entity that has its marker below a base address is there as its copy says. -/
def Kept (copies : Guid → Option Stored) (b : Address) (disk : Disk) : Prop :=
  ∀ g, disk.HoldsFile (b ++ [g.text, marker]) → ∃ stored, copies g = some stored ∧
    disk.Holds b g stored

variable {suits : Guid → Stored → Prop} {copies : Guid → Option Stored} {b : Address} {disk : Disk}

theorem Kept.mono {copies' : Guid → Option Stored} (h : Kept copies b disk)
    (hcopies : ∀ g stored, copies g = some stored → copies' g = some stored) :
    Kept copies' b disk := by
  intro g hfile
  obtain ⟨stored, hcopy, hholds⟩ := h g hfile
  exact ⟨stored, hcopies g stored hcopy, hholds⟩

theorem KeptAs.grows {allowed : Address → Prop} {after : Disk} (h : KeptAs suits b disk)
    (hgrows : Grows allowed disk after) : KeptAs suits b after := by
  rintro g ⟨node, hnode, hfile⟩
  have hbefore : disk.HoldsFile (b ++ [g.text, marker]) := by
    rcases hgrows.node (b ++ [g.text, marker]) with heq | ⟨-, -, hdirectory⟩
    · exact ⟨node, heq ▸ hnode, hfile⟩
    · rw [hdirectory, Option.some.injEq] at hnode
      exact absurd hnode.symm hfile
  obtain ⟨stored, hsuits, hholds⟩ := h g hbefore
  exact ⟨stored, hsuits, hgrows.node_eq hholds.manifest, hgrows.node_eq hholds.rows⟩

theorem Kept.grows {allowed : Address → Prop} {after : Disk} (h : Kept copies b disk)
    (hgrows : Grows allowed disk after) : Kept copies b after := KeptAs.grows h hgrows

/-- Nothing changes but at and below an address. -/
def AgreesOff (address : Address) (before after : Disk) : Prop :=
  ∀ a, ¬ address <+: a → after.node? a = before.node? a

theorem not_prefix_text {g g' : Guid} (h : g' ≠ g) (rest : Address) :
    ¬ b ++ [g.text] <+: b ++ g'.text :: rest := by
  intro hprefix
  rw [List.prefix_append_right_inj, List.cons_prefix_cons] at hprefix
  exact h (Guid.text_injective hprefix.1.symm)

/-- Changing one entity directory leaves the others. -/
theorem KeptAs.of_agreesOff {after : Disk} {g : Guid} (h : KeptAs suits b disk)
    (hagrees : AgreesOff (b ++ [g.text]) disk after)
    (hself : after.HoldsFile (b ++ [g.text, marker]) →
      ∃ stored, suits g stored ∧ after.Holds b g stored) : KeptAs suits b after := by
  intro g' hfile
  by_cases heq : g' = g
  · subst heq
    exact hself hfile
  · have hnode (rest : Address) :
        after.node? (b ++ g'.text :: rest) = disk.node? (b ++ g'.text :: rest) :=
      hagrees _ (not_prefix_text heq rest)
    have hbefore : disk.HoldsFile (b ++ [g'.text, marker]) := by
      obtain ⟨node, hmarker, hne⟩ := hfile
      exact ⟨node, (hnode [marker]).symm.trans hmarker, hne⟩
    obtain ⟨stored, hsuits, hholds⟩ := h g' hbefore
    exact ⟨stored, hsuits, (hnode _).trans hholds.manifest, (hnode _).trans hholds.rows⟩

theorem prefix_of_file {b' : Address} {g x : Guid} {file : String}
    (hfile : file.utf8ByteSize ≠ 64) (h : b' ++ [g.text] <+: b ++ [x.text, file]) :
    b' ++ [g.text] <+: b ++ [x.text] := by
  have hsplit : b ++ [x.text, file] = b ++ [x.text] ++ [file] := by simp
  rw [hsplit, List.prefix_concat_iff] at h
  cases h with
  | inl heq =>
    have hlast := List.append_inj_right' heq rfl
    exact absurd (List.cons.inj hlast).1 (Guid.text_ne hfile)
  | inr hprefix => exact hprefix

/-- An entity directory below another base address is changed, and holds nothing but files. What is
complete is elsewhere. -/
theorem KeptAs.of_agreesOff_of_ne {after : Disk} {b' : Address} {g : Guid} (h : KeptAs suits b disk)
    (hne : b' ≠ b) (hagrees : AgreesOff (b' ++ [g.text]) disk after)
    (hflat : ∀ rest, after.HoldsFile (b' ++ g.text :: rest) → rest.length ≤ 1) :
    KeptAs suits b after := by
  intro x hfile
  have habove : ¬ b' ++ [g.text] <+: b ++ [x.text] := by
    rintro ⟨rest, hrest⟩
    have hmarker : b ++ [x.text, marker] = b' ++ g.text :: (rest ++ [marker]) := by
      rw [List.append_cons b, ← hrest]
      simp
    have hshort := hflat _ (hmarker ▸ hfile)
    obtain rfl : rest = [] := by simpa using hshort
    rw [List.append_nil] at hrest
    exact hne (List.append_inj_left' hrest rfl)
  have hnode {file : String} (hsize : file.utf8ByteSize ≠ 64) :
      after.node? (b ++ [x.text, file]) = disk.node? (b ++ [x.text, file]) :=
    hagrees _ fun hprefix => habove (prefix_of_file hsize hprefix)
  obtain ⟨node, hmarker, hfile⟩ := hfile
  rw [hnode (by decide)] at hmarker
  obtain ⟨stored, hsuits, hholds⟩ := h x ⟨node, hmarker, hfile⟩
  exact ⟨stored, hsuits, (hnode (by decide)).trans hholds.manifest,
    (hnode (by decide)).trans hholds.rows⟩

private theorem ne_append {b : Address} {g : Guid} {rest rest' : Address} (h : rest ≠ rest') :
    b ++ g.text :: rest ≠ b ++ g.text :: rest' := by
  intro heq
  rw [List.append_right_inj, List.cons_inj_right] at heq
  exact h heq

theorem publish_agreesOff (disk : Disk) (address : Address) (stored : Stored) :
    AgreesOff address disk (publish disk address stored) := by
  intro a ha
  have hne : a ≠ address := by
    rintro rfl
    exact ha List.prefix_rfl
  have hfile (file : String) : a ≠ address ++ [file] := by
    rintro rfl
    exact ha (List.prefix_append _ _)
  rw [publish, node?_put_of_ne _ _ (hfile _), node?_put_of_ne _ _ (hfile _),
    node?_put_of_ne _ _ (hfile _), node?_put_of_ne _ _ hne, node?_removeTree_of_not_prefix _ ha]

theorem publish_holds (disk : Disk) (b : Address) (g : Guid) (stored : Stored) :
    (publish disk (b ++ [g.text]) stored).Holds b g stored := by
  have hmanifest : manifestFile ≠ marker ∧ manifestFile ≠ rowsFile := by decide
  have hrows : rowsFile ≠ marker := by decide
  constructor
  · rw [publish, List.append_assoc, List.append_assoc, List.append_assoc]
    simp only [List.singleton_append]
    rw [node?_put_of_ne _ _ (ne_append (by simpa using hmanifest.1)),
      node?_put_of_ne _ _ (ne_append (by simpa using hmanifest.2)),
      node?_put_self _ _ (isPermanent_text _ _ _)]
  · rw [publish, List.append_assoc, List.append_assoc, List.append_assoc]
    simp only [List.singleton_append]
    rw [node?_put_of_ne _ _ (ne_append (by simpa using hrows)),
      node?_put_self _ _ (isPermanent_text _ _ _)]

theorem publish_flat (disk : Disk) (b : Address) (g : Guid) (stored : Stored)
    {rest : Address} (h : (publish disk (b ++ [g.text]) stored).HoldsFile (b ++ g.text :: rest)) :
    rest.length ≤ 1 := by
  obtain ⟨node, hnode, -⟩ := h
  apply Decidable.byContradiction
  intro hlong
  have hne (rest' : Address) (hrest : rest'.length ≤ 1) :
      b ++ g.text :: rest ≠ b ++ g.text :: rest' :=
    ne_append fun heq => hlong (heq ▸ hrest)
  have hprefix : b ++ [g.text] <+: b ++ g.text :: rest := ⟨rest, by simp⟩
  rw [publish, List.append_assoc, List.append_assoc, List.append_assoc] at hnode
  simp only [List.singleton_append] at hnode
  rw [node?_put_of_ne _ _ (hne _ (by simp)), node?_put_of_ne _ _ (hne _ (by simp)),
    node?_put_of_ne _ _ (hne _ (by simp)), node?_put_of_ne _ _ (hne _ (by simp)),
    node?_removeTree_of_prefix disk hprefix (isPermanent_text _ _ _)] at hnode
  cases hnode

/-- A suitable copy is published, below this base address or another one. -/
theorem KeptAs.publish {b' : Address} {g : Guid} {stored : Stored} (h : KeptAs suits b disk)
    (hsuits : suits g stored) : KeptAs suits b (publish disk (b' ++ [g.text]) stored) := by
  have hagrees := publish_agreesOff disk (b' ++ [g.text]) stored
  by_cases hbase : b' = b
  · subst hbase
    exact h.of_agreesOff hagrees fun _ => ⟨stored, hsuits, publish_holds disk b' g stored⟩
  · exact h.of_agreesOff_of_ne hbase hagrees fun _ => publish_flat disk b' g stored

theorem Kept.publish {g : Guid} {stored : Stored} (h : Kept copies b disk)
    (hcopy : copies g = some stored) : Kept copies b (publish disk (b ++ [g.text]) stored) :=
  KeptAs.publish h hcopy

/-- Of an entity directory at most the directory itself is left. -/
structure Removed (b : Address) (g : Guid) (before after : Disk) : Prop where
  agrees : AgreesOff (b ++ [g.text]) before after
  node : ∀ rest, rest ≠ [] → after.node? (b ++ g.text :: rest) = none
  directory : after.node? (b ++ [g.text]) = before.node? (b ++ [g.text]) ∨
    after.node? (b ++ [g.text]) = none
  catalogs : after.catalogs = before.catalogs
  held : after.held = before.held

theorem KeptAs.removed {after : Disk} {b' : Address} {g : Guid} (h : KeptAs suits b disk)
    (hremoved : Removed b' g disk after) : KeptAs suits b after := by
  have hnone {rest : Address} (hrest : rest ≠ []) : ¬ after.HoldsFile (b' ++ g.text :: rest) := by
    rintro ⟨node, hnode, -⟩
    rw [hremoved.node rest hrest] at hnode
    cases hnode
  by_cases hbase : b' = b
  · subst hbase
    exact h.of_agreesOff hremoved.agrees fun hfile => absurd hfile (hnone (by simp))
  · apply h.of_agreesOff_of_ne hbase hremoved.agrees
    intro rest hfile
    have hempty : rest = [] := Decidable.not_not.1 fun hrest => hnone hrest hfile
    simp [hempty]

theorem Kept.removed {after : Disk} {g : Guid} (h : Kept copies b disk)
    (hremoved : Removed b g disk after) : Kept copies b after := KeptAs.removed h hremoved

private theorem isBelow_text_iff {b : Address} {g : Guid} {a : Address} :
    isBelow (b ++ [g.text]) a ↔ b ++ [g.text] <+: a ∧ a ≠ b ++ [g.text] := by
  have hworking : b ++ [g.text] ≠ workingDirectory := by simp [workingDirectory]
  simp [isBelow, hworking]

theorem removed_clear (disk : Disk) (b : Address) (g : Guid) :
    Removed b g disk (disk.clear (b ++ [g.text])) := by
  have hself : isBelow (b ++ [g.text]) (b ++ [g.text]) = false := by
    rw [Bool.eq_false_iff]
    intro hbelow
    exact (isBelow_text_iff.1 hbelow).2 rfl
  refine ⟨fun a ha => ?_, fun rest hrest => ?_, .inl (node?_clear_of_not_below disk hself), rfl, rfl⟩
  · refine node?_clear_of_not_below disk ?_
    rw [Bool.eq_false_iff]
    intro hbelow
    exact ha (isBelow_text_iff.1 hbelow).1
  · refine node?_clear_of_below disk (isBelow_text_iff.2 ⟨?_, ?_⟩) (isPermanent_text _ _ _)
    · rw [List.prefix_append_right_inj, List.cons_prefix_cons]
      exact ⟨rfl, List.nil_prefix⟩
    · have hne : b ++ g.text :: rest ≠ b ++ g.text :: [] := ne_append hrest
      exact hne

theorem removed_removeTree (disk : Disk) (b : Address) (g : Guid) :
    Removed b g disk (disk.removeTree (b ++ [g.text])) := by
  refine ⟨fun a ha => node?_removeTree_of_not_prefix disk ha, fun rest _ => ?_, .inr ?_, rfl, rfl⟩
  · refine node?_removeTree_of_prefix disk ?_ (isPermanent_text _ _ _)
    rw [List.prefix_append_right_inj, List.cons_prefix_cons]
    exact ⟨rfl, List.nil_prefix⟩
  · exact node?_removeTree_of_prefix disk List.prefix_rfl (isPermanent_text _ _ _)

theorem Removed.trans {g : Guid} {after last : Disk} (h : Removed b g disk after)
    (h' : Removed b g after last) : Removed b g disk last := by
  refine ⟨fun a ha => (h'.agrees a ha).trans (h.agrees a ha), h'.node, ?_,
    h'.catalogs.trans h.catalogs, h'.held.trans h.held⟩
  rcases h'.directory with heq | hnone
  · rw [heq]
    exact h.directory
  · exact .inr hnone

end Disk

namespace EntityDirectory

open Disk

theorem resolve_path_iff {disk : Disk} {root : String} {g : Guid} {address : Address} :
    disk.resolve (path root g) = .ok address ↔ Admissible (path root g) ∧
      ∃ b, disk.Reaches root b ∧ address = b ++ [g.text] :=
  resolve_join_eq_ok_iff g.plain_text

/-- Publishing is the only way in which a write changes what is there. -/
theorem write_yields (root : String) (stored : Stored) (disk : Disk) :
    Yields (write root stored) disk
      (fun _ after => after = disk ∨ ∃ grown b, Grows (fun _ => True) disk grown ∧
        base root = .ok b ∧ after = publish grown (b ++ [stored.manifest.guid.text]) stored)
      fun failure after => (∃ fault, failure = .io fault) ∧ Grows (fun _ => True) disk after := by
  simp only [write, yields_bind, yields_get]
  split
  · exact .inl rfl
  · simp only [yields_bind, yields_adaptExcept, yields_get]
    refine (moves_createAll root disk).mono (fun _ grown hgrown => ?_)
      fun fault grown hgrown => ⟨⟨_, rfl⟩, hgrown⟩
    have hio {α : Type} {result : Except Fault α} {action path : String} {failure : Failure}
        (h : result.mapError (failed action path) = .error failure) :
        ∃ fault, failure = .io fault := by
      obtain ⟨fault, -, rfl⟩ := mapError_eq_error_iff.1 h
      exact ⟨_, rfl⟩
    refine yields_ofExcept (fun _ _ => ?_) fun _ herror => ⟨hio herror, hgrown⟩
    refine yields_ofExcept (fun address haddress => ?_) fun _ herror => ⟨hio herror, hgrown⟩
    obtain ⟨-, b, hb, rfl⟩ := resolve_path_iff.1 (mapError_eq_ok_iff.1 haddress)
    split
    · exact .inr ⟨grown, b, hgrown, hb.base_eq, rfl⟩
    · exact .inr ⟨grown, b, hgrown, hb.base_eq, rfl⟩
    · exact ⟨⟨_, rfl⟩, hgrown⟩

/-- Removing an entity directory leaves everything else, also where it fails. -/
theorem remove_yields (root : String) (g : Guid) (disk : Disk) :
    Yields (remove root g) disk
      (fun _ after => after = disk ∨ ∃ b, base root = .ok b ∧ Removed b g disk after)
      fun failure after => (∃ fault, failure = .io fault) ∧
        (after = disk ∨ ∃ b, base root = .ok b ∧ Removed b g disk after) := by
  simp only [remove, yields_bind, yields_get]
  split
  · rw [yields_adaptExcept, removeAll]
    simp only [yields_bind, yields_get, yields_set]
    refine yields_ofExcept (fun address haddress => ?_) fun _ _ => ⟨⟨_, rfl⟩, .inl rfl⟩
    refine yields_ofExcept (fun _ _ => ?_) fun _ _ => ⟨⟨_, rfl⟩, .inl rfl⟩
    obtain ⟨-, b, hb, rfl⟩ := resolve_path_iff.1 haddress
    have hcleared : Removed b g disk (disk.clear (b ++ [g.text])) := removed_clear disk b g
    split
    · rename_i after hremove
      obtain ⟨b', hb', rfl⟩ := removeDirectory_join g.plain_text hremove
      have hsame : b = b' := by
        have hbase := hb.base_eq
        rw [hb', Except.ok.injEq] at hbase
        exact hbase.symm
      subst hsame
      exact .inr ⟨b, hb', hcleared.trans (removed_removeTree _ b g)⟩
    · exact .inr ⟨b, hb.base_eq, hcleared⟩
    · exact ⟨⟨_, rfl⟩, .inr ⟨b, hb.base_eq, hcleared⟩⟩
  · exact .inl rfl

theorem find_file {disk : Disk} {root file : String} {g : Guid} {b : Address} {node : Node}
    (hplain : Plain file) (hadmissible : Admissible (Path.join (path root g) file))
    (hb : disk.Reaches root b) (hdirectory : disk.node? (b ++ [g.text]) = some .directory)
    (hnode : disk.node? (b ++ [g.text, file]) = some node) :
    disk.find (Path.join (path root g) file) = .ok node := by
  have hresolve : disk.resolve (Path.join (path root g) file) = .ok (b ++ [g.text, file]) :=
    (resolve_file_iff hplain).2 ⟨hadmissible, b, hb, hdirectory, rfl⟩
  rw [find, hresolve]
  simp [bind, Except.bind, hnode, pure, Except.pure]

private theorem readLimited_eq {disk : Disk} {path : String} {bytes : Bytes} (limit : Nat)
    (hfind : disk.find path = .ok (.file (.stored bytes))) :
    readLimited disk path limit =
      if limit < bytes.length then .error (.serialization (.fileSize path bytes.length limit))
      else .ok bytes := by
  have hsize : disk.sizeOf path = .ok bytes.length := by
    rw [Disk.sizeOf, hfind]
    rfl
  have hread : disk.read path = .ok bytes := by
    rw [Disk.read, hfind]
    rfl
  rw [readLimited, hsize, hread]
  by_cases hlimit : limit < bytes.length
  · simp [Except.mapError, bind, Except.bind, hlimit, throw, throwThe, MonadExceptOf.throw]
  · simp [Except.mapError, bind, Except.bind, hlimit]

/-- The files of a complete directory are found. -/
theorem find_of_holds {disk : Disk} {root : String} {g : Guid} {stored : Stored}
    (hcontains : contains disk root g) (hholds : ∀ b, base root = .ok b → disk.Holds b g stored) :
    disk.find (Path.join (path root g) manifestFile)
        = .ok (.file (.stored stored.manifest.encode)) ∧
      disk.find (Path.join (path root g) rowsFile) = .ok (.file (.stored stored.rows)) := by
  obtain ⟨hadmissible, b, hb, hdirectory, -⟩ := contains_iff.1 hcontains
  obtain ⟨hnull, hshort⟩ := (Path.admissible_join_iff plain_marker).1 hadmissible
  have hmanifestPath : Admissible (Path.join (path root g) manifestFile) :=
    (Path.admissible_join_iff plain_manifestFile).2 ⟨hnull, hshort⟩
  have hrowsPath : Admissible (Path.join (path root g) rowsFile) := by
    refine (Path.admissible_join_iff plain_rowsFile).2 ⟨hnull, Nat.lt_of_le_of_lt ?_ hshort⟩
    exact Nat.add_le_add_left (by decide) _
  have hfiles := hholds b hb.base_eq
  exact ⟨find_file plain_manifestFile hmanifestPath hb hdirectory hfiles.manifest,
    find_file plain_rowsFile hrowsPath hb hdirectory hfiles.rows⟩

/-- Copies are filed under the guids that they describe. -/
def Filed (copies : Guid → Option Stored) : Prop :=
  ∀ g stored, copies g = some stored →
    stored.manifest.guid = g ∧ stored.manifest.references.length < 2 ^ 64

/-- A copy stays within the limits that are set to reading. -/
structure Readable (stored : Stored) : Prop where
  manifest : stored.manifest.encode.length ≤ maxManifestSize
  rowCount : stored.manifest.rowCount.toNat ≤ Manifest.maxRows
  rows : stored.rows.length ≤ maxRowFileSize

theorem readable_of_limits {stored : Stored} {count : Nat}
    (hreferences : stored.manifest.references.length ≤ 2)
    (hcount : stored.manifest.rowCount = UInt64.ofNat count) (hlimit : count ≤ 2 ^ 32)
    (hrows : stored.rows.length ≤ 2 * 1024 ^ 3) : Readable stored := by
  refine ⟨?_, ?_, hrows⟩
  · have hlength := stored.manifest.length_encode_le
    have hmax : maxManifestSize = 65536 := rfl
    omega
  · rw [hcount, UInt64.toNat_ofNat_of_lt' (Nat.lt_of_le_of_lt hlimit (by decide))]
    exact hlimit

/-- A complete directory is read as what its files hold, unless a limit forbids it. -/
theorem read_of_holds {disk : Disk} {root : String} {g : Guid} {stored : Stored}
    (hguid : stored.manifest.guid = g) (hreferences : stored.manifest.references.length < 2 ^ 64)
    (hcontains : contains disk root g) (hholds : ∀ b, base root = .ok b → disk.Holds b g stored) :
    (Readable stored → read disk root g = .ok stored) ∧
      (read disk root g = .ok stored ∨
        ∃ fault, read disk root g = .error (.serialization fault)) := by
  obtain ⟨hfindManifest, hfindRows⟩ := find_of_holds hcontains hholds
  have hmanifest := readLimited_eq maxManifestSize hfindManifest
  have hrows := readLimited_eq maxRowFileSize hfindRows
  have hdecode := Manifest.decode_encode hreferences
  rw [hguid] at hdecode
  have hread : read disk root g = (do
      let manifest ← readLimited disk (Path.join (path root g) manifestFile) maxManifestSize
      let manifest ← Manifest.decode manifest g
      let rows ← readLimited disk (Path.join (path root g) rowsFile) maxRowFileSize
      return ⟨manifest, rows⟩) := by
    rw [read, hcontains]
    rfl
  refine ⟨fun hreadable => ?_, ?_⟩
  · have h₁ := Nat.not_lt.2 hreadable.manifest
    have h₂ := Nat.not_lt.2 hreadable.rowCount
    have h₃ := Nat.not_lt.2 hreadable.rows
    rw [hread, hmanifest, hrows, if_neg h₁, if_neg h₃]
    simp only [bind, Except.bind, hdecode, if_neg h₂]
    rfl
  · rw [hread, hmanifest, hrows]
    by_cases h₁ : maxManifestSize < stored.manifest.encode.length
    · rw [if_pos h₁]
      exact .inr ⟨_, rfl⟩
    · rw [if_neg h₁]
      simp only [bind, Except.bind, hdecode]
      by_cases h₂ : Manifest.maxRows < stored.manifest.rowCount.toNat
      · rw [if_pos h₂]
        exact .inr ⟨_, rfl⟩
      · rw [if_neg h₂]
        by_cases h₃ : maxRowFileSize < stored.rows.length
        · simp only [if_pos h₃]
          exact .inr ⟨_, rfl⟩
        · simp only [if_neg h₃]
          exact .inl rfl

/-- A directory that is complete is read as the copy that is kept there, unless a limit forbids
it. -/
theorem read_of_kept {copies : Guid → Option Stored} (hfiled : Filed copies) {disk : Disk}
    {root : String} {g : Guid} (hkept : ∀ b, base root = .ok b → Kept copies b disk)
    (hcontains : contains disk root g) :
    ∃ stored, copies g = some stored ∧ (Readable stored → read disk root g = .ok stored) ∧
      (read disk root g = .ok stored ∨
        ∃ fault, read disk root g = .error (.serialization fault)) := by
  obtain ⟨-, b, hb, -, hfile⟩ := contains_iff.1 hcontains
  obtain ⟨stored, hcopy, hholds⟩ := hkept b hb.base_eq g hfile
  obtain ⟨hguid, hreferences⟩ := hfiled g stored hcopy
  refine ⟨stored, hcopy, read_of_holds hguid hreferences hcontains fun b' hb' => ?_⟩
  have hsame := hb.base_eq.symm.trans hb'
  rw [Except.ok.injEq] at hsame
  rw [← hsame]
  exact hholds

theorem read_of_not_contains {disk : Disk} {root : String} {g : Guid}
    (h : contains disk root g = false) : read disk root g = .error (.missingEntity g) := by
  rw [read, h]
  rfl

end EntityDirectory

end GraphVault
