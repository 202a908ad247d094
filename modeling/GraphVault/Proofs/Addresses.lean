import GraphVault.EntityDirectory
import GraphVault.Proofs.StoredForms
import GraphVault.Proofs.Yields

/-!
# Where paths lead

The address that a path leads to depends on its text alone; what stands on the disk decides whether
it leads there at all. A name below a root leads to the name below the address of the root.
-/

namespace GraphVault

namespace Path

/-- A name that a file can have. -/
structure Plain (name : String) : Prop where
  ne_empty : name ≠ ""
  ne_dot : name ≠ "."
  ne_parent : name ≠ ".."
  no_slash : '/' ∉ name.toList
  no_null : '\x00' ∉ name.toList
  short : name.utf8ByteSize ≤ 255

instance (name : String) : Decidable (Plain name) :=
  decidable_of_iff (name ≠ "" ∧ name ≠ "." ∧ name ≠ ".." ∧ '/' ∉ name.toList ∧
    '\x00' ∉ name.toList ∧ name.utf8ByteSize ≤ 255)
    ⟨fun ⟨hempty, hdot, hparent, hslash, hnull, hshort⟩ =>
      ⟨hempty, hdot, hparent, hslash, hnull, hshort⟩,
    fun h => ⟨h.ne_empty, h.ne_dot, h.ne_parent, h.no_slash, h.no_null, h.short⟩⟩

/-- A path that the file system looks at. -/
structure Admissible (path : String) : Prop where
  no_null : '\x00' ∉ path.toList
  ne_empty : path ≠ ""
  short : path.utf8ByteSize < 4096

variable {root name other : String}

theorem segments_of_no_slash (h : '/' ∉ name.toList) : segments name = [name] := by
  simp [segments, List.splitOn_eq_singleton h]

theorem segments_append_slash (front back : String) :
    segments (front ++ "/" ++ back) = segments front ++ segments back := by
  have hlist : (front ++ "/" ++ back).toList = front.toList ++ '/' :: back.toList := by
    simp
  rw [segments, hlist, List.splitOn_append_cons_self, List.map_append]
  rfl

theorem join_empty (name : String) : join "" name = name := by
  simp [join]

theorem Plain.isAbsolute (h : Plain name) : isAbsolute name = false := by
  have hhead : name.toList.head? ≠ some '/' := by
    intro hhead
    exact h.no_slash (List.mem_of_mem_head? hhead)
  simpa [Path.isAbsolute] using hhead

theorem join_append_slash (h : Plain name) (stem : String) :
    join (stem ++ "/") name = stem ++ "/" ++ name := by
  simp [join, h.isAbsolute]

theorem join_of_no_slash (h : Plain name) (hne : root ≠ "")
    (hlast : root.toList.getLast? ≠ some '/') : join root name = root ++ "/" ++ name := by
  simp [join, h.isAbsolute, hne, hlast]

/-- A path that ends in a slash is one without it, and the slash. -/
theorem exists_stem (h : root.toList.getLast? = some '/') : ∃ stem, root = stem ++ "/" := by
  obtain ⟨front, hfront⟩ := List.getLast?_eq_some_iff.1 h
  refine ⟨String.ofList front, String.toList_inj.1 ?_⟩
  rw [hfront, String.toList_append, String.toList_ofList]
  rfl

/-- Joining a name replaces an empty last segment of the root. -/
theorem segments_join (h : Plain name) (root : String) :
    ∃ front, segments (join root name) = front ++ [name] ∧
      (segments root = front ∨ segments root = front ++ [""]) := by
  have hname := segments_of_no_slash h.no_slash
  by_cases hempty : root = ""
  · subst hempty
    refine ⟨[], ?_, .inr rfl⟩
    rw [join_empty, hname]
    rfl
  · by_cases hlast : root.toList.getLast? = some '/'
    · obtain ⟨stem, rfl⟩ := exists_stem hlast
      refine ⟨segments stem, ?_, .inr ?_⟩
      · rw [join_append_slash h, segments_append_slash, hname]
      · have happend := segments_append_slash stem ""
        rw [String.append_empty] at happend
        rw [happend]
        rfl
    · refine ⟨segments root, ?_, .inl rfl⟩
      rw [join_of_no_slash h hempty hlast, segments_append_slash, hname]

theorem isAbsolute_join (h : Plain name) (root : String) :
    isAbsolute (join root name) = isAbsolute root := by
  by_cases hempty : root = ""
  · subst hempty
    rw [join_empty, h.isAbsolute]
    rfl
  · have hcons : root.toList ≠ [] := by
      intro hnil
      exact hempty (String.toList_inj.1 hnil)
    obtain ⟨c, cs, hcs⟩ := List.exists_cons_of_ne_nil hcons
    by_cases hlast : root.toList.getLast? = some '/'
    · obtain ⟨stem, rfl⟩ := exists_stem hlast
      rw [join_append_slash h, isAbsolute, isAbsolute, String.toList_append, hcs]
      rfl
    · rw [join_of_no_slash h hempty hlast, isAbsolute, isAbsolute, String.toList_append,
        String.toList_append, hcs]
      rfl

/-- The bytes that a path has in front of a name that is joined to it. -/
def frontSize (root : String) : Nat :=
  if root = "" then 0
  else if root.toList.getLast? = some '/' then root.utf8ByteSize
  else root.utf8ByteSize + 1

theorem frontSize_le (root : String) : frontSize root ≤ root.utf8ByteSize + 1 := by
  unfold frontSize
  split
  · omega
  · split <;> omega

theorem size_le_frontSize (root : String) : root.utf8ByteSize ≤ frontSize root := by
  unfold frontSize
  split
  · rename_i hempty
    simp [hempty]
  · split <;> omega

theorem size_join (h : Plain name) (root : String) :
    (join root name).utf8ByteSize = frontSize root + name.utf8ByteSize := by
  unfold frontSize
  split
  · rename_i hempty
    rw [hempty, join_empty, Nat.zero_add]
  · rename_i hempty
    split
    · rename_i hlast
      obtain ⟨stem, rfl⟩ := exists_stem hlast
      rw [join_append_slash h, String.utf8ByteSize_append]
    · rename_i hlast
      rw [join_of_no_slash h hempty hlast, String.utf8ByteSize_append, String.utf8ByteSize_append]
      rfl

theorem null_mem_join_iff (h : Plain name) (root : String) :
    '\x00' ∈ (join root name).toList ↔ '\x00' ∈ root.toList := by
  have hname := h.no_null
  by_cases hempty : root = ""
  · subst hempty
    rw [join_empty]
    simpa using hname
  · by_cases hlast : root.toList.getLast? = some '/'
    · obtain ⟨stem, rfl⟩ := exists_stem hlast
      rw [join_append_slash h]
      simp [hname]
    · rw [join_of_no_slash h hempty hlast]
      simp [hname]

theorem admissible_join_iff (h : Plain name) :
    Admissible (join root name) ↔
      '\x00' ∉ root.toList ∧ frontSize root + name.utf8ByteSize < 4096 := by
  constructor
  · intro hadmissible
    have hshort := hadmissible.short
    rw [size_join h] at hshort
    exact ⟨fun hnull => hadmissible.no_null ((null_mem_join_iff h root).2 hnull), hshort⟩
  · rintro ⟨hnull, hshort⟩
    have hsize := size_join h root
    refine ⟨fun hmem => hnull ((null_mem_join_iff h root).1 hmem), ?_, by omega⟩
    intro hempty
    have hpositive : name.utf8ByteSize ≠ 0 := by
      intro hzero
      exact h.ne_empty (String.utf8ByteSize_eq_zero_iff.1 hzero)
    rw [hempty, String.utf8ByteSize_empty] at hsize
    omega

end Path

namespace Disk

open GraphVault.Path (Plain Admissible)

/-- Where the parts of a path start. -/
def origin (path : String) : Address := if Path.isAbsolute path then root else workingDirectory

/-- The address that parts lead to, whatever stands on the way. -/
def walk (start : Address) (parts : List String) : Except Fault Address := parts.foldlM enter start

/-- The address of the directory that a root is, wherever it is one. -/
def base (root : String) : Except Fault Address := walk (origin root) (Path.segments root)

/-- A root leads to a directory at an address. -/
def Reaches (disk : Disk) (root : String) (address : Address) : Prop :=
  disk.follow (origin root) (Path.segments root) = .ok address ∧
    disk.node? address = some .directory

theorem requireDirectory_eq_ok_iff {disk : Disk} {address : Address} :
    disk.requireDirectory address = .ok () ↔ disk.node? address = some .directory := by
  unfold requireDirectory
  split <;> simp_all

theorem parts_eq_ok_iff {path : String} {found : Address × List String} :
    parts path = .ok found ↔ Admissible path ∧ found = (origin path, Path.segments path) := by
  unfold parts
  split
  · rename_i hnull
    have hmem : '\x00' ∈ path.toList := by simpa using hnull
    constructor
    · intro h
      cases h
    · rintro ⟨h, -⟩
      exact absurd hmem h.no_null
  · rename_i hnull
    have hmem : '\x00' ∉ path.toList := by simpa using hnull
    split
    · rename_i hempty
      constructor
      · intro h
        cases h
      · rintro ⟨h, -⟩
        exact absurd hempty h.ne_empty
    · rename_i hempty
      split
      · rename_i hlong
        constructor
        · intro h
          cases h
        · rintro ⟨h, -⟩
          exact absurd h.short (Nat.not_lt.2 hlong)
      · rename_i hlong
        have hshort : path.utf8ByteSize < 4096 := Nat.lt_of_not_le hlong
        constructor
        · intro h
          cases h
          exact ⟨⟨hmem, hempty, hshort⟩, rfl⟩
        · rintro ⟨-, rfl⟩
          rfl

theorem enter_plain {name : String} (h : Plain name) (address : Address) :
    enter address name = .ok (address ++ [name]) := by
  have hstay : ¬ (name = "" ∨ name = ".") := by
    rintro (heq | heq)
    · exact h.ne_empty heq
    · exact h.ne_dot heq
  have hparent : ¬ name = parent := h.ne_parent
  have hshort : ¬ maxNameBytes < name.utf8ByteSize := Nat.not_lt.2 h.short
  rw [enter, if_neg hstay, if_neg hparent, if_neg hshort]

theorem enter_empty (address : Address) : enter address "" = .ok address := by
  rw [enter, if_pos (.inl rfl)]

theorem follow_append (disk : Disk) (start : Address) (front back : List String) :
    disk.follow start (front ++ back)
      = disk.follow start front >>= fun address => disk.follow address back := by
  rw [follow, List.foldlM_append]
  rfl

theorem follow_singleton (disk : Disk) (start : Address) (part : String) :
    disk.follow start [part] = disk.requireDirectory start >>= fun _ => enter start part := by
  rw [follow, List.foldlM_cons]
  exact bind_pure _

/-- Following parts leads where they lead. -/
theorem walk_of_follow {disk : Disk} {parts : List String} {start address : Address}
    (h : disk.follow start parts = .ok address) : walk start parts = .ok address := by
  induction parts generalizing start with
  | nil => exact h
  | cons part parts ih =>
    rw [follow, List.foldlM_cons] at h
    obtain ⟨next, hstep, hrest⟩ := bind_eq_ok_iff.1 h
    obtain ⟨-, henter⟩ := check_bind_eq_ok_iff.1 hstep
    rw [walk, List.foldlM_cons, henter]
    exact ih hrest

theorem Reaches.base_eq {disk : Disk} {root : String} {address : Address}
    (h : disk.Reaches root address) : base root = .ok address := walk_of_follow h.1

theorem origin_join {name : String} (h : Plain name) (root : String) :
    origin (Path.join root name) = origin root := by
  rw [origin, origin, Path.isAbsolute_join h]

/-- What comes in front of a name that is joined to a root leads where the root leads. -/
theorem exists_front {name : String} (h : Plain name) (root : String) :
    ∃ front, Path.segments (Path.join root name) = front ++ [name] ∧
      ∀ (disk : Disk) (b : Address), disk.Reaches root b ↔
        disk.follow (origin root) front = .ok b ∧ disk.node? b = some .directory := by
  obtain ⟨front, hjoin, hroot⟩ := Path.segments_join h root
  refine ⟨front, hjoin, fun disk b => ?_⟩
  rcases hroot with heq | heq
  · rw [Reaches, heq]
  · rw [Reaches, heq, follow_append, bind_eq_ok_iff]
    constructor
    · rintro ⟨⟨a, ha, hb⟩, hdirectory⟩
      rw [follow_singleton, check_bind_eq_ok_iff, enter_empty] at hb
      cases hb.2
      exact ⟨ha, hdirectory⟩
    · rintro ⟨hb, hdirectory⟩
      refine ⟨⟨b, hb, ?_⟩, hdirectory⟩
      rw [follow_singleton, requireDirectory_eq_ok_iff.2 hdirectory]
      exact enter_empty b

/-- Following a name below a root leads through the directory of the root. -/
theorem follow_join_eq_ok_iff {disk : Disk} {root name : String} {address : Address}
    (h : Plain name) :
    disk.follow (origin (Path.join root name)) (Path.segments (Path.join root name))
        = .ok address ↔
      ∃ b, disk.Reaches root b ∧ address = b ++ [name] := by
  obtain ⟨front, hjoin, hreaches⟩ := exists_front h root
  rw [origin_join h, hjoin, follow_append, bind_eq_ok_iff]
  constructor
  · rintro ⟨b, hb, haddress⟩
    rw [follow_singleton, check_bind_eq_ok_iff, requireDirectory_eq_ok_iff, enter_plain h] at haddress
    cases haddress.2
    exact ⟨b, (hreaches disk b).2 ⟨hb, haddress.1⟩, rfl⟩
  · rintro ⟨b, hb, rfl⟩
    obtain ⟨hfollow, hdirectory⟩ := (hreaches disk b).1 hb
    refine ⟨b, hfollow, ?_⟩
    rw [follow_singleton, requireDirectory_eq_ok_iff.2 hdirectory, enter_plain h]
    rfl

theorem reaches_join_iff {disk : Disk} {root name : String} {address : Address} (h : Plain name) :
    disk.Reaches (Path.join root name) address ↔
      ∃ b, disk.Reaches root b ∧ address = b ++ [name] ∧ disk.node? address = some .directory := by
  rw [Reaches, follow_join_eq_ok_iff h]
  constructor
  · rintro ⟨⟨b, hb, rfl⟩, hdirectory⟩
    exact ⟨b, hb, rfl, hdirectory⟩
  · rintro ⟨b, hb, rfl, hdirectory⟩
    exact ⟨⟨b, hb, rfl⟩, hdirectory⟩

theorem resolve_join_eq_ok_iff {disk : Disk} {root name : String} {address : Address}
    (h : Plain name) :
    disk.resolve (Path.join root name) = .ok address ↔
      Admissible (Path.join root name) ∧ ∃ b, disk.Reaches root b ∧ address = b ++ [name] := by
  rw [resolve, bind_eq_ok_iff]
  constructor
  · rintro ⟨found, hparts, hfollow⟩
    obtain ⟨hadmissible, rfl⟩ := parts_eq_ok_iff.1 hparts
    exact ⟨hadmissible, (follow_join_eq_ok_iff h).1 hfollow⟩
  · rintro ⟨hadmissible, hb⟩
    exact ⟨_, parts_eq_ok_iff.2 ⟨hadmissible, rfl⟩, (follow_join_eq_ok_iff h).2 hb⟩

theorem locate_join_eq_ok_iff {disk : Disk} {root name : String} {found : Address × Option String}
    (h : Plain name) :
    disk.locate (Path.join root name) = .ok found ↔
      Admissible (Path.join root name) ∧ ∃ b, disk.Reaches root b ∧ found = (b, some name) := by
  obtain ⟨front, hjoin, hreaches⟩ := exists_front h root
  have hlast : (front ++ [name]).reverse.dropWhile (·.isEmpty) = name :: front.reverse := by
    have hne := h.ne_empty
    simp [hne]
  rw [locate, bind_eq_ok_iff]
  constructor
  · rintro ⟨start, hparts, hfound⟩
    obtain ⟨hadmissible, rfl⟩ := parts_eq_ok_iff.1 hparts
    simp only [hjoin, hlast, origin_join h, List.reverse_reverse, bind_eq_ok_iff] at hfound
    obtain ⟨b, hb, _, hdirectory, hfound⟩ := hfound
    cases hfound
    have hreached := (hreaches disk b).2 ⟨hb, requireDirectory_eq_ok_iff.1 hdirectory⟩
    exact ⟨hadmissible, b, hreached, rfl⟩
  · rintro ⟨hadmissible, b, hb, rfl⟩
    obtain ⟨hfollow, hdirectory⟩ := (hreaches disk b).1 hb
    refine ⟨_, parts_eq_ok_iff.2 ⟨hadmissible, rfl⟩, ?_⟩
    simp only [hjoin, hlast, origin_join h, List.reverse_reverse, bind_eq_ok_iff]
    exact ⟨b, hfollow, (), requireDirectory_eq_ok_iff.2 hdirectory, rfl⟩

theorem removeDirectory_of_locate {disk : Disk} {path name : String} {b : Address}
    (h : Plain name) (hlocate : disk.locate path = .ok (b, some name)) :
    disk.removeDirectory path = disk.requireDirectory (b ++ [name]) >>= fun _ =>
      if disk.nodes.keys.any (isBelow (b ++ [name])) then .error .notEmpty
      else .ok (disk.removeTree (b ++ [name])) := by
  have hdot : some name ≠ some "." := fun heq => h.ne_dot (Option.some.inj heq)
  have hparent : some name ≠ some ".." := fun heq => h.ne_parent (Option.some.inj heq)
  rw [removeDirectory, hlocate]
  simp only [bind, Except.bind]
  split
  · rename_i heq
    cases heq
  · rename_i heq
    cases heq
    exact absurd rfl hdot
  · rename_i heq
    cases heq
    exact absurd rfl hparent
  · rename_i heq
    cases heq
    rw [enter_plain h]
    dsimp only
    cases disk.requireDirectory (b ++ [name]) with
    | error fault => rfl
    | ok _ =>
      dsimp only
      split <;> rfl

/-- Removing a directory below a root removes what stands at its address. -/
theorem removeDirectory_join {disk after : Disk} {root name : String} (h : Plain name)
    (hremove : disk.removeDirectory (Path.join root name) = .ok after) :
    ∃ b, base root = .ok b ∧ after = disk.removeTree (b ++ [name]) := by
  have hfound := hremove
  rw [removeDirectory] at hfound
  obtain ⟨found, hlocate, -⟩ := bind_eq_ok_iff.1 hfound
  obtain ⟨-, b, hb, rfl⟩ := (locate_join_eq_ok_iff h).1 hlocate
  rw [removeDirectory_of_locate h hlocate] at hremove
  obtain ⟨-, hremove⟩ := check_bind_eq_ok_iff.1 hremove
  split at hremove
  · cases hremove
  · exact ⟨b, hb.base_eq, (Except.ok.inj hremove).symm⟩

end Disk

end GraphVault
