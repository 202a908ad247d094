import GraphVault.Proofs.CompleteCopies

/-!
# Writing in steps

Step by step, an entity is assembled in a directory of its own, which is then renamed. Where
something incomplete is in the way, this is cleared and the renaming tried again, and the directory
of the assembly is thrown away whatever has come of it. Below a root that can be used this comes to
the same as putting the entity in its place at once (`EntityDirectory.stage_eq_write`).
-/

namespace GraphVault

open GraphVault.Path (Plain Admissible)

namespace Disk

/-! ### Renaming -/

/-- The address that a node has once a directory has been moved. -/
def relocate (source target address : Address) : Address :=
  if source.isPrefixOf address then target ++ address.drop source.length else address

/-- The disk with a directory and what is below it moved, in place of what was there. -/
def move (disk : Disk) (source target : Address) : Disk :=
  { disk with nodes := SortedMap.ofList ((disk.removeTree target).nodes.entries.map
      fun entry => (relocate source target entry.1, entry.2)) }

/-- Renames a directory, which may take the place of an empty one. -/
def rename (disk : Disk) (path target : String) : Except Fault Disk := do
  let source ← disk.resolve path
  disk.requireDirectory source
  let address ← disk.resolve target
  if isBelow source address then throw .unnamed
  match disk.node? address with
  | none => return disk.move source address
  | some .directory =>
    if disk.nodes.keys.any (isBelow address) then throw .notEmpty
    return disk.move source address
  | some _ => throw .notDirectory

variable {disk : Disk} {source target a x : Address} {node : Node}

private theorem relocate_append (source target rest : Address) :
    relocate source target (source ++ rest) = target ++ rest := by
  rw [relocate, if_pos (List.isPrefixOf_iff_prefix.2 (List.prefix_append _ _)), List.drop_left]

private theorem relocate_of_not_below (h : ¬ source <+: a) : relocate source target a = a := by
  rw [relocate, if_neg (List.isPrefixOf_iff_prefix.not.2 h)]

/-- What is moved comes to stand where nothing else stands. -/
private theorem eq_of_relocate_eq {a' : Address} (h : ¬ target <+: a) (h' : ¬ target <+: a')
    (heq : relocate source target a = relocate source target a') : a = a' := by
  by_cases ha : source <+: a
  · obtain ⟨rest, rfl⟩ := ha
    rw [relocate_append] at heq
    by_cases ha' : source <+: a'
    · obtain ⟨rest', rfl⟩ := ha'
      rw [relocate_append, List.append_right_inj] at heq
      rw [heq]
    · rw [relocate_of_not_below ha'] at heq
      exact absurd (heq ▸ List.prefix_append target rest) h'
  · rw [relocate_of_not_below ha] at heq
    by_cases ha' : source <+: a'
    · obtain ⟨rest', rfl⟩ := ha'
      rw [relocate_append] at heq
      exact absurd (heq ▸ List.prefix_append target rest') h
    · rwa [relocate_of_not_below ha'] at heq

theorem get?_removeTree (disk : Disk) (target x : Address) :
    (disk.removeTree target).nodes.get? x = if target <+: x then none else disk.nodes.get? x := by
  refine Option.ext fun node => ?_
  rw [removeTree, SortedMap.get?_filter_eq_some_iff, Bool.not_eq_true', Bool.eq_false_iff, Ne,
    List.isPrefixOf_iff_prefix]
  split <;> simp_all

private theorem get?_move_eq_some_iff : (disk.move source target).nodes.get? x = some node ↔
    ∃ a, ¬ target <+: a ∧ disk.nodes.get? a = some node ∧ relocate source target a = x := by
  have hkept (entry : Address × Node) : entry ∈ (disk.removeTree target).nodes.entries ↔
      ¬ target <+: entry.1 ∧ disk.nodes.get? entry.1 = some entry.2 := by
    rw [← SortedMap.get?_eq_some_iff, get?_removeTree]
    split <;> simp_all
  have hnodup : (((disk.removeTree target).nodes.entries.map fun entry =>
      (relocate source target entry.1, entry.2)).map (·.1)).Nodup := by
    rw [List.map_map, List.Nodup, List.pairwise_map]
    have hkeys := List.pairwise_map.1 (disk.removeTree target).nodes.nodup_keys
    refine hkeys.imp_of_mem fun {entry other} hentry hother hne heq => hne ?_
    exact eq_of_relocate_eq ((hkept entry).1 hentry).1 ((hkept other).1 hother).1 heq
  rw [move, SortedMap.get?_ofList_eq_some_iff hnodup, List.mem_map]
  constructor
  · rintro ⟨entry, hentry, heq⟩
    cases heq
    obtain ⟨htarget, hget⟩ := (hkept entry).1 hentry
    exact ⟨entry.1, htarget, hget, rfl⟩
  · rintro ⟨a, htarget, hget, rfl⟩
    exact ⟨(a, node), (hkept (a, node)).2 ⟨htarget, hget⟩, rfl⟩

/-- Moving a directory depends on what is in its place only as far as this goes away. -/
private theorem move_congr {other : Disk} (h : disk.removeTree target = other.removeTree target) :
    disk.move source target = other.move source target := by
  have hcatalogs : disk.catalogs = other.catalogs := (Disk.mk.inj h).2.1
  have hheld : disk.held = other.held := (Disk.mk.inj h).2.2
  rw [move, move, h, hcatalogs, hheld]

theorem removeTree_cleared (disk : Disk) (address : Address) :
    ((disk.clear address).removeTree address).removeTree address = disk.removeTree address := by
  have hkept (entry : Address × Node) : (!address.isPrefixOf entry.1) = true →
      (!isBelow address entry.1) = true := by
    simp +contextual [isBelow]
  have hnodes : ((disk.nodes.filter fun other _ => !isBelow address other).filter
      fun other _ => !address.isPrefixOf other).filter (fun other _ => !address.isPrefixOf other)
        = disk.nodes.filter fun other _ => !address.isPrefixOf other := by
    refine SortedMap.ext fun x => Option.ext fun node => ?_
    simp only [SortedMap.get?_filter_eq_some_iff]
    have := hkept (x, node)
    tauto
  rw [removeTree, removeTree, clear, removeTree, hnodes]

/-- What stood at and below the directory that is moved stands at and below its new place. -/
theorem get?_move_append {rest : Address} (h : ¬ target <+: source ++ rest) :
    (disk.move source target).nodes.get? (target ++ rest) = disk.nodes.get? (source ++ rest) := by
  refine Option.ext fun node => get?_move_eq_some_iff.trans ⟨?_, fun hget => ?_⟩
  · rintro ⟨a, htarget, hget, heq⟩
    by_cases ha : source <+: a
    · obtain ⟨rest', rfl⟩ := ha
      rw [relocate_append, List.append_right_inj] at heq
      rwa [← heq]
    · rw [relocate_of_not_below ha] at heq
      exact absurd (heq ▸ List.prefix_append target rest) htarget
  · exact ⟨source ++ rest, h, hget, relocate_append _ _ _⟩

theorem get?_move_of_not_below (htarget : ¬ target <+: x) : (disk.move source target).nodes.get? x
    = if source <+: x then none else disk.nodes.get? x := by
  have hmoved {a : Address} (hne : relocate source target a = x) : ¬ source <+: a ∧ a = x := by
    by_cases ha : source <+: a
    · obtain ⟨rest, rfl⟩ := ha
      rw [relocate_append] at hne
      exact absurd (hne ▸ List.prefix_append target rest) htarget
    · exact ⟨ha, relocate_of_not_below ha ▸ hne⟩
  refine Option.ext fun node => get?_move_eq_some_iff.trans ⟨?_, fun hget => ?_⟩
  · rintro ⟨a, -, hget, heq⟩
    obtain ⟨ha, rfl⟩ := hmoved heq
    rwa [if_neg ha]
  · by_cases hx : source <+: x
    · rw [if_pos hx] at hget
      cases hget
    · rw [if_neg hx] at hget
      exact ⟨x, htarget, hget, relocate_of_not_below hx⟩

/-- A directory is renamed unless something is in the way. -/
theorem rename_eq {path place : String} (hsource : disk.resolve path = .ok source)
    (hdirectory : disk.HasDirectory source) (htarget : disk.resolve place = .ok target)
    (hpassable : disk.Passable target) (hapart : ¬ source <+: target) :
    disk.rename path place =
      if (disk.node? target).isSome && disk.nodes.keys.any (isBelow target) then .error .notEmpty
      else .ok (disk.move source target) := by
  have hbelow : isBelow source target = false := by
    rw [isBelow, Bool.eq_false_iff.2 (List.isPrefixOf_iff_prefix.not.2 hapart)]
    rfl
  simp only [rename, hsource, htarget, requireDirectory_eq_ok_iff.2 hdirectory, bind, Except.bind,
    hbelow, Bool.false_eq_true, if_false]
  cases hnode : disk.node? target with
  | none => rfl
  | some node =>
    obtain rfl := hpassable node hnode
    cases disk.nodes.keys.any (isBelow target) <;> rfl

/-! ### Files and directories below a root -/

variable {root : String} {b : Address} {name : String}

/-- What is there stays when something is put where nothing was. -/
theorem HasDirectory.put (h : disk.HasDirectory x) (hnone : disk.node? a = none) (node : Node) :
    (disk.put a node).HasDirectory x := by
  rw [HasDirectory, node?_put_of_ne]
  · exact h
  · rintro rfl
    rw [HasDirectory, hnone] at h
    cases h

theorem Reaches.put (h : disk.Reaches root b) (hnone : disk.node? a = none) (node : Node) :
    (disk.put a node).Reaches root b :=
  reaches_iff_way.2 ((reaches_iff_way.1 h).mono fun _ hx => HasDirectory.put hx hnone node)

theorem isPermanent_plain (h : Plain name) (front back : Address) :
    isPermanent (front ++ name :: back) = false := by
  refine isPermanent_of_mem (List.mem_append_right front List.mem_cons_self) ?_ h.ne_parent
  rintro rfl
  exact h.no_slash (by decide)

/-- A directory with a new name is made below a root. -/
theorem makeDirectory_join (h : Plain name) (hadmissible : Admissible (Path.join root name))
    (hreaches : disk.Reaches root b) (hnone : disk.node? (b ++ [name]) = none) :
    disk.makeDirectory (Path.join root name) = .ok (disk.put (b ++ [name]) .directory) := by
  rw [makeDirectory, (locate_join_eq_ok_iff h).2 ⟨hadmissible, b, hreaches, rfl⟩]
  simp only [bind, Except.bind]
  split
  · rename_i heq
    cases heq
  · rename_i heq
    cases heq
    exact absurd rfl h.ne_dot
  · rename_i heq
    cases heq
    exact absurd rfl h.ne_parent
  · rename_i heq
    cases heq
    simp only [enter_plain h, hnone]
    rfl

/-- A new file is written below a root. -/
theorem write_join (h : Plain name) (hadmissible : Admissible (Path.join root name))
    (hreaches : disk.Reaches root b) (hnone : disk.node? (b ++ [name]) = none) (content : Content) :
    disk.write (Path.join root name) content = .ok (disk.put (b ++ [name]) (.file content)) := by
  rw [write, (resolve_join_eq_ok_iff h).2 ⟨hadmissible, b, hreaches, rfl⟩]
  simp only [bind, Except.bind, hnone]
  rfl

end Disk

namespace EntityDirectory

open Disk

/-! ### Assembling -/

/-- The disk with a complete entity directory at an address where nothing is. -/
def assemble (disk : Disk) (address : Address) (stored : Stored) : Disk :=
  (((disk.put address .directory).put (address ++ [manifestFile])
      (.file (.stored stored.manifest.encode))).put (address ++ [rowsFile])
      (.file (.stored stored.rows))).put (address ++ [marker]) (.file (.stored []))

variable {outside : Address → Prop} {root suffix : String} {b s t x rest : Address} {g : Guid}
  {stored : Stored} {disk grown : Disk}

private theorem get?_put (disk : Disk) (a : Address) (node : Node) (x : Address) :
    (disk.put a node).nodes.get? x = if x = a then some node else disk.nodes.get? x := by
  split
  · rename_i heq
    rw [heq]
    exact SortedMap.get?_insert_self _ _ _
  · rename_i hne
    exact SortedMap.get?_insert_of_ne _ _ hne

private theorem get?_assemble_of_not_below (h : ¬ s <+: x) :
    (assemble disk s stored).nodes.get? x = disk.nodes.get? x := by
  have hself : x ≠ s := by
    rintro rfl
    exact h List.prefix_rfl
  have hfile (file : String) : x ≠ s ++ [file] := by
    rintro rfl
    exact h (List.prefix_append _ _)
  simp only [assemble, get?_put, hself, hfile, if_false]

/-- What is assembled where nothing was is the same everywhere. -/
private theorem get?_assemble_append {other : Disk} (h : disk.nodes.get? (s ++ rest) = none)
    (h' : other.nodes.get? (t ++ rest) = none) :
    (assemble disk s stored).nodes.get? (s ++ rest)
      = (assemble other t stored).nodes.get? (t ++ rest) := by
  simp only [assemble, get?_put, List.append_right_inj, List.append_right_eq_self, h, h']

/-- Renaming what has been assembled in a directory of its own publishes it. -/
theorem move_assemble (hapart : ∀ rest, ¬ t <+: s ++ rest)
    (hfree : ∀ rest, disk.nodes.get? (s ++ rest) = none) :
    (assemble disk s stored).move s t = publish disk t stored := by
  have hpublish : publish disk t stored = assemble (disk.removeTree t) t stored := rfl
  have hnodes : ((assemble disk s stored).move s t).nodes = (publish disk t stored).nodes := by
    refine SortedMap.ext fun x => ?_
    rw [hpublish]
    by_cases hx : t <+: x
    · obtain ⟨rest, rfl⟩ := hx
      rw [get?_move_append (hapart rest)]
      refine get?_assemble_append (hfree rest) ?_
      rw [get?_removeTree, if_pos (List.prefix_append t rest)]
    · rw [get?_move_of_not_below hx, get?_assemble_of_not_below hx, get?_removeTree, if_neg hx]
      by_cases hsource : s <+: x
      · obtain ⟨rest, rfl⟩ := hsource
        rw [if_pos (List.prefix_append s rest), hfree]
      · rw [if_neg hsource, get?_assemble_of_not_below hsource]
  calc (assemble disk s stored).move s t
      = ⟨((assemble disk s stored).move s t).nodes, disk.catalogs, disk.held⟩ := rfl
    _ = publish disk t stored := by rw [hnodes]; rfl

/-! ### The steps of a write -/

/-- One step on a disk; a fault is told with what was being done. -/
def step (action place : String) (change : Disk → Except Fault Disk) : DiskM Unit := do
  set (← MonadExcept.ofExcept ((change (← get)).mapError (failed action place)))

/-- The disk when it has been tried to throw a directory away. -/
def discard (directory : String) (disk : Disk) : Disk :=
  match Disk.removeAll directory disk with
  | .ok _ after => after
  | .error _ after => after

/-- Does some work and then throws a directory away, whatever has come of the work. -/
def discarding (directory : String) (work : DiskM Unit) : DiskM Unit := fun disk =>
  match work disk with
  | .ok a after => .ok a (discard directory after)
  | .error failure after => .error failure (discard directory after)

/-- Renames an assembled directory to that of its entity. A complete one is kept, and what is
incomplete there is cleared, after which the renaming is tried again. -/
def settle (root directory : String) (guid : Guid) : DiskM Unit := do
  let target := path root guid
  match (← get).rename directory target with
  | .ok disk => set disk
  | .error fault =>
    if contains (← get) root guid then return
    if !(← get).contains target then throw (failed "publish" target fault)
    (tryCatch (Disk.removeAll target) fun fault =>
      if fault = .notFound then pure () else throw fault).adaptExcept
        (failed "clear incomplete" target)
    match (← get).rename directory target with
    | .ok disk => set disk
    | .error fault => if !contains (← get) root guid then throw (failed "publish" target fault)

/-- Writes an entity below a root step by step. The suffix stands at the end of the name of the
directory in which the entity is assembled. -/
def stage (root suffix : String) (stored : Stored) : DiskM Unit := do
  let guid := stored.manifest.guid
  if contains (← get) root guid then return
  (Disk.createAll root).adaptExcept (failed "create data root" root)
  let directory := Path.join root (stagingName guid ("-" ++ suffix))
  step "create staging" root (·.makeDirectory directory)
  discarding directory do
    step "write manifest" directory (·.write (Path.join directory manifestFile)
      (.stored stored.manifest.encode))
    step "write rows" directory (·.write (Path.join directory rowsFile) (.stored stored.rows))
    step "write marker" directory (·.write (Path.join directory marker) (.stored []))
    settle root directory guid

private theorem yields_step {action place : String} {change : Disk → Except Fault Disk}
    {post : Unit → Disk → Prop} {fail : Failure → Disk → Prop} :
    Yields (step action place change) disk post fail ↔
      match change disk with
      | .ok after => post () after
      | .error fault => fail (failed action place fault) disk := by
  simp only [step, yields_bind, yields_get]
  cases change disk <;> rfl

private theorem yields_discarding {directory : String} {work : DiskM Unit}
    {post : Unit → Disk → Prop} {fail : Failure → Disk → Prop} :
    Yields (discarding directory work) disk post fail ↔
      Yields work disk (fun a after => post a (discard directory after))
        fun failure after => fail failure (discard directory after) := by
  simp only [Yields, discarding]
  cases work disk <;> rfl

/-! ### Both ways to write -/

/-- Six letters and digits with which the name of a new directory below a root is not taken, once
the directories of the root are made. -/
structure Fresh (root : String) (b : Address) (g : Guid) (suffix : String) (disk : Disk) :
    Prop where
  size : suffix.utf8ByteSize = 6
  alphanumeric : ∀ c ∈ suffix.toList, c.isAlphanum
  free : ∀ grown, createAll root disk = .ok () grown →
    ∀ rest, grown.node? (b ++ stagingName g ("-" ++ suffix) :: rest) = none

theorem Fresh.size_name (h : Fresh root b g suffix disk) :
    (stagingName g ("-" ++ suffix)).utf8ByteSize = 80 := by
  rw [utf8ByteSize_stagingName, String.utf8ByteSize_append, h.size]
  rfl

theorem Fresh.plain (h : Fresh root b g suffix disk) : Plain (stagingName g ("-" ++ suffix)) := by
  have hlacks {c : Char} (hc : c.isAlphanum = false) (hdash : c ≠ '-') :
      c ∉ ("-" ++ suffix).toList := by
    rw [String.toList_append, List.mem_append, not_or]
    refine ⟨?_, fun hmem => ?_⟩
    · rwa [show "-".toList = ['-'] from rfl, List.mem_singleton]
    · rw [h.alphanumeric c hmem] at hc
      cases hc
  refine plain_stagingName g ?_ (hlacks (by decide) (by decide)) (hlacks (by decide) (by decide))
  rw [String.utf8ByteSize_append, h.size]
  rfl

/-- The directory of an assembly is not one of an entity. -/
theorem Fresh.not_below (h : Fresh root b g suffix disk) (other : Guid) (rest : Address) :
    ¬ b ++ [other.text] <+: b ++ stagingName g ("-" ++ suffix) :: rest := by
  rw [List.prefix_append_right_inj, List.cons_prefix_cons]
  rintro ⟨heq, -⟩
  exact Guid.text_ne (by rw [h.size_name]; decide) heq

/-- An entity is assembled beside its place, which is free for it. -/
private structure Assembling (outside : Address → Prop) (root : String) (b : Address) (g : Guid)
    (name : String) (grown : Disk) : Prop where
  usable : Usable outside root b grown
  outside : ∀ x, outside x → ¬ b ++ [g.text] <+: x
  reaches : grown.Reaches root b
  room : root.utf8ByteSize + 90 < 4096
  plain : Plain name
  size : name.utf8ByteSize = 80
  free : ∀ rest, grown.node? (b ++ name :: rest) = none
  unmarked : ¬ Marked b g grown

variable {name : String}

private theorem Assembling.admissible (h : Assembling outside root b g name grown) :
    Admissible (Path.join root name) :=
  h.usable.admissible_join h.plain (Nat.le_of_eq h.size)

private theorem Assembling.admissible_file (h : Assembling outside root b g name grown)
    {file : String} (hfile : Plain file) (hsize : file.utf8ByteSize ≤ 8) :
    Admissible (Path.join (Path.join root name) file) := by
  have hroot := Path.frontSize_le root
  have hdirectory := Path.frontSize_le (Path.join root name)
  have hjoin := Path.size_join h.plain root
  have hroom := h.room
  rw [h.size] at hjoin
  exact (Path.admissible_join_iff hfile).2 ⟨h.admissible.no_null, by omega⟩

private theorem Assembling.apart (h : Assembling outside root b g name grown) (rest : Address) :
    ¬ b ++ [g.text] <+: b ++ [name] ++ rest := by
  rw [List.append_assoc, List.prefix_append_right_inj, List.singleton_append, List.cons_prefix_cons]
  rintro ⟨heq, -⟩
  exact Guid.text_ne (by rw [h.size]; decide) heq

private theorem Assembling.apart_self (h : Assembling outside root b g name grown) :
    ¬ b ++ [g.text] <+: b ++ [name] := by
  simpa using h.apart []

private theorem Assembling.apart' (h : Assembling outside root b g name grown) (other : Guid)
    (rest : Address) : ¬ b ++ [name] <+: b ++ other.text :: rest := by
  rw [List.prefix_append_right_inj, List.cons_prefix_cons]
  rintro ⟨heq, -⟩
  exact Guid.text_ne (by rw [h.size]; decide) heq.symm

private theorem Assembling.get?_eq_none (h : Assembling outside root b g name grown)
    (rest : Address) : grown.nodes.get? (b ++ [name] ++ rest) = none := by
  have hfree := h.free rest
  rwa [node?, isPermanent_plain h.plain, if_neg Bool.false_ne_true, List.append_cons] at hfree

/-- The files are written into the new directory one by one. -/
private theorem Assembling.fills (h : Assembling outside root b g name grown) (stored : Stored) :
    ∃ first second,
      (grown.put (b ++ [name]) .directory).write (Path.join (Path.join root name) manifestFile)
        (.stored stored.manifest.encode) = .ok first ∧
      first.write (Path.join (Path.join root name) rowsFile) (.stored stored.rows) = .ok second ∧
      second.write (Path.join (Path.join root name) marker) (.stored [])
        = .ok (assemble grown (b ++ [name]) stored) := by
  have hself (file : String) : b ++ [name] ++ [file] ≠ b ++ [name] := by simp
  have hfile {file other : String} (hne : file ≠ other) :
      b ++ [name] ++ [file] ≠ b ++ [name] ++ [other] := by simpa using hne
  have hfree (file : String) :
      (grown.put (b ++ [name]) .directory).node? (b ++ [name] ++ [file]) = none := by
    rw [node?_put_of_ne _ _ (hself file), ← List.append_cons]
    exact h.free [file]
  have hmade : (grown.put (b ++ [name]) .directory).Reaches (Path.join root name) (b ++ [name]) :=
    (reaches_join_iff h.plain).2 ⟨b, h.reaches.put (h.free []) _, rfl,
      node?_put_self _ _ (isPermanent_plain h.plain b [])⟩
  have hfirst := hmade.put (hfree manifestFile) (.file (.stored stored.manifest.encode))
  have hrows := (node?_put_of_ne _ (.file (.stored stored.manifest.encode))
    (hfile (by decide : rowsFile ≠ manifestFile))).trans (hfree rowsFile)
  have hsecond := hfirst.put hrows (.file (.stored stored.rows))
  have hmarker := (node?_put_of_ne _ (.file (.stored stored.rows))
    (hfile (by decide : marker ≠ rowsFile))).trans
      ((node?_put_of_ne _ (.file (.stored stored.manifest.encode))
        (hfile (by decide : marker ≠ manifestFile))).trans (hfree marker))
  exact ⟨_, _,
    write_join plain_manifestFile (h.admissible_file plain_manifestFile (by decide)) hmade
      (hfree manifestFile) _,
    write_join plain_rowsFile (h.admissible_file plain_rowsFile (by decide)) hfirst hrows _,
    write_join plain_marker (h.admissible_file plain_marker (by decide)) hsecond hmarker _⟩

/-- What stands beside the new directory stays as it is. -/
private theorem node?_assemble (stored : Stored) (hx : ¬ s <+: x) :
    (assemble disk s stored).node? x = disk.node? x := by
  rw [node?, node?, get?_assemble_of_not_below hx]

private theorem Assembling.stays (h : Assembling outside root b g name grown) (stored : Stored)
    (hx : grown.HasDirectory x) : (assemble grown (b ++ [name]) stored).HasDirectory x := by
  refine (node?_assemble stored ?_).trans hx
  rintro ⟨rest, rfl⟩
  rw [HasDirectory, ← List.append_cons, h.free] at hx
  cases hx

private theorem Assembling.assembled (h : Assembling outside root b g name grown)
    (stored : Stored) :
    Usable outside root b (assemble grown (b ++ [name]) stored) ∧
      (assemble grown (b ++ [name]) stored).Reaches root b ∧
      (assemble grown (b ++ [name]) stored).HasDirectory (b ++ [name]) ∧
      ¬ Marked b g (assemble grown (b ++ [name]) stored) := by
  have hstays (x : Address) := h.stays (x := x) stored
  refine ⟨h.usable.of_stays h.reaches (fun x _ => hstays x) fun other node hnode => ?_,
    h.usable.reaches_of_stays h.reaches fun x _ => hstays x, ?_, ?_⟩
  · rw [node?_assemble stored (h.apart' other [])] at hnode
    exact h.usable.entities other node hnode
  · have hself (file : String) : b ++ [name] ≠ b ++ [name] ++ [file] := by simp
    rw [HasDirectory, assemble, node?_put_of_ne _ _ (hself _), node?_put_of_ne _ _ (hself _),
      node?_put_of_ne _ _ (hself _), node?_put_self _ _ (isPermanent_plain h.plain b [])]
  · rintro ⟨node, hnode, hfile⟩
    rw [node?_assemble stored (h.apart' g [marker])] at hnode
    exact h.unmarked ⟨node, hnode, hfile⟩

/-- The directory that has been assembled can be renamed unless something is in its way. -/
private theorem Assembling.rename_eq (h : Assembling outside root b g name grown)
    (hreaches : disk.Reaches root b) (hdirectory : disk.HasDirectory (b ++ [name]))
    (hpassable : disk.Passable (b ++ [g.text])) :
    disk.rename (Path.join root name) (path root g) =
      if (disk.node? (b ++ [g.text])).isSome && disk.nodes.keys.any (isBelow (b ++ [g.text])) then
        .error .notEmpty
      else .ok (disk.move (b ++ [name]) (b ++ [g.text])) := by
  have htarget := h.usable.admissible_path g
  exact Disk.rename_eq ((resolve_join_eq_ok_iff h.plain).2 ⟨h.admissible, b, hreaches, rfl⟩)
    hdirectory (resolve_path_iff.2 ⟨htarget, b, hreaches, rfl⟩) hpassable (h.apart' g [])

/-- Once what is in the way is cleared, it takes the place of its entity. -/
private theorem Assembling.rename_cleared (h : Assembling outside root b g name grown)
    (stored : Stored) :
    (((assemble grown (b ++ [name]) stored).clear (b ++ [g.text])).removeTree
        (b ++ [g.text])).rename (Path.join root name) (path root g)
      = .ok (publish grown (b ++ [g.text]) stored) := by
  obtain ⟨husable, hreaches, hdirectory, -⟩ := h.assembled stored
  have hcleared := (removed_clear (assemble grown (b ++ [name]) stored) b g).trans
    (removed_removeTree _ b g)
  have hempty := node?_removeTree_of_prefix
    ((assemble grown (b ++ [name]) stored).clear (b ++ [g.text])) List.prefix_rfl
    (isPermanent_text b g [])
  rw [h.rename_eq (husable.reaches hreaches fun x hx => hcleared.agrees x (h.outside x hx)).2
    ((hcleared.agrees _ h.apart_self).trans hdirectory) (hcleared.passable (husable.entities g)),
    hempty, move_congr (removeTree_cleared _ _), move_assemble h.apart h.get?_eq_none]
  rfl

/-- The directory that has been assembled takes the place of its entity. -/
private theorem Assembling.settle_yields (h : Assembling outside root b g name grown)
    (stored : Stored) :
    Yields (settle root (Path.join root name) g) (assemble grown (b ++ [name]) stored)
      (fun _ after => after = publish grown (b ++ [g.text]) stored) fun _ _ => False := by
  obtain ⟨husable, hreaches, hdirectory, hunmarked⟩ := h.assembled stored
  have hrename := h.rename_eq hreaches hdirectory (husable.entities g)
  simp only [settle, yields_bind, yields_get]
  cases hfull : ((assemble grown (b ++ [name]) stored).node? (b ++ [g.text])).isSome &&
      (assemble grown (b ++ [name]) stored).nodes.keys.any (isBelow (b ++ [g.text])) with
  | false =>
    rw [hfull, if_neg Bool.false_ne_true, move_assemble h.apart h.get?_eq_none] at hrename
    rw [hrename]
    exact rfl
  | true =>
    rw [hfull, if_pos rfl] at hrename
    -- what is in the way is not complete, and is cleared
    have hthere : (assemble grown (b ++ [name]) stored).HasDirectory (b ++ [g.text]) := by
      obtain ⟨node, hnode⟩ := Option.isSome_iff_exists.1 (Bool.and_eq_true_iff.1 hfull).1
      rw [HasDirectory, hnode, husable.entities g node hnode]
    have hcontains : contains (assemble grown (b ++ [name]) stored) root g = false := by
      rw [Bool.eq_false_iff]
      exact fun hcontains => hunmarked (marked_of_contains husable hcontains)
    have hexists := (contains_path_iff husable g).2 ⟨hreaches, hthere⟩
    simp only [hrename, hcontains, hexists, yields_bind, yields_get, Bool.false_eq_true, if_false,
      Bool.not_true, yields_adaptExcept, yields_tryCatch]
    apply (removeAll_yields husable g h.outside hreaches hthere).mono ?_
      fun _ _ hfalse => hfalse.elim
    rintro - _ rfl
    simp only [h.rename_cleared stored]
    exact rfl

/-- There is nothing left to throw away. -/
private theorem Assembling.discard_eq (h : Assembling outside root b g name grown)
    (stored : Stored) : discard (Path.join root name) (publish grown (b ++ [g.text]) stored)
      = publish grown (b ++ [g.text]) stored := by
  have hagrees := publish_agreesOff grown (b ++ [g.text]) stored
  have hreaches := (h.usable.reaches h.reaches fun x hx => hagrees x (h.outside x hx)).2
  have hresolve : (publish grown (b ++ [g.text]) stored).resolve (Path.join root name)
      = .ok (b ++ [name]) := (resolve_join_eq_ok_iff h.plain).2 ⟨h.admissible, b, hreaches, rfl⟩
  have hgone : (publish grown (b ++ [g.text]) stored).node? (b ++ [name]) = none :=
    (hagrees _ h.apart_self).trans (h.free [])
  have hremove : Yields (Disk.removeAll (Path.join root name))
      (publish grown (b ++ [g.text]) stored) (fun _ _ => False)
      fun _ after => after = publish grown (b ++ [g.text]) stored := by
    simp only [Disk.removeAll, yields_bind, yields_get, hresolve, yields_ofExcept_ok,
      requireDirectory, hgone]
    exact rfl
  unfold Yields at hremove
  unfold discard
  cases hresult : Disk.removeAll (Path.join root name) (publish grown (b ++ [g.text]) stored) with
  | ok a after =>
    rw [hresult] at hremove
    exact hremove.elim
  | error fault after =>
    rw [hresult] at hremove
    exact hremove

-- What these do is known from what they yield, so that they need not be looked into.
attribute [local irreducible] Disk.createAll EntityDirectory.write settle

/-- Below a root that can be used and has room for the names of the files, an entity that is written
step by step is put in its place, and nothing else is left behind. -/
theorem stage_eq_write (h : Usable outside root b disk)
    (houtside : ∀ x, outside x → ¬ b ++ [stored.manifest.guid.text] <+: x)
    (hroom : root.utf8ByteSize + 90 < 4096)
    (hmarked : Marked b stored.manifest.guid disk → contains disk root stored.manifest.guid)
    (hfresh : Fresh root b stored.manifest.guid suffix disk) :
    stage root suffix stored disk = write root stored disk := by
  have hsame {after : Disk}
      (hstage : Yields (stage root suffix stored) disk (fun _ last => last = after)
        fun _ _ => False)
      (hwrite : Yields (write root stored) disk (fun _ last => last = after) fun _ _ => False) :
      stage root suffix stored disk = write root stored disk := by
    obtain ⟨_, _, hstaged, rfl⟩ := hstage.exists_ok
    obtain ⟨_, _, hwritten, rfl⟩ := hwrite.exists_ok
    rw [hstaged, hwritten]
  cases hcontains : contains disk root stored.manifest.guid with
  | true =>
    refine hsame ?_ (write_of_contains hcontains)
    simp only [stage, yields_bind, yields_get, hcontains, if_true]
    exact rfl
  | false =>
    obtain ⟨_, grown, hcreate, hgrows, hreaches⟩ := h.createAll_yields.exists_ok
    have hunmarked : ¬ Marked b stored.manifest.guid grown := by
      rintro ⟨node, hnode, hfile⟩
      cases hgrows.node (b ++ [stored.manifest.guid.text, marker]) with
      | inl heq =>
        rw [hmarked ⟨node, heq ▸ hnode, hfile⟩] at hcontains
        cases hcontains
      | inr hmade =>
        rw [hmade.2.2, Option.some.injEq] at hnode
        exact hfile hnode.symm
    have hassembling : Assembling outside root b stored.manifest.guid
        (stagingName stored.manifest.guid ("-" ++ suffix)) grown :=
      ⟨h.grows hgrows, houtside, hreaches, hroom, hfresh.plain, hfresh.size_name,
        hfresh.free grown hcreate, hunmarked⟩
    obtain ⟨first, second, hmanifest, hrows, hmarker⟩ := hassembling.fills stored
    have hmake := makeDirectory_join hfresh.plain hassembling.admissible hreaches
      (hassembling.free [])
    have hgrown : Yields (createAll root) disk (fun _ after => after = grown) fun _ _ => False := by
      rw [Yields, hcreate]
    refine hsame ?_ (write_of_createAll h stored hcontains hcreate hgrows hreaches)
    simp only [stage, yields_bind, yields_get, hcontains, Bool.false_eq_true, if_false,
      yields_adaptExcept]
    apply hgrown.mono ?_ fun _ _ hfalse => hfalse
    rintro - _ rfl
    simp only [yields_step, yields_discarding, yields_bind, hmake, hmanifest, hrows, hmarker]
    apply (hassembling.settle_yields stored).mono ?_ fun _ _ hfalse => hfalse
    rintro - _ rfl
    exact hassembling.discard_eq stored

end EntityDirectory

end GraphVault
