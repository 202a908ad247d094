import GraphVault.Proofs.DirectoryContents
import GraphVault.Proofs.PathNames

/-!
# Making directories

Where only directories stand on the way that a path leads, the directories that are missing can be
made, and nothing else changes. The way counts, not the spelling: a path may go up and down, repeat
slashes and stay where it is.
-/

namespace GraphVault.Disk

open GraphVault.Path (Plain Admissible)

/-- What stands at an address, if anything, is a directory. -/
def Passable (disk : Disk) (address : Address) : Prop :=
  ∀ node, disk.node? address = some node → node = .directory

/-- A directory stands at an address. -/
def HasDirectory (disk : Disk) (address : Address) : Prop :=
  disk.node? address = some .directory

/-- All addresses on the way that parts lead from one address to another satisfy a condition. -/
inductive Way (p : Address → Prop) : Address → List String → Address → Prop where
  | done {a : Address} (h : p a) : Way p a [] a
  | enter {a next b : Address} {part : String} {parts : List String} (h : p a)
      (henter : Disk.enter a part = .ok next) (rest : Way p next parts b) : Way p a (part :: parts) b

variable {p q : Address → Prop} {a b c : Address} {disk after : Disk}

theorem Way.mono {parts : List String} (h : Way p a parts b) (hpq : ∀ x, p x → q x) :
    Way q a parts b := by
  induction h with
  | done h => exact .done (hpq _ h)
  | enter h henter _ ih => exact .enter (hpq _ h) henter ih

theorem Way.first {parts : List String} (h : Way p a parts b) : p a := by
  cases h with
  | done h => exact h
  | enter h => exact h

theorem Way.last {parts : List String} (h : Way p a parts b) : p b := by
  induction h with
  | done h => exact h
  | enter _ _ _ ih => exact ih

theorem Way.append {front back : List String} (hfront : Way p a front b) (hback : Way p b back c) :
    Way p a (front ++ back) c := by
  induction hfront with
  | done h => exact hback
  | enter h henter _ ih => exact .enter h henter (ih hback)

theorem Way.split {front back : List String} (h : Way p a (front ++ back) c) :
    ∃ b, Way p a front b ∧ Way p b back c := by
  induction front generalizing a with
  | nil => exact ⟨a, .done h.first, h⟩
  | cons part front ih =>
    cases h with
    | enter h henter rest =>
      obtain ⟨b, hfront, hback⟩ := ih rest
      exact ⟨b, .enter h henter hfront, hback⟩

theorem Way.walk_eq {parts : List String} (h : Way p a parts b) : walk a parts = .ok b := by
  induction h with
  | done h => rfl
  | enter h henter _ ih =>
    rw [walk, List.foldlM_cons, henter]
    exact ih

theorem Way.follow_eq {parts : List String} (h : Way disk.HasDirectory a parts b) :
    disk.follow a parts = .ok b := by
  induction h with
  | done h => rfl
  | enter h henter _ ih =>
    rw [follow, List.foldlM_cons, requireDirectory_eq_ok_iff.2 h]
    simp only [bind, Except.bind, henter]
    exact ih

private theorem way_of_follow {parts : List String} (hfollow : disk.follow a parts = .ok b)
    (hdirectory : disk.HasDirectory b) : Way disk.HasDirectory a parts b := by
  induction parts generalizing a with
  | nil =>
    cases hfollow
    exact .done hdirectory
  | cons part parts ih =>
    rw [follow, List.foldlM_cons, bind_eq_ok_iff] at hfollow
    obtain ⟨next, hnext, hrest⟩ := hfollow
    rw [check_bind_eq_ok_iff] at hnext
    exact .enter (requireDirectory_eq_ok_iff.1 hnext.1) hnext.2 (ih hrest)

/-- A root leads to a directory just if there are directories all the way. -/
theorem reaches_iff_way {root : String} :
    disk.Reaches root b ↔ Way disk.HasDirectory (origin root) (Path.segments root) b :=
  ⟨fun h => way_of_follow h.1 h.2, fun h => ⟨h.follow_eq, h.last⟩⟩

/-- Parts that stay where they are do not count. -/
def stays (part : String) : Bool := part = "" || part = "."

private theorem enter_stays {part : String} (h : stays part) (a : Address) :
    enter a part = .ok a := by
  have hstay : part = "" ∨ part = "." := by simpa [stays] using h
  rw [enter, if_pos hstay]

theorem way_filter_iff {parts : List String} :
    Way p a (parts.filter fun part => !stays part) b ↔ Way p a parts b := by
  induction parts generalizing a with
  | nil => exact Iff.rfl
  | cons part parts ih =>
    cases hstays : stays part with
    | true =>
      rw [List.filter_cons_of_neg (by simp [hstays]), ih]
      constructor
      · intro h
        exact .enter h.first (enter_stays hstays a) h
      · intro h
        cases h with
        | enter _ henter rest =>
          rw [enter_stays hstays, Except.ok.injEq] at henter
          rw [henter]
          exact rest
    | false =>
      rw [List.filter_cons_of_pos (by simp [hstays])]
      constructor
      · intro h
        cases h with
        | enter h henter rest => exact .enter h henter (ih.1 rest)
      · intro h
        cases h with
        | enter h henter rest => exact .enter h henter (ih.2 rest)

/-- A way on which only directories stand is clear, or something is missing on it. -/
theorem Way.clear_or_missing {parts : List String} (h : Way disk.Passable a parts b) :
    Way disk.HasDirectory a parts b ∨
      disk.follow a parts >>= disk.requireDirectory = .error .notFound := by
  induction h with
  | done h =>
    rename_i a
    cases hnode : disk.node? a with
    | none =>
      apply Or.inr
      simp [follow, requireDirectory, hnode, bind, Except.bind, pure, Except.pure]
    | some node =>
      rw [h node hnode] at hnode
      exact .inl (.done hnode)
  | enter h henter rest ih =>
    rename_i a next b part parts
    cases hnode : disk.node? a with
    | none =>
      apply Or.inr
      have hrequire : disk.requireDirectory a = .error .notFound := by
        simp [requireDirectory, hnode]
      rw [follow, List.foldlM_cons, hrequire]
      rfl
    | some node =>
      rw [h node hnode] at hnode
      cases ih with
      | inl hclear => exact .inl (.enter hnode henter hclear)
      | inr hmissing =>
        apply Or.inr
        rw [follow, List.foldlM_cons, requireDirectory_eq_ok_iff.2 hnode]
        simp only [bind, Except.bind, henter] at hmissing ⊢
        exact hmissing

/-- Directories stand at an address and above it. -/
private def Grounded (disk : Disk) (address : Address) : Prop :=
  ∀ k, disk.HasDirectory (address.take k)

private theorem isPermanent_take (h : isPermanent a) (k : Nat) : isPermanent (a.take k) := by
  simp only [isPermanent, Bool.or_eq_true, decide_eq_true_eq, List.all_eq_true] at h ⊢
  cases h with
  | inl hroot =>
    subst hroot
    cases k with
    | zero =>
      apply Or.inr
      intro part hpart
      cases hpart
    | succ k => exact .inl (by simp [root])
  | inr hparents => exact .inr fun part hpart => hparents part (List.mem_of_mem_take hpart)

private theorem isPermanent_above (h : isPermanent a) : isPermanent (above a) := by
  by_cases hroot : a = root
  · rw [above, if_pos hroot]
    rfl
  · rw [above, if_neg hroot, if_pos h]
    have hparents : a.all (· = parent) := by simpa [isPermanent, hroot] using h
    rw [isPermanent, List.all_append, hparents]
    simp

private theorem Grounded.of_permanent (h : isPermanent a) : Grounded disk a :=
  fun k => node?_of_permanent (isPermanent_take h k)

private theorem Grounded.above (h : Grounded disk a) : Grounded disk (above a) := by
  by_cases hpermanent : isPermanent a
  · exact .of_permanent (isPermanent_above hpermanent)
  · have hroot : a ≠ root := by
      intro heq
      subst heq
      exact hpermanent rfl
    rw [Disk.above, if_neg hroot, if_neg hpermanent]
    intro k
    rw [List.dropLast_eq_take, List.take_take]
    exact h _

private theorem Grounded.enter {part : String} (h : Grounded disk a)
    (henter : Disk.enter a part = .ok b) (hb : disk.HasDirectory b) : Grounded disk b := by
  unfold Disk.enter at henter
  split at henter
  · cases henter
    exact h
  · split at henter
    · cases henter
      exact h.above
    · split at henter
      · cases henter
      · cases henter
        intro k
        by_cases hk : k ≤ a.length
        · rw [List.take_append_of_le_length hk]
          exact h k
        · rw [List.take_of_length_le (by simp; omega)]
          exact hb

private theorem Way.grounded {parts : List String} (h : Way disk.HasDirectory a parts b)
    (ha : Grounded disk a) : Grounded disk b := by
  induction h with
  | done h => exact ha
  | enter h henter rest ih => exact ih (ha.enter henter rest.first)

/-- Going up leads to a directory, as it leads back along the way or out of what is stored. -/
theorem Way.hasDirectory_above {parts : List String} (h : Way disk.HasDirectory a parts b)
    (ha : isPermanent a) : disk.HasDirectory (above b) := by
  have habove := (h.grounded (.of_permanent ha)).above (above b).length
  rw [List.take_length] at habove
  exact habove

theorem isPermanent_origin (path : String) : isPermanent (origin path) := by
  unfold origin
  split <;> rfl

/-! ### One directory -/

variable {allowed : Address → Prop}

theorem Passable.grows (h : disk.Passable a) (hgrows : Grows allowed disk after) :
    after.Passable a := by
  intro node hnode
  rcases hgrows.node a with heq | ⟨-, -, hdirectory⟩
  · rw [heq] at hnode
    exact h node hnode
  · rw [hdirectory] at hnode
    exact (Option.some.inj hnode).symm

theorem HasDirectory.grows (h : disk.HasDirectory a) (hgrows : Grows allowed disk after) :
    after.HasDirectory a := hgrows.node_eq h

/-- The last part of a path that is not empty, with what comes in front of it. -/
structure Ends (path : String) (front : List String) (last : String) : Prop where
  ne_empty : last ≠ ""
  segments : ∃ blanks : List String, (∀ part ∈ blanks, part = "") ∧
    Path.segments path = front ++ last :: blanks

private theorem way_blanks {blanks : List String} (h : ∀ part ∈ blanks, part = "") (hb : p b) :
    Way p b blanks b := by
  induction blanks with
  | nil => exact .done hb
  | cons part blanks ih =>
    have hpart : part = "" := h part List.mem_cons_self
    have hrest := ih fun other hother => h other (List.mem_cons_of_mem _ hother)
    exact .enter hb (by rw [hpart, enter_empty]) hrest

private theorem eq_of_way_blanks {blanks : List String} (h : ∀ part ∈ blanks, part = "")
    (hway : Way p b blanks c) : c = b := by
  have hstay := (@way_blanks (fun _ => True) b _ h trivial).walk_eq
  rw [hway.walk_eq, Except.ok.injEq] at hstay
  exact hstay

variable {path last : String} {front : List String}

theorem Ends.path_ne_empty (h : Ends path front last) : path ≠ "" := by
  intro hempty
  obtain ⟨blanks, -, hsegments⟩ := h.segments
  have hlast : last ∈ Path.segments "" := by
    rw [← hempty, hsegments]
    exact List.mem_append_right _ List.mem_cons_self
  exact h.ne_empty (List.mem_singleton.1 hlast)

theorem Ends.way_iff (h : Ends path front last) :
    Way p a (Path.segments path) b ↔
      ∃ c, Way p a front c ∧ Disk.enter c last = .ok b ∧ p b := by
  obtain ⟨blanks, hblanks, hsegments⟩ := h.segments
  rw [hsegments]
  constructor
  · intro hway
    obtain ⟨c, hfront, hback⟩ := hway.split
    cases hback with
    | enter hc henter rest =>
      have heq := eq_of_way_blanks hblanks rest
      subst heq
      exact ⟨c, hfront, henter, rest.last⟩
  · rintro ⟨c, hfront, henter, hb⟩
    exact hfront.append (.enter hfront.last henter (way_blanks hblanks hb))

private theorem Ends.locate_eq (h : Ends path front last) (hadmissible : Admissible path) :
    disk.locate path = disk.follow (origin path) front >>= fun c =>
      disk.requireDirectory c >>= fun _ => .ok (c, some last) := by
  obtain ⟨blanks, hblanks, hsegments⟩ := h.segments
  have hparts : parts path = .ok (origin path, Path.segments path) :=
    parts_eq_ok_iff.2 ⟨hadmissible, rfl⟩
  have hdrop : (Path.segments path).reverse.dropWhile (·.isEmpty) = last :: front.reverse := by
    have hempty : ∀ part ∈ blanks.reverse, part.isEmpty := by
      intro part hpart
      rw [hblanks part (List.mem_reverse.1 hpart)]
      rfl
    have hlast : last.isEmpty = false := by simpa using h.ne_empty
    rw [hsegments, List.reverse_append, List.reverse_cons, List.append_assoc,
      List.dropWhile_append_of_pos hempty, List.singleton_append,
      List.dropWhile_cons_of_neg (by simp [hlast])]
  rw [locate, hparts]
  simp only [bind, Except.bind, hdrop, List.reverse_reverse]
  rfl

/-- Making a directory works unless it is there. -/
private theorem Ends.makeDirectory_eq (h : Ends path front last) (hadmissible : Admissible path)
    (hfront : Way disk.HasDirectory (origin path) front c) (henter : Disk.enter c last = .ok b)
    (hb : disk.Passable b) :
    disk.makeDirectory path = .error .taken ∧ disk.HasDirectory b ∨
      disk.makeDirectory path = .ok (disk.put b .directory) ∧ disk.node? b = none := by
  have hlocate : disk.locate path = .ok (c, some last) := by
    rw [h.locate_eq hadmissible, hfront.follow_eq]
    simp only [bind, Except.bind, requireDirectory_eq_ok_iff.2 hfront.last]
  rw [makeDirectory, hlocate]
  simp only [bind, Except.bind]
  split
  · rename_i heq
    cases heq
  · rename_i heq
    cases heq
    rw [enter_stays rfl, Except.ok.injEq] at henter
    subst henter
    exact .inl ⟨rfl, hfront.last⟩
  · rename_i heq
    cases heq
    have habove := hfront.hasDirectory_above (isPermanent_origin path)
    have heq : Disk.enter c ".." = .ok (above c) := rfl
    rw [heq, Except.ok.injEq] at henter
    subst henter
    exact .inl ⟨rfl, habove⟩
  · rename_i heq
    cases heq
    rw [henter]
    dsimp only
    cases hnode : disk.node? b with
    | none => exact .inr ⟨rfl, rfl⟩
    | some node =>
      rw [hb node hnode] at hnode
      exact .inl ⟨rfl, hnode⟩

private theorem isDirectory_of_way (hadmissible : Admissible path)
    (hway : Way disk.HasDirectory (origin path) (Path.segments path) b) :
    disk.isDirectory path := by
  have hparts : parts path = .ok (origin path, Path.segments path) :=
    parts_eq_ok_iff.2 ⟨hadmissible, rfl⟩
  have hb : disk.node? b = some .directory := hway.last
  have hfind : disk.find path = .ok .directory := by
    rw [find, resolve, hparts]
    simp only [bind, Except.bind, hway.follow_eq, hb]
    rfl
  rw [isDirectory, hfind]

private theorem Ends.ensureDirectory_yields (h : Ends path front last)
    (hadmissible : Admissible path) (hfront : Way disk.HasDirectory (origin path) front c)
    (henter : Disk.enter c last = .ok b) (hb : disk.Passable b) (hallowed : allowed b) :
    Yields (ensureDirectory path) disk
      (fun _ after => Grows allowed disk after ∧
        Way after.HasDirectory (origin path) (Path.segments path) b)
      fun _ _ => False := by
  simp only [ensureDirectory, yields_bind, yields_get]
  cases h.makeDirectory_eq hadmissible hfront henter hb with
  | inl htaken =>
    have hway := h.way_iff.2 ⟨c, hfront, henter, htaken.2⟩
    have hdirectory := isDirectory_of_way hadmissible hway
    rw [htaken.1]
    simp only [yields_bind, yields_get, hdirectory]
    exact ⟨Std.Refl.refl disk, hway⟩
  | inr hmade =>
    have hgrows : Grows allowed disk (disk.put b .directory) := grows_put hallowed hmade.2
    have hself : (disk.put b .directory).HasDirectory b := by
      cases hgrows.node b with
      | inl heq =>
        have hpermanent : isPermanent b = false := by
          cases hp : isPermanent b with
          | false => rfl
          | true => simp [node?, hp] at hmade
        exact node?_put_self disk _ hpermanent
      | inr hnew => exact hnew.2.2
    rw [hmade.1]
    exact ⟨hgrows, h.way_iff.2 ⟨c, hfront.mono fun _ hx => hx.grows hgrows, henter, hself⟩⟩

/-- A directory is made once the way to it is clear, for which something is made above it only where
it is missing. -/
private theorem Ends.createBelow_yields (h : Ends path front last) (hadmissible : Admissible path)
    {createAbove : Steps Unit} (hway : Way disk.Passable (origin path) front c)
    (henter : Disk.enter c last = .ok b) (hb : disk.Passable b) (hallowed : allowed b)
    (habove : Yields createAbove disk
      (fun _ after => Grows allowed disk after ∧ Way after.HasDirectory (origin path) front c)
      fun _ _ => False) :
    Yields (createBelow createAbove path) disk
      (fun _ after => Grows allowed disk after ∧
        Way after.HasDirectory (origin path) (Path.segments path) b)
      fun _ _ => False := by
  simp only [createBelow, yields_bind, yields_get]
  cases hway.clear_or_missing with
  | inl hclear =>
    have hmake := h.makeDirectory_eq hadmissible hclear henter hb
    have hensure := h.ensureDirectory_yields hadmissible hclear henter hb hallowed
    split
    · rename_i hmissing
      rw [hmissing] at hmake
      simp at hmake
    · exact hensure
  | inr hmissing =>
    have hmake : disk.makeDirectory path = .error .notFound := by
      rw [makeDirectory, h.locate_eq hadmissible]
      cases hfollow : disk.follow (origin path) front with
      | error fault =>
        rw [hfollow] at hmissing
        cases hmissing
        rfl
      | ok x =>
        rw [hfollow] at hmissing
        simp only [bind, Except.bind] at hmissing ⊢
        rw [hmissing]
    rw [hmake]
    simp only [yields_bind]
    refine habove.mono (fun _ grown hgrown => ?_) fun _ _ hfalse => hfalse
    have hensure := h.ensureDirectory_yields hadmissible hgrown.2 henter (hb.grows hgrown.1) hallowed
    refine hensure.mono (fun _ made hmade => ?_) fun _ _ hfalse => hfalse
    exact ⟨Trans.trans hgrown.1 hmade.1, hmade.2⟩

/-! ### All directories on a way -/

/-- Names of which a path can be put together. -/
private def Names (names : List String) : Prop :=
  ∀ name ∈ names, '/' ∉ name.toList ∧ '\x00' ∉ name.toList ∧ name ≠ "" ∧ name ≠ "."

/-- Where a path starts that is absolute or not. -/
private def start (absolute : Bool) : Address := if absolute then root else workingDirectory

private theorem origin_ofNames (absolute : Bool) {names : List String} (h : Names names) :
    origin (Path.ofNames absolute names) = start absolute := by
  have habsolute := Path.isAbsolute_ofNames absolute
    fun name hname => ⟨(h name hname).1, (h name hname).2.2.1⟩
  rw [origin, habsolute, start]

private theorem way_segments_ofNames (absolute : Bool) {names : List String} (h : Names names) :
    Way p a (Path.segments (Path.ofNames absolute names)) b ↔ Way p a names b := by
  have hfilter : names.filter (fun part => !stays part) = names := by
    rw [List.filter_eq_self]
    intro name hname
    have hne := (h name hname).2.2
    simp [stays, hne.1, hne.2]
  by_cases hnil : names = []
  · subst hnil
    cases absolute with
    | false => exact way_filter_iff.symm.trans (by rw [← way_filter_iff]; exact Iff.rfl)
    | true => exact way_filter_iff.symm.trans (by rw [← way_filter_iff]; exact Iff.rfl)
  · have hsegments := Path.segments_ofNames absolute hnil fun name hname =>
      (h name hname).1
    rw [hsegments, ← way_filter_iff]
    cases absolute with
    | false => rw [if_neg (by decide), hfilter]
    | true =>
      rw [if_pos rfl, List.filter_cons_of_neg (by decide), hfilter]

private theorem createNames_yields {absolute : Bool} {names : List String}
    (hnames : Names names.reverse)
    (hshort : (Path.ofNames absolute names.reverse).utf8ByteSize < 4096)
    (hway : Way (fun x => allowed x ∧ disk.Passable x) (start absolute) names.reverse b) :
    Yields (createNames absolute names) disk
      (fun _ after => Grows allowed disk after ∧
        Way after.HasDirectory (start absolute) names.reverse b)
      fun _ _ => False := by
  induction names generalizing b with
  | nil =>
    cases hway with
    | done h =>
      have hstart : isPermanent (start absolute) := by
        unfold start
        split <;> rfl
      exact ⟨Std.Refl.refl disk, .done (node?_of_permanent hstart)⟩
  | cons name above ih =>
    rw [List.reverse_cons] at hnames hshort hway ⊢
    obtain ⟨c, hfront, hlast⟩ := hway.split
    cases hlast with
    | enter _ henter rest =>
      cases rest with
      | done hb =>
        have habove : Names above.reverse := fun other hother =>
          hnames other (List.mem_append_left _ hother)
        have hname := hnames name (List.mem_append_right _ (List.mem_singleton.2 rfl))
        have hpath := origin_ofNames absolute hnames
        have hends : Ends (Path.ofNames absolute (above.reverse ++ [name]))
            ((if absolute then [""] else []) ++ above.reverse) name := by
          refine ⟨hname.2.2.1, [], by simp, ?_⟩
          rw [Path.segments_ofNames absolute (by simp) fun other hother => (hnames other hother).1]
          cases absolute <;> rfl
        have hclear (p : Address → Prop) : Way p (start absolute)
            ((if absolute then [""] else []) ++ above.reverse) c ↔
              Way p (start absolute) above.reverse c := by
          rw [← way_filter_iff, List.filter_append, ← @way_filter_iff p _ _ above.reverse]
          cases absolute <;> exact Iff.rfl
        have hnull := Path.null_not_mem_ofNames absolute fun other hother =>
          (hnames other hother).2.1
        have hadmissible : Admissible (Path.ofNames absolute (above.reverse ++ [name])) :=
          ⟨hnull, hends.path_ne_empty, hshort⟩
        have hsize := Path.size_ofNames_append absolute above.reverse name
        have hyields := ih habove (Nat.lt_of_le_of_lt hsize hshort) hfront
        have hmake := hends.createBelow_yields hadmissible
          (by rw [hpath]; exact (hclear _).2 (hfront.mono fun _ hx => hx.2)) henter hb.2 hb.1
          (hyields.mono (fun _ after hafter => ⟨hafter.1, by rw [hpath]; exact (hclear _).2 hafter.2⟩)
            fun _ _ hfalse => hfalse)
        rw [createNames, List.reverse_cons]
        refine hmake.mono (fun _ after hafter => ⟨hafter.1, ?_⟩) fun _ _ hfalse => hfalse
        rw [hpath] at hafter
        exact (way_segments_ofNames absolute hnames).1 hafter.2

theorem names_filter (path : String) :
    Path.names path = (Path.segments path).filter fun part => !stays part := by
  unfold Path.names stays
  congr 1
  funext part
  simp

private theorem last_or_blank (parts : List String) :
    (∃ front last blanks, last ≠ "" ∧ (∀ part ∈ blanks, part = "") ∧
      parts = front ++ last :: blanks) ∨ ∀ part ∈ parts, part = "" := by
  induction parts with
  | nil => exact .inr (by simp)
  | cons part parts ih =>
    cases ih with
    | inl hlast =>
      obtain ⟨front, last, blanks, hne, hblanks, rfl⟩ := hlast
      exact .inl ⟨part :: front, last, blanks, hne, hblanks, rfl⟩
    | inr hblank =>
      by_cases hpart : part = ""
      · apply Or.inr
        intro other hother
        cases List.mem_cons.1 hother with
        | inl heq => rw [heq, hpart]
        | inr hmem => exact hblank other hmem
      · exact .inl ⟨[], part, parts, hpart, hblank, rfl⟩

/-- A path has a last part that is not empty, or it consists of slashes. -/
private theorem ends_or_blank (path : String) :
    (∃ front last, Ends path front last) ∨ ∀ part ∈ Path.segments path, part = "" := by
  cases last_or_blank (Path.segments path) with
  | inl hlast =>
    obtain ⟨front, last, blanks, hne, hblanks, hsegments⟩ := hlast
    exact .inl ⟨front, last, hne, blanks, hblanks, hsegments⟩
  | inr hblank => exact .inr hblank

private theorem Ends.names_eq (h : Ends path front last) :
    Path.names path = front.filter (fun part => !stays part) ++
      if last = "." then [] else [last] := by
  obtain ⟨blanks, hblanks, hsegments⟩ := h.segments
  have hnone : blanks.filter (fun part => !stays part) = [] := by
    rw [List.filter_eq_nil_iff]
    intro part hpart
    simp [stays, hblanks part hpart]
  rw [names_filter, hsegments, List.filter_append]
  by_cases hdot : last = "."
  · rw [List.filter_cons_of_neg (by simp [stays, hdot]), hnone, if_pos hdot]
  · rw [List.filter_cons_of_pos (by simp [stays, hdot, h.ne_empty]), hnone, if_neg hdot]

private theorem names_of_sublist (hnull : '\x00' ∉ path.toList) {some : List String}
    (h : some.Sublist (Path.names path)) : Names some := by
  intro name hname
  obtain ⟨hsegment, hempty, hdot⟩ := Path.mem_names.1 (h.subset hname)
  obtain ⟨hslash, hchars⟩ := Path.mem_segments hsegment
  exact ⟨hslash, fun hmem => hnull (hchars _ hmem), hempty, hdot⟩

/-- The directories through some names of a path are made where they are missing. -/
private theorem createNames_of_sublist (hadmissible : Admissible path) {some : List String}
    (h : some.Sublist (Path.names path))
    (hway : Way (fun x => allowed x ∧ disk.Passable x) (origin path) some b) :
    Yields (createNames (Path.isAbsolute path) some.reverse) disk
      (fun _ after => Grows allowed disk after ∧ Way after.HasDirectory (origin path) some b)
      fun _ _ => False := by
  have hnames := names_of_sublist hadmissible.no_null h
  have hshort := Nat.lt_of_le_of_lt (Path.size_ofNames_le h) hadmissible.short
  rw [← List.reverse_reverse some] at hnames hshort hway
  have hyields := createNames_yields hnames hshort hway
  rw [List.reverse_reverse] at hyields
  exact hyields

private theorem Ends.createAll_yields (h : Ends path front last) (hadmissible : Admissible path)
    (hway : Way (fun x => allowed x ∧ disk.Passable x) (origin path) (Path.segments path) b)
    (hdot : last = "." → disk.HasDirectory b) :
    Yields (createAll path) disk
      (fun _ after => Grows allowed disk after ∧
        Way after.HasDirectory (origin path) (Path.segments path) b)
      fun _ _ => False := by
  obtain ⟨c, hfront, henter, hb⟩ := h.way_iff.1 hway
  have hnames := h.names_eq
  have habove : Yields (createNames (Path.isAbsolute path) (Path.names path).dropLast.reverse) disk
      (fun _ after => Grows allowed disk after ∧ Way after.HasDirectory (origin path) front c)
      fun _ _ => False := by
    have hsublist : (Path.names path).dropLast.Sublist (Path.names path) := List.dropLast_sublist _
    have hclear := way_filter_iff.2 hfront
    by_cases hlast : last = "."
    · -- the directory itself is there, so that making what is above it is enough
      have hdirectory := hdot hlast
      rw [hlast, enter_stays rfl, Except.ok.injEq] at henter
      subst henter
      rw [if_pos hlast, List.append_nil] at hnames
      rw [← hnames] at hclear
      cases List.eq_nil_or_concat (Path.names path) with
      | inl hnil =>
        rw [hnil] at hclear ⊢
        have hstay : Way disk.HasDirectory (origin path) front c := by
          rw [← way_filter_iff, ← hnames, hnil]
          cases hclear with
          | done _ => exact .done hdirectory
        exact ⟨Std.Refl.refl disk, hstay⟩
      | inr hconcat =>
        obtain ⟨above, name, heq⟩ := hconcat
        rw [List.concat_eq_append] at heq
        rw [heq] at hclear
        obtain ⟨d, habove, hname⟩ := hclear.split
        rw [heq, List.dropLast_concat]
        have hsub : above.Sublist (Path.names path) := by
          rw [heq]
          exact List.sublist_append_left _ _
        have hyields := createNames_of_sublist hadmissible hsub habove
        refine hyields.mono (fun _ after hafter => ⟨hafter.1, way_filter_iff.1 ?_⟩)
          fun _ _ hfalse => hfalse
        rw [← hnames, heq]
        cases hname with
        | enter _ henter rest =>
          cases rest with
          | done _ =>
            exact hafter.2.append (.enter hafter.2.last henter (.done (hdirectory.grows hafter.1)))
    · rw [if_neg hlast] at hnames
      have hdrop : (Path.names path).dropLast = front.filter fun part => !stays part := by
        rw [hnames, List.dropLast_concat]
      rw [hdrop] at hsublist ⊢
      have hyields := createNames_of_sublist hadmissible hsublist hclear
      exact hyields.mono (fun _ after hafter => ⟨hafter.1, way_filter_iff.1 hafter.2⟩)
        fun _ _ hfalse => hfalse
  rw [createAll, if_neg h.path_ne_empty]
  exact h.createBelow_yields hadmissible (hfront.mono fun _ hx => hx.2) henter hb.2 hb.1 habove

/-- The directories of a path are made where they are missing. A path that ends in a directory by
way of that directory itself needs it to be there. -/
theorem createAll_yields (hpath : path = "" ∨ Admissible path)
    (hway : Way (fun x => allowed x ∧ disk.Passable x) (origin path) (Path.segments path) b)
    (hdot : ∀ front, Ends path front "." → disk.HasDirectory b) :
    Yields (createAll path) disk
      (fun _ after => Grows allowed disk after ∧
        Way after.HasDirectory (origin path) (Path.segments path) b)
      fun _ _ => False := by
  have horigin : disk.HasDirectory (origin path) := node?_of_permanent (isPermanent_origin path)
  cases ends_or_blank path with
  | inl hends =>
    obtain ⟨front, last, hends⟩ := hends
    cases hpath with
    | inl hempty => exact absurd hempty hends.path_ne_empty
    | inr hadmissible =>
      refine hends.createAll_yields hadmissible hway fun hlast => hdot front ?_
      rw [← hlast]
      exact hends
  | inr hblank =>
    have hsame := eq_of_way_blanks hblank hway
    have hdirectories : Way disk.HasDirectory (origin path) (Path.segments path) b := by
      rw [hsame]
      exact way_blanks hblank horigin
    cases hpath with
    | inl hempty =>
      rw [createAll, if_pos hempty]
      exact ⟨Std.Refl.refl disk, hdirectories⟩
    | inr hadmissible =>
      have hmake : disk.makeDirectory path = .error .taken := by
        have hparts : parts path = .ok (origin path, Path.segments path) :=
          parts_eq_ok_iff.2 ⟨hadmissible, rfl⟩
        have hdrop : (Path.segments path).reverse.dropWhile (·.isEmpty) = [] := by
          have hempty : ∀ part ∈ (Path.segments path).reverse, part.isEmpty := by
            intro part hpart
            rw [hblank part (List.mem_reverse.1 hpart)]
            rfl
          rw [← List.append_nil (Path.segments path).reverse, List.dropWhile_append_of_pos hempty]
          rfl
        have hlocate : disk.locate path = .ok (origin path, none) := by
          rw [locate, hparts]
          simp only [bind, Except.bind, hdrop]
          rfl
        rw [makeDirectory, hlocate]
        rfl
      have hdirectory := isDirectory_of_way hadmissible hdirectories
      rw [createAll, if_neg hadmissible.ne_empty]
      simp only [createBelow, ensureDirectory, yields_bind, yields_get, hmake, hdirectory]
      exact ⟨Std.Refl.refl disk, hdirectories⟩

/-- The path through the names of a path leads where the path leads. -/
theorem way_ofNames_iff (hnull : '\x00' ∉ path.toList) :
    Way p (origin (Path.ofNames (Path.isAbsolute path) (Path.names path)))
        (Path.segments (Path.ofNames (Path.isAbsolute path) (Path.names path))) b ↔
      Way p (origin path) (Path.segments path) b := by
  have hnames := names_of_sublist hnull (List.Sublist.refl (Path.names path))
  rw [way_segments_ofNames _ hnames, origin_ofNames _ hnames, names_filter, way_filter_iff]
  rfl

/-- The path through the names of a path does not end in a directory by way of itself. -/
theorem not_ends_ofNames (absolute : Bool) {path : String} (hnull : '\x00' ∉ path.toList) :
    ¬ Ends (Path.ofNames absolute (Path.names path)) front "." := by
  intro hends
  have hnames := names_of_sublist hnull (List.Sublist.refl (Path.names path))
  obtain ⟨blanks, -, hsegments⟩ := hends.segments
  have hdot : "." ∈ Path.segments (Path.ofNames absolute (Path.names path)) := by
    rw [hsegments]
    exact List.mem_append_right _ List.mem_cons_self
  by_cases hnil : Path.names path = []
  · rw [hnil] at hdot
    cases absolute with
    | false => exact absurd hdot (by decide)
    | true => exact absurd hdot (by decide)
  · rw [Path.segments_ofNames absolute hnil fun name hname => (hnames name hname).1] at hdot
    have hmem : "." ∈ Path.names path := by
      cases absolute with
      | false => exact hdot
      | true =>
        cases List.mem_cons.1 hdot with
        | inl heq => exact absurd heq (by decide)
        | inr hmem => exact hmem
    exact (hnames "." hmem).2.2.2 rfl

end GraphVault.Disk
