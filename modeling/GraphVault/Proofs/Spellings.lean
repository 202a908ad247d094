import GraphVault.Proofs.References
import GraphVault.Proofs.WriteOnce
import Mathlib.Data.List.Perm.Subperm

/-!
# Names of entity directories

A guid is named by its 64 digits in lowercase, and every text that differs from them in the case of
its letters is read as the guid, too. A directory of entities lists a complete entity once for every
name in it that is read as its guid (`EntityDirectory.list_spellings`): what is listed is what is
there, but once each only where no other name spells the guid of a complete entity.
-/

namespace GraphVault

/-! ### Digits of either case -/

namespace Hex

variable {c : Char} {n : Nat} {chars : List Char} {bytes : Bytes}

/-- What holds of all characters below 128 can be checked one by one. -/
private theorem forall_ascii {p : Char → Prop} (h : ∀ n < 128, p (Char.ofNat n))
    (hascii : c.toNat < 128) : p c := by
  rw [← Char.ofNat_toNat c]
  exact h c.toNat hascii

theorem value?_toLower (c : Char) : value? c.toLower = value? c := by
  by_cases hascii : c.toNat < 128
  · exact @forall_ascii c (fun c => value? c.toLower = value? c) (by decide) hascii
  · have hnone : ¬ (c.val ≥ 'A'.val ∧ c.val ≤ 'Z'.val) := by
      rintro ⟨-, hle⟩
      have hle : c.toNat ≤ 90 := UInt32.le_iff_toNat_le.1 hle
      omega
    exact congrArg value? (dif_neg hnone)

theorem toLower_of_value? (h : value? c = some n) : c.toLower = digit n := by
  have hascii : c.toNat < 128 := by
    by_contra hlarge
    have hnone : value? c = none := by
      simp only [value?]
      rw [if_neg (by omega), if_neg (by omega), if_neg (by omega)]
    rw [hnone] at h
    cases h
  exact @forall_ascii c (fun c => ∀ n ∈ value? c, c.toLower = digit n) (by decide) hascii n h

theorem decode_toLower (chars : List Char) : decode (chars.map Char.toLower) = decode chars := by
  induction chars using decode.induct with
  | case1 => rfl
  | case2 => rfl
  | case3 high low rest ih =>
    simp only [List.map_cons, decode, value?_toLower]
    rw [ih]

private theorem half_eq {high low : Nat} (hhigh : high < 16) (hlow : low < 16) :
    (UInt8.ofNat (16 * high + low)).toNat / 16 = high ∧
      (UInt8.ofNat (16 * high + low)).toNat % 16 = low := by
  rw [UInt8.toNat_ofNat']
  omega

private theorem lt_of_value? (h : value? c = some n) : n < 16 := by
  simp only [value?] at h
  split_ifs at h <;> cases h <;> omega

theorem encode_of_decode (h : decode chars = some bytes) :
    chars.map Char.toLower = encode bytes := by
  induction chars using decode.induct generalizing bytes with
  | case1 =>
    cases h
    rfl
  | case2 => cases h
  | case3 first second rest ih =>
    simp only [decode, Option.bind_eq_bind, Option.bind_eq_some_iff] at h
    obtain ⟨high, hhigh, low, hlow, more, hmore, hbytes⟩ := h
    obtain rfl := Option.some.inj hbytes
    obtain ⟨hfirst, hsecond⟩ := half_eq (lt_of_value? hhigh) (lt_of_value? hlow)
    rw [List.map_cons, List.map_cons, encode, hfirst, hsecond, toLower_of_value? hhigh,
      toLower_of_value? hlow, ih hmore]

/-- What is read are the digits of the bytes, in either case. -/
theorem decode_eq_some_iff : decode chars = some bytes ↔ chars.map Char.toLower = encode bytes := by
  refine ⟨encode_of_decode, fun h => ?_⟩
  rw [← decode_toLower, h, decode_encode]

end Hex

/-- A text is read as the guid that it names in lowercase. -/
theorem Guid.parse?_eq_some_iff {name : String} {g : Guid} :
    parse? name = some g ↔ name.toLower = g.text := by
  have hlower : name.toLower = g.text ↔ name.toList.map Char.toLower = Hex.encode g.bytes := by
    have hmap : name.toLower.toList = name.toList.map Char.toLower := String.toList_map
    rw [← String.toList_inj, hmap, text, String.toList_ofList]
  rw [hlower, ← Hex.decode_eq_some_iff, parse?, Option.bind_eq_bind, Option.bind_eq_some_iff]
  constructor
  · rintro ⟨bytes, hbytes, hlength⟩
    rw [ofBytes?, Option.dite_none_right_eq_some] at hlength
    obtain ⟨_, hg⟩ := hlength
    rw [hbytes, ← Option.some.inj hg]
  · intro hbytes
    exact ⟨g.bytes, hbytes, by rw [ofBytes?, dif_pos g.length_bytes]⟩

namespace EntityDirectory

open Disk
open GraphVault.Path (Admissible)

variable {disk : Disk} {root name : String} {g : Guid}

/-! ### Names in a directory -/

/-- The names in a directory, none where there is no directory. -/
def entries (disk : Disk) (root : String) : List String := (disk.names root).toOption.getD []

/-- The names in a directory that are those of an entity but for the case of their letters. -/
def spellings (disk : Disk) (root : String) (g : Guid) : List String :=
  (entries disk root).filter fun name => name.toLower = g.text

theorem mem_spellings_iff :
    name ∈ spellings disk root g ↔ name ∈ entries disk root ∧ name.toLower = g.text := by
  rw [spellings, List.mem_filter, decide_eq_true_iff]

theorem list_eq_entries (disk : Disk) (root : String) : list disk root =
    (((entries disk root).filterMap Guid.parse?).filter (contains disk root)).mergeSort
      fun a b => (compare a b).isLE := by
  rw [list, entries]
  cases disk.names root with
  | error fault => exact List.mergeSort_nil.symm
  | ok names => rfl

/-- No two entries of a directory have the same name. -/
theorem nodup_entries (disk : Disk) (root : String) : (entries disk root).Nodup := by
  rw [entries]
  cases hnames : disk.names root with
  | error fault => exact List.nodup_nil
  | ok names =>
    obtain ⟨-, b, -, rfl⟩ := names_eq_ok_iff.1 hnames
    refine List.Nodup.filterMap (fun a a' name ha ha' => ?_) disk.nodes.nodup_keys
    exact (name_eq_some_iff.1 ha).trans (name_eq_some_iff.1 ha').symm

/-- The root without a name has no entries. -/
theorem named_of_mem_spellings (h : name ∈ spellings disk root g) : root ≠ "" := by
  have hname := (mem_spellings_iff.1 h).1
  rw [entries] at hname
  cases hnames : disk.names root with
  | error fault =>
    rw [hnames] at hname
    cases hname
  | ok names => exact (names_eq_ok_iff.1 hnames).1.ne_empty

/-- A root is a path that the file system looks at if a file below it is. -/
theorem admissible_of_contains (hcontains : contains disk root g) (hroot : root ≠ "") :
    Admissible root := by
  obtain ⟨hnull, hshort⟩ := (Path.admissible_join_iff plain_marker).1 (contains_iff.1 hcontains).1
  have hpath := Path.size_le_frontSize (path root g)
  have hfront := Path.size_le_frontSize root
  rw [path] at hnull hpath hshort
  rw [Path.size_join g.plain_text] at hpath
  exact ⟨fun hmem => hnull ((Path.null_mem_join_iff g.plain_text root).2 hmem), hroot, by omega⟩

/-- A complete entity has its directory among the entries of its root. -/
theorem text_mem_entries (hcontains : contains disk root g) (hroot : root ≠ "") :
    g.text ∈ entries disk root := by
  obtain ⟨-, b, hreaches, hdirectory, -⟩ := contains_iff.1 hcontains
  have hadmissible := admissible_of_contains hcontains hroot
  rw [entries, names_eq_ok_iff.2 ⟨hadmissible, b, hreaches, rfl⟩]
  refine List.mem_filterMap.2 ⟨b ++ [g.text], ?_, name_eq_some_iff.2 rfl⟩
  exact mem_keys_of_node? (isPermanent_text b g []) hdirectory

theorem text_mem_spellings (hcontains : contains disk root g) (hroot : root ≠ "") :
    g.text ∈ spellings disk root g :=
  mem_spellings_iff.2 ⟨text_mem_entries hcontains hroot, Guid.parse?_eq_some_iff.1 g.parse?_text⟩

theorem nodup_spellings (disk : Disk) (root : String) (g : Guid) : (spellings disk root g).Nodup :=
  (nodup_entries disk root).filter _

/-! ### What is listed -/

theorem count_parse? (g : Guid) (names : List String) :
    (names.filterMap Guid.parse?).count g =
      (names.filter fun name => name.toLower = g.text).length := by
  rw [List.count_filterMap, List.countP_eq_length_filter]
  refine congrArg List.length (List.filter_congr fun name _ => ?_)
  rw [Bool.eq_iff_iff, beq_iff_eq, decide_eq_true_iff, Guid.parse?_eq_some_iff]

theorem count_list (disk : Disk) (root : String) (g : Guid) :
    (list disk root).count g =
      if contains disk root g then (spellings disk root g).length else 0 := by
  rw [list_eq_entries, (List.mergeSort_perm _ _).count_eq]
  split_ifs with hcontains
  · rw [List.count_filter hcontains, count_parse?, spellings]
  · refine List.count_eq_zero.2 fun hmem => hcontains ?_
    exact (List.mem_filter.1 hmem).2

theorem mem_list_iff : g ∈ list disk root ↔ root ≠ "" ∧ contains disk root g := by
  rw [← List.count_pos_iff, count_list]
  constructor
  · intro hpositive
    split_ifs at hpositive with hcontains
    · obtain ⟨name, hname⟩ := List.exists_mem_of_length_pos hpositive
      exact ⟨named_of_mem_spellings hname, hcontains⟩
    · cases hpositive
  · rintro ⟨hroot, hcontains⟩
    rw [if_pos hcontains]
    exact List.length_pos_of_mem (text_mem_spellings hcontains hroot)

/-- An entity has at most one name if and only if all its names are the same. -/
theorem length_spellings_le_one_iff (hcontains : contains disk root g) :
    (spellings disk root g).length ≤ 1 ↔ ∀ name ∈ spellings disk root g, name = g.text := by
  constructor
  · intro hlength name hname
    have htext := text_mem_spellings hcontains (named_of_mem_spellings hname)
    obtain ⟨only, honly⟩ :=
      List.length_eq_one_iff.1 (le_antisymm hlength (List.length_pos_of_mem hname))
    rw [honly, List.mem_singleton] at hname htext
    rw [hname, htext]
  · intro hnames
    have hsubset : spellings disk root g ⊆ [g.text] := by
      intro name hname
      rw [hnames name hname]
      exact List.mem_singleton_self _
    exact (List.subperm_of_subset (nodup_spellings disk root g) hsubset).length_le

/-- What is in order increases from one to the next where nothing is there twice. -/
theorem pairwise_lt_iff_nodup {guids : List Guid}
    (horder : guids.Pairwise fun a b => (compare a b).isLE) :
    guids.Pairwise (fun a b => compare a b = .lt) ↔ guids.Nodup := by
  constructor
  · intro hlt
    refine hlt.imp fun {a b} hab => ?_
    rintro rfl
    rw [@Std.ReflCmp.compare_self Guid compare _ a] at hab
    cases hab
  · intro hnodup
    refine (horder.and hnodup).imp fun {a b} hab => ?_
    cases hcompare : compare a b with
    | lt => rfl
    | eq => exact absurd (Std.LawfulEqCmp.eq_of_compare hcompare) hab.2
    | gt =>
      rw [hcompare] at hab
      cases hab.1

/-- What is listed below a root is in order and is exactly what is there. Every complete entity is
listed once for every name that spells its guid, among them its own, so that the list increases
from one guid to the next if and only if no complete entity has another name. -/
theorem list_spellings (disk : Disk) (root : String) :
    (list disk root).Pairwise (fun a b => (compare a b).isLE) ∧
    (∀ g, g ∈ list disk root ↔ root ≠ "" ∧ contains disk root g) ∧
    (∀ g, (list disk root).count g =
      if contains disk root g then (spellings disk root g).length else 0) ∧
    (∀ g, root ≠ "" → contains disk root g → g.text ∈ spellings disk root g) ∧
    ((list disk root).Pairwise (fun a b => compare a b = .lt) ↔
      ∀ g, contains disk root g → ∀ name ∈ spellings disk root g, name = g.text) := by
  have horder : (list disk root).Pairwise fun a b => (compare a b).isLE := by
    rw [list_eq_entries]
    exact pairwise_mergeSort_guids _
  refine ⟨horder, fun g => mem_list_iff, count_list disk root,
    fun g hroot hcontains => text_mem_spellings hcontains hroot, ?_⟩
  rw [pairwise_lt_iff_nodup horder, List.nodup_iff_count_le_one]
  refine forall_congr' fun g => ?_
  rw [count_list]
  split_ifs with hcontains
  · rw [length_spellings_le_one_iff hcontains]
    exact ⟨fun h _ => h, fun h => h hcontains⟩
  · exact ⟨fun _ h => absurd h hcontains, fun _ => Nat.zero_le 1⟩

/-- A complete entity beside a file that has its name in capitals. -/
def capitalized : Disk :=
  let stored := sampleCopy (Guid.filled 0xAB) 1
  let disk := publish (Disk.empty.put ["ordered"] .directory) ["ordered", stored.manifest.guid.text]
    stored
  disk.put ["ordered", "ABABABABABABABABABABABABABABABABABABABABABABABABABABABABABABABAB"]
    (.file (.stored []))

/-- The entity is there and is listed twice. -/
theorem list_capitalized :
    contains capitalized "ordered" (Guid.filled 0xAB) ∧
    (list capitalized "ordered").count (Guid.filled 0xAB) = 2 ∧
    ¬ (list capitalized "ordered").Pairwise fun a b => compare a b = .lt := by
  have hcontains : contains capitalized "ordered" (Guid.filled 0xAB) := by decide
  have hentries : entries capitalized "ordered" =
      ["ABABABABABABABABABABABABABABABABABABABABABABABABABABABABABABABAB",
        (Guid.filled 0xAB).text] := by decide
  have hcount : (list capitalized "ordered").count (Guid.filled 0xAB) = 2 := by
    rw [list_eq_entries, (List.mergeSort_perm _ _).count_eq, List.count_filter hcontains, hentries]
    decide
  refine ⟨hcontains, hcount, fun hlt => ?_⟩
  have horder := hlt.imp fun {a b} hab => (congrArg Ordering.isLE hab : (compare a b).isLE = true)
  have hnodup := (pairwise_lt_iff_nodup horder).1 hlt
  have hone := List.nodup_iff_count_le_one.1 hnodup (Guid.filled 0xAB)
  omega

end EntityDirectory

end GraphVault
