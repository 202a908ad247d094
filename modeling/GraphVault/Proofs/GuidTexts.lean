import GraphVault.Proofs.Listing
import GraphVault.Proofs.Spellings

/-!
# Texts of guids

The text of a guid stands for it wherever guids are kept as text: in the names of directories, in
the keys of a catalog, on the wire and in plans. It is read back as the guid, exactly the texts of
64 digits are read at all, and texts come in the order of the bytes (`Guid.text_faithful`).
-/

namespace GraphVault

namespace Hex

variable {c : Char} {chars : List Char} {bytes : Bytes}

/-- A hexadecimal digit of either case. -/
def IsDigit (c : Char) : Prop :=
  '0' ≤ c ∧ c ≤ '9' ∨ 'a' ≤ c ∧ c ≤ 'f' ∨ 'A' ≤ c ∧ c ≤ 'F'

private theorem le_iff_toNat (a b : Char) : a ≤ b ↔ a.toNat ≤ b.toNat :=
  UInt32.le_iff_toNat_le

theorem isDigit_iff : IsDigit c ↔ ∃ n, value? c = some n := by
  simp only [IsDigit, le_iff_toNat, value?]
  have h0 : '0'.toNat = 48 := rfl
  have h9 : '9'.toNat = 57 := rfl
  have ha : 'a'.toNat = 97 := rfl
  have hf : 'f'.toNat = 102 := rfl
  have hA : 'A'.toNat = 65 := rfl
  have hF : 'F'.toNat = 70 := rfl
  split_ifs with hdecimal hlower hupper
  · exact iff_of_true (by omega) ⟨_, rfl⟩
  · exact iff_of_true (by omega) ⟨_, rfl⟩
  · exact iff_of_true (by omega) ⟨_, rfl⟩
  · refine iff_of_false (by omega) ?_
    rintro ⟨n, hn⟩
    cases hn

/-- What is read has two digits for each byte. -/
theorem digits_of_decode (h : decode chars = some bytes) :
    chars.length = 2 * bytes.length ∧ ∀ c ∈ chars, IsDigit c := by
  induction chars using decode.induct generalizing bytes with
  | case1 =>
    cases h
    exact ⟨rfl, fun c hc => absurd hc List.not_mem_nil⟩
  | case2 => cases h
  | case3 high low rest ih =>
    simp only [decode, Option.bind_eq_bind, Option.bind_eq_some_iff] at h
    obtain ⟨first, hfirst, second, hsecond, more, hmore, hbytes⟩ := h
    obtain rfl := Option.some.inj hbytes
    obtain ⟨hlength, hdigits⟩ := ih hmore
    refine ⟨by simp only [List.length_cons]; omega, ?_⟩
    rw [List.forall_mem_cons, List.forall_mem_cons]
    exact ⟨isDigit_iff.2 ⟨first, hfirst⟩, isDigit_iff.2 ⟨second, hsecond⟩, hdigits⟩

/-- An even number of digits can be read. -/
theorem exists_decode {n : Nat} (hlength : chars.length = 2 * n) (h : ∀ c ∈ chars, IsDigit c) :
    ∃ bytes, decode chars = some bytes ∧ bytes.length = n := by
  induction chars using decode.induct generalizing n with
  | case1 => exact ⟨[], rfl, by simp only [List.length_nil] at hlength ⊢; omega⟩
  | case2 c =>
    simp only [List.length_cons, List.length_nil] at hlength
    omega
  | case3 high low rest ih =>
    rw [List.forall_mem_cons, List.forall_mem_cons] at h
    obtain ⟨hhigh, hlow, hrest⟩ := h
    obtain ⟨first, hfirst⟩ := isDigit_iff.1 hhigh
    obtain ⟨second, hsecond⟩ := isDigit_iff.1 hlow
    simp only [List.length_cons] at hlength
    obtain ⟨bytes, hbytes, hcount⟩ := ih (n := n - 1) (by omega) hrest
    refine ⟨UInt8.ofNat (16 * first + second) :: bytes, ?_, ?_⟩
    · simp only [decode, hfirst, hsecond, hbytes]
      rfl
    · rw [List.length_cons]
      omega

end Hex

namespace Guid

variable {s : String}

/-- Exactly the texts of 64 digits are read. -/
theorem isSome_parse?_iff :
    (parse? s).isSome ↔ s.length = 64 ∧ ∀ c ∈ s.toList, Hex.IsDigit c := by
  rw [← String.length_toList]
  constructor
  · intro h
    obtain ⟨g, hg⟩ := Option.isSome_iff_exists.1 h
    rw [parse?, Option.bind_eq_bind, Option.bind_eq_some_iff] at hg
    obtain ⟨bytes, hbytes, hguid⟩ := hg
    obtain ⟨hcount, hdigits⟩ := Hex.digits_of_decode hbytes
    rw [ofBytes?, Option.dite_none_right_eq_some] at hguid
    obtain ⟨hlength, -⟩ := hguid
    exact ⟨by omega, hdigits⟩
  · rintro ⟨hlength, hdigits⟩
    obtain ⟨bytes, hbytes, hcount⟩ := Hex.exists_decode (n := 32) (by omega) hdigits
    rw [parse?, hbytes, Option.bind_eq_bind, Option.bind_some, ofBytes?, dif_pos hcount,
      Option.isSome_some]

/-- The order of texts is that of guids. -/
theorem compare_text (g h : Guid) : compare g.text h.text = compare g h := by
  cases hcompare : compare g.text h.text with
  | lt => exact (compare_of_text hcompare).symm
  | eq =>
    rw [text_injective (Std.LawfulEqCmp.eq_of_compare hcompare)]
    exact (@Std.ReflCmp.compare_self Guid compare _ h).symm
  | gt =>
    have hlt := compare_of_text (Std.OrientedCmp.gt_iff_lt.1 hcompare)
    exact (Std.OrientedCmp.gt_iff_lt.2 hlt).symm

/-- Guids under whose texts a table has its values come in their order. -/
theorem pairwise_of_keys {α : Type} {table : SortedMap String α} {guids : List Guid}
    (h : table.keys = guids.map text) : guids.Pairwise fun g h => compare g h = .lt := by
  have hsorted : table.keys.Pairwise fun a b => compare a b = .lt := List.pairwise_map.2 table.sorted
  rw [h, List.pairwise_map] at hsorted
  exact hsorted.imp fun {g h} hlt => (compare_text g h).symm.trans hlt

/-- Names that are texts of guids are in order when the guids are. -/
theorem map_text_mergeSort (guids : List Guid) :
    (guids.mergeSort fun g h => (compare g h).isLE).map text =
      (guids.map text).mergeSort fun a b => (compare a b).isLE := by
  rw [List.map_mergeSort]
  intro g _ h _
  rw [compare_text]

/-- The text of a guid is faithful. It is read back as the guid; exactly the texts of 64 digits of
either case are read, and each as the guid whose text it is in lowercase; and two guids compare as
their bytes do, which is how their texts compare, so that tables with texts of guids as keys and
names sorted as texts are in the order of the guids. -/
theorem text_faithful :
    (∀ g, parse? (text g) = some g) ∧
    (∀ s, (parse? s).isSome ↔ s.length = 64 ∧ ∀ c ∈ s.toList, Hex.IsDigit c) ∧
    (∀ s g, parse? s = some g → g.text = s.toLower) ∧
    (∀ g h : Guid, compare g.bytes h.bytes = compare g.text h.text) ∧
    (∀ (α : Type) (table : SortedMap String α) (guids : List Guid),
      table.keys = guids.map text → guids.Pairwise fun g h => compare g h = .lt) ∧
    ∀ guids : List Guid, (guids.mergeSort fun g h => (compare g h).isLE).map text =
      (guids.map text).mergeSort fun a b => (compare a b).isLE := by
  refine ⟨parse?_text, fun s => isSome_parse?_iff, fun s g h => ?_,
    fun g h => (compare_text g h).symm, fun α table guids h => pairwise_of_keys h,
    map_text_mergeSort⟩
  exact (parse?_eq_some_iff.1 h).symm

end Guid

end GraphVault
