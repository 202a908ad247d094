import GraphVault.Catalog
import GraphVault.Proofs.StoredForms
import Mathlib.Data.List.Induction

/-!
# Listing a catalog

The tables of a catalog are ordered by the texts of guids, which is the order of guids. A table into
which only records were put that can be read back lists all of them, and in this order.
-/

namespace GraphVault

open Wire (Codec)

/-! ### The order of guids -/

private theorem Hex.digit_lt {m n : Nat} (h : m < n) (hn : n < 16) : digit m < digit n := by
  have hall : ∀ n : Fin 16, ∀ m : Fin 16, m < n → digit m < digit n := by decide
  exact hall ⟨n, hn⟩ ⟨m, Nat.lt_trans h hn⟩ h

/-- Digits come in the order of the bytes that they stand for. -/
theorem Hex.encode_lt {a b : Bytes} (h : compare a b = .lt) : encode a < encode b := by
  induction a generalizing b with
  | nil =>
    cases b with
    | nil => cases h
    | cons y b => exact List.nil_lt_cons _ _
  | cons x a ih =>
    cases b with
    | nil => cases h
    | cons y b =>
      rw [List.compare_eq_compareLex, List.compareLex_cons_cons, Ordering.then_eq_lt] at h
      rw [encode, encode, List.cons_lt_cons_iff, List.cons_lt_cons_iff]
      have hx : x.toNat < 256 := x.toNat_lt
      have hy : y.toNat < 256 := y.toNat_lt
      obtain hlt | ⟨heq, hrest⟩ := h
      · have hbyte : x.toNat < y.toNat := UInt8.lt_iff_toNat_lt.1 (Std.compare_eq_lt.1 hlt)
        by_cases hhigh : x.toNat / 16 = y.toNat / 16
        · rw [hhigh]
          exact .inr ⟨rfl, .inl (digit_lt (by omega) (by omega))⟩
        · exact .inl (digit_lt (by omega) (by omega))
      · rw [Std.LawfulEqCmp.eq_of_compare heq]
        rw [← List.compare_eq_compareLex] at hrest
        exact .inr ⟨rfl, .inr ⟨rfl, ih hrest⟩⟩

/-- Guids come in the order of their texts. -/
theorem Guid.compare_of_text {g h : Guid} (hlt : compare g.text h.text = .lt) :
    compare g h = .lt := by
  have htext (g h : Guid) (hlt : compare g h = .lt) : g.text < h.text := by
    rw [String.lt_iff, text, text, String.toList_ofList, String.toList_ofList]
    exact Hex.encode_lt hlt
  have hless : g.text < h.text := compareOfLessAndEq_eq_lt.1 hlt
  cases hcompare : compare g h with
  | lt => rfl
  | eq =>
    rw [Std.LawfulEqCmp.eq_of_compare hcompare] at hless
    exact absurd hless (String.lt_irrefl _)
  | gt => exact absurd (htext h g (Std.OrientedCmp.gt_iff_lt.1 hcompare)) (String.lt_asymm hless)

namespace Catalog

/-! ### Tables of records -/

variable {α : Type} {codec : Codec α} {guid : α → Guid} {table : SortedMap String Bytes} {a : α}
  {g : Guid}

/-- Each record of a table is that of something that it can be read as, and is kept under its
guid. -/
def Filed (codec : Codec α) (guid : α → Guid) (table : SortedMap String Bytes) : Prop :=
  ∀ key bytes, table.get? key = some bytes →
    ∃ a, codec.Restores a ∧ key = (guid a).text ∧ bytes = codec.encode a

/-- What a table holds under the guid of something is its record. -/
def Holds (codec : Codec α) (guid : α → Guid) (table : SortedMap String Bytes) (a : α) : Prop :=
  table.get? (guid a).text = some (codec.encode a)

theorem filed_empty : Filed codec guid SortedMap.empty := by
  intro key bytes hget
  rw [SortedMap.get?_empty] at hget
  cases hget

theorem Filed.insert (h : Filed codec guid table) (ha : codec.Restores a) :
    Filed codec guid (table.insert (guid a).text (codec.encode a)) := by
  intro key bytes hget
  by_cases hkey : key = (guid a).text
  · rw [hkey, SortedMap.get?_insert_self, Option.some.injEq] at hget
    exact ⟨a, ha, hkey, hget.symm⟩
  · rw [SortedMap.get?_insert_of_ne _ _ hkey] at hget
    exact h key bytes hget

theorem Filed.erase (h : Filed codec guid table) (g : Guid) :
    Filed codec guid (table.erase g.text) := by
  intro key bytes hget
  by_cases hkey : key = g.text
  · rw [hkey, SortedMap.get?_erase_self] at hget
    cases hget
  · rw [SortedMap.get?_erase_of_ne _ hkey] at hget
    exact h key bytes hget

theorem Filed.holds_of_get? (h : Filed codec guid table) {bytes : Bytes}
    (hget : table.get? g.text = some bytes) :
    ∃ a, codec.Restores a ∧ guid a = g ∧ Holds codec guid table a := by
  obtain ⟨a, ha, hkey, rfl⟩ := h _ _ hget
  have hguid := Guid.text_injective hkey
  subst hguid
  exact ⟨a, ha, rfl, hget⟩

/-- What a table holds under a guid is found. -/
theorem find_of_holds (ha : codec.Restores a) (h : Holds codec guid table a) :
    find codec table (guid a) = .ok (some a) := by
  rw [find, h]
  simp only [readRecord, ha.read_encode]
  rfl

/-- A table lists what it holds, in the order of guids. -/
theorem Filed.exists_list (h : Filed codec guid table) :
    ∃ items, list codec table = .ok items ∧
      items.Pairwise (fun a b => compare (guid a) (guid b) = .lt) ∧
      (∀ a ∈ items, codec.Restores a ∧ Holds codec guid table a) ∧
      ∀ a, codec.Restores a → Holds codec guid table a → a ∈ items := by
  have hlist : Computes (fun _ => False) (List.Forall₂
      (fun entry a => codec.Restores a ∧ entry = ((guid a).text, codec.encode a)) table.entries)
      (list codec table) := by
    refine .mapM_forall₂ fun entry hentry => ?_
    obtain ⟨a, ha, hkey, hbytes⟩ := h entry.1 entry.2 (SortedMap.get?_eq_some_iff.2 hentry)
    simp only [readRecord, hbytes, ha.read_encode]
    exact ⟨ha, Prod.ext hkey hbytes⟩
  cases hresult : list codec table with
  | error failure =>
    rw [hresult] at hlist
    exact hlist.elim
  | ok items =>
    rw [hresult] at hlist
    have hentries : table.entries = items.map fun a => ((guid a).text, codec.encode a) := by
      clear hresult
      generalize table.entries = entries at hlist
      induction hlist with
      | nil => rfl
      | cons hentry _ ih => rw [hentry.2, ih, List.map_cons]
    refine ⟨items, rfl, ?_, fun a ha => ?_, fun a ha hholds => ?_⟩
    · have hsorted := table.sorted
      rw [hentries, List.pairwise_map] at hsorted
      exact hsorted.imp fun hlt => Guid.compare_of_text hlt
    · obtain ⟨entry, hentry, hrestores, rfl⟩ := exists_left_of_forall₂ hlist a ha
      exact ⟨hrestores, SortedMap.get?_eq_some_iff.2 hentry⟩
    · have hmem := SortedMap.get?_eq_some_iff.1 hholds
      obtain ⟨b, hb, hrestores, heq⟩ := exists_right_of_forall₂ hlist _ hmem
      have hread := hrestores.read_encode
      rw [← (Prod.mk.inj heq).2, ha.read_encode, Except.ok.injEq] at hread
      exact hread ▸ hb

/-- A table lists what is found in it, in the order of guids. -/
theorem Filed.exists_found (h : Filed codec guid table) :
    ∃ items, list codec table = .ok items ∧
      items.Pairwise (fun a b => compare (guid a) (guid b) = .lt) ∧
      ∀ a, a ∈ items ↔ find codec table (guid a) = .ok (some a) := by
  obtain ⟨items, hitems, hsorted, hsound, hcomplete⟩ := h.exists_list
  refine ⟨items, hitems, hsorted, fun a => ⟨fun ha => ?_, fun hfind => ?_⟩⟩
  · obtain ⟨hrestores, hholds⟩ := hsound a ha
    exact find_of_holds hrestores hholds
  · cases hget : table.get? (guid a).text with
    | none =>
      rw [find, hget] at hfind
      cases hfind
    | some bytes =>
      obtain ⟨b, hrestores, hguid, hholds⟩ := h.holds_of_get? hget
      rw [← hguid, find_of_holds hrestores hholds, Except.ok.injEq, Option.some.injEq] at hfind
      exact hfind ▸ hcomplete b hrestores hholds

/-! ### The latest record of each guid -/

/-- The last of a list under its guid. -/
def Latest (guid : α → Guid) (items : List α) (a : α) : Prop :=
  ∃ before later, items = before ++ a :: later ∧ ∀ b ∈ later, guid b ≠ guid a

theorem Latest.mem {items : List α} (h : Latest guid items a) : a ∈ items := by
  obtain ⟨before, later, rfl, -⟩ := h
  exact List.mem_append_right _ List.mem_cons_self

theorem not_latest_nil (guid : α → Guid) (a : α) : ¬ Latest guid [] a := fun h =>
  List.not_mem_nil h.mem

theorem latest_append_singleton_iff {items : List α} {b : α} :
    Latest guid (items ++ [b]) a ↔ a = b ∨ Latest guid items a ∧ guid b ≠ guid a := by
  constructor
  · rintro ⟨before, later, hsplit, hlater⟩
    rcases append_singleton_eq_iff.1 hsplit with ⟨-, -, rfl⟩ | ⟨rest, rfl, rfl⟩
    · exact .inl rfl
    · refine .inr ⟨⟨before, rest, rfl, fun c hc => hlater c ?_⟩, hlater b ?_⟩
      · simp [hc]
      · simp
  · rintro (rfl | ⟨⟨before, later, rfl, hlater⟩, hne⟩)
    · exact ⟨items, [], rfl, nofun⟩
    · refine ⟨before, later ++ [b], by simp, fun c hc => ?_⟩
      rcases List.mem_append.1 hc with hc | hc
      · exact hlater c hc
      · exact List.mem_singleton.1 hc ▸ hne

theorem exists_latest {items : List α} (ha : a ∈ items) :
    ∃ b, Latest guid items b ∧ guid b = guid a := by
  induction items using List.reverseRecOn with
  | nil => cases ha
  | append_singleton items c ih =>
    by_cases hguid : guid c = guid a
    · exact ⟨c, latest_append_singleton_iff.2 (.inl rfl), hguid⟩
    · have hmem : a ∈ items := by
        rcases List.mem_append.1 ha with ha | ha
        · exact ha
        · exact absurd (List.mem_singleton.1 ha ▸ rfl) hguid
      obtain ⟨b, hb, heq⟩ := ih hmem
      exact ⟨b, latest_append_singleton_iff.2 (.inr ⟨hb, heq ▸ hguid⟩), heq⟩

/-- A table with several records more, each in place of an earlier one under its guid. -/
def fileAll (codec : Codec α) (guid : α → Guid) (table : SortedMap String Bytes) (items : List α) :
    SortedMap String Bytes :=
  items.foldl (fun table a => table.insert (guid a).text (codec.encode a)) table

theorem fileAll_append (table : SortedMap String Bytes) (items more : List α) :
    fileAll codec guid table (items ++ more) = fileAll codec guid (fileAll codec guid table items) more :=
  List.foldl_append

/-- Of the records that were put into a table under one guid it holds the latest. -/
theorem holds_fileAll_iff {items : List α} (hitems : ∀ b ∈ items, codec.Restores b)
    (ha : codec.Restores a) :
    Holds codec guid (fileAll codec guid SortedMap.empty items) a ↔ Latest guid items a := by
  induction items using List.reverseRecOn with
  | nil =>
    refine ⟨fun hholds => ?_, fun hlatest => absurd hlatest (not_latest_nil guid a)⟩
    cases hholds
  | append_singleton items b ih =>
    have ih' := ih fun c hc => hitems c (List.mem_append_left _ hc)
    have hb : codec.Restores b := hitems b (List.mem_append_right _ (List.mem_singleton_self b))
    rw [latest_append_singleton_iff, ← ih', fileAll_append]
    change (SortedMap.insert _ _ _).get? _ = _ ↔ _
    by_cases hguid : guid b = guid a
    · rw [hguid, SortedMap.get?_insert_self, Option.some.injEq]
      constructor
      · intro hbytes
        have hread := ha.read_encode
        rw [← hbytes, hb.read_encode, Except.ok.injEq] at hread
        exact .inl hread.symm
      · rintro (rfl | ⟨-, hne⟩)
        · rfl
        · exact absurd rfl hne
    · have htext : (guid a).text ≠ (guid b).text := fun heq => hguid (Guid.text_injective heq).symm
      rw [SortedMap.get?_insert_of_ne _ _ htext]
      constructor
      · exact fun hholds => .inr ⟨hholds, hguid⟩
      · rintro (rfl | ⟨hholds, -⟩)
        · exact absurd rfl hguid
        · exact hholds

end Catalog

end GraphVault
