import GraphVault.Disk.Path

/-!
# Names on paths

A path is the segments between its slashes, and the path through some of its names is no longer than
the path itself.
-/

namespace GraphVault.Path

private theorem mem_splitOn {chars piece : List Char} {separator : Char}
    (h : piece ∈ chars.splitOn separator) : separator ∉ piece ∧ ∀ c ∈ piece, c ∈ chars := by
  induction chars generalizing piece with
  | nil =>
    rw [List.splitOn_nil, List.mem_singleton] at h
    subst h
    simp
  | cons head chars ih =>
    rw [List.splitOn_cons_eq_if_modifyHead] at h
    split at h
    · rw [List.mem_cons] at h
      cases h with
      | inl hnil =>
        subst hnil
        simp
      | inr hmem =>
        obtain ⟨hseparator, hchars⟩ := ih hmem
        exact ⟨hseparator, fun c hc => List.mem_cons_of_mem _ (hchars c hc)⟩
    · rename_i hne
      obtain ⟨first, rest, hsplit⟩ := List.exists_cons_of_ne_nil (List.splitOn_ne_nil separator chars)
      rw [hsplit, List.modifyHead_cons, List.mem_cons] at h
      cases h with
      | inl hfirst =>
        obtain ⟨hseparator, hchars⟩ := ih (hsplit ▸ List.mem_cons_self)
        have hhead : ¬ separator = head := fun heq => hne (by simp [heq])
        subst hfirst
        refine ⟨by simp [hhead, hseparator], fun c hc => ?_⟩
        rw [List.mem_cons] at hc ⊢
        exact hc.imp_right (hchars c)
      | inr hrest =>
        obtain ⟨hseparator, hchars⟩ := ih (hsplit ▸ List.mem_cons_of_mem _ hrest)
        exact ⟨hseparator, fun c hc => List.mem_cons_of_mem _ (hchars c hc)⟩

/-- A segment holds no slash, and nothing that the path does not hold. -/
theorem mem_segments {path name : String} (h : name ∈ segments path) :
    '/' ∉ name.toList ∧ ∀ c ∈ name.toList, c ∈ path.toList := by
  rw [segments, List.mem_map] at h
  obtain ⟨piece, hpiece, rfl⟩ := h
  rw [String.toList_ofList]
  exact mem_splitOn hpiece

theorem mem_names {path name : String} :
    name ∈ names path ↔ name ∈ segments path ∧ name ≠ "" ∧ name ≠ "." := by
  simp [names]

theorem intercalate_segments (path : String) : String.intercalate "/" (segments path) = path := by
  have hid : String.toList ∘ String.ofList = id := by
    funext chars
    exact String.toList_ofList
  apply String.toList_inj.1
  rw [String.toList_intercalate, segments, List.map_map, hid, List.map_id]
  exact List.intercalate_splitOn '/'

theorem segments_intercalate {names : List String} (hne : names ≠ [])
    (h : ∀ name ∈ names, '/' ∉ name.toList) : segments (String.intercalate "/" names) = names := by
  have hid : String.ofList ∘ String.toList = id := by
    funext name
    exact String.ofList_toList
  have hpieces : ∀ piece ∈ names.map String.toList, '/' ∉ piece := by
    intro piece hpiece
    obtain ⟨name, hname, rfl⟩ := List.mem_map.1 hpiece
    exact h name hname
  have hsplit := List.splitOn_intercalate '/' hpieces (by simpa using hne)
  rw [segments, String.toList_intercalate]
  change ((['/'].intercalate (names.map String.toList)).splitOn '/').map String.ofList = names
  rw [hsplit, List.map_map, hid, List.map_id]

theorem segments_absolute (path : String) : segments ("/" ++ path) = "" :: segments path := by
  have hlist : ("/" ++ path).toList = '/' :: path.toList := by
    rw [String.toList_append]
    rfl
  rw [segments, hlist, List.splitOn_cons_eq_if_modifyHead, if_pos (by rfl)]
  rfl

theorem exists_absolute {path : String} (h : isAbsolute path) : ∃ rest, path = "/" ++ rest := by
  have hhead : path.toList.head? = some '/' := by simpa [isAbsolute] using h
  obtain ⟨rest, hrest⟩ := List.head?_eq_some_iff.1 hhead
  refine ⟨String.ofList rest, String.toList_inj.1 ?_⟩
  rw [hrest]
  simp

/-- The segments of a path that is put together from names. -/
theorem segments_ofNames (absolute : Bool) {names : List String} (hne : names ≠ [])
    (h : ∀ name ∈ names, '/' ∉ name.toList) :
    segments (ofNames absolute names) = if absolute then "" :: names else names := by
  cases absolute with
  | false =>
    have hpath : ofNames false names = String.intercalate "/" names := by
      simp [ofNames]
    rw [hpath, segments_intercalate hne h]
    rfl
  | true =>
    have hpath : ofNames true names = "/" ++ String.intercalate "/" names := by
      simp [ofNames]
    rw [hpath, segments_absolute, segments_intercalate hne h]
    rfl

theorem isAbsolute_ofNames (absolute : Bool) {names : List String}
    (h : ∀ name ∈ names, '/' ∉ name.toList ∧ name ≠ "") :
    isAbsolute (ofNames absolute names) = absolute := by
  cases absolute with
  | true =>
    have hlist : (ofNames true names).toList = '/' :: (String.intercalate "/" names).toList := by
      simp [ofNames]
    rw [isAbsolute, hlist]
    rfl
  | false =>
    have hpath : ofNames false names = String.intercalate "/" names := by
      simp [ofNames]
    rw [hpath]
    cases names with
    | nil => rfl
    | cons name names =>
      obtain ⟨hslash, hne⟩ := h name List.mem_cons_self
      have hcons : name.toList ≠ [] := fun hnil => hne (String.toList_inj.1 hnil)
      obtain ⟨c, cs, hcs⟩ := List.exists_cons_of_ne_nil hcons
      have hc : ¬ c = '/' := by
        intro heq
        rw [hcs, heq] at hslash
        exact hslash List.mem_cons_self
      cases names with
      | nil => simp [isAbsolute, hcs, hc]
      | cons next names => simp [isAbsolute, hcs, hc]

theorem null_not_mem_ofNames (absolute : Bool) {names : List String}
    (h : ∀ name ∈ names, '\x00' ∉ name.toList) : '\x00' ∉ (ofNames absolute names).toList := by
  have hnames : '\x00' ∉ (String.intercalate "/" names).toList := by
    induction names with
    | nil => simp
    | cons name names ih =>
      have hname := h name List.mem_cons_self
      have hrest := ih fun other hother => h other (List.mem_cons_of_mem _ hother)
      cases names with
      | nil => simpa using hname
      | cons next names =>
        rw [String.intercalate_cons_cons]
        simp only [String.toList_append, List.mem_append, not_or]
        exact ⟨⟨hname, by decide⟩, hrest⟩
  cases absolute with
  | false => simpa [ofNames] using hnames
  | true => simpa [ofNames] using hnames

/-! ### Lengths -/

/-- The bytes of names with a slash behind each of them. -/
private def weight : List String → Nat
  | [] => 0
  | name :: names => name.utf8ByteSize + 1 + weight names

private theorem weight_le_of_sublist {names others : List String} (h : names.Sublist others) :
    weight names ≤ weight others := by
  induction h with
  | slnil => exact Nat.le_refl _
  | cons name h ih =>
    simp only [weight] at ih ⊢
    omega
  | cons_cons name h ih =>
    simp only [weight] at ih ⊢
    omega

private theorem size_intercalate {names : List String} (h : names ≠ []) :
    (String.intercalate "/" names).utf8ByteSize + 1 = weight names := by
  induction names with
  | nil => exact absurd rfl h
  | cons name names ih =>
    cases names with
    | nil => simp [weight]
    | cons next names =>
      have hrest := ih (by simp)
      have hslash : ("/" : String).utf8ByteSize = 1 := by decide
      rw [String.intercalate_cons_cons, String.utf8ByteSize_append, String.utf8ByteSize_append,
        hslash]
      simp only [weight] at hrest ⊢
      omega

private theorem size_intercalate_le (names : List String) :
    (String.intercalate "/" names).utf8ByteSize ≤ weight names - 1 := by
  by_cases h : names = []
  · subst h
    simp [weight]
  · have hsize := size_intercalate h
    omega

private theorem weight_segments (path : String) :
    weight (segments path) = path.utf8ByteSize + 1 := by
  have hne : segments path ≠ [] := by
    intro hnil
    rw [segments, List.map_eq_nil_iff] at hnil
    exact List.splitOn_ne_nil _ _ hnil
  rw [← size_intercalate hne, intercalate_segments]

/-- The path through some of the names of a path is no longer than the path. -/
theorem size_ofNames_le {path : String} {some : List String} (h : some.Sublist (names path)) :
    (ofNames (isAbsolute path) some).utf8ByteSize ≤ path.utf8ByteSize := by
  have hsome := size_intercalate_le some
  cases habsolute : isAbsolute path with
  | false =>
    have hsublist : some.Sublist (segments path) := h.trans List.filter_sublist
    have hweight := weight_le_of_sublist hsublist
    rw [weight_segments] at hweight
    have hpath : ofNames false some = String.intercalate "/" some := by
      simp [ofNames]
    rw [hpath]
    omega
  | true =>
    obtain ⟨rest, rfl⟩ := exists_absolute habsolute
    have hsublist : some.Sublist (segments rest) := by
      have hnames : names ("/" ++ rest) = names rest := by
        rw [names, segments_absolute]
        rfl
      rw [hnames] at h
      exact h.trans List.filter_sublist
    have hweight := weight_le_of_sublist hsublist
    rw [weight_segments] at hweight
    have hpath : ofNames true some = "/" ++ String.intercalate "/" some := by
      simp [ofNames]
    rw [hpath, String.utf8ByteSize_append, String.utf8ByteSize_append]
    omega

theorem size_ofNames_append (absolute : Bool) (names : List String) (name : String) :
    (ofNames absolute names).utf8ByteSize ≤ (ofNames absolute (names ++ [name])).utf8ByteSize := by
  have hle : (String.intercalate "/" names).utf8ByteSize
      ≤ (String.intercalate "/" (names ++ [name])).utf8ByteSize := by
    by_cases hnil : names = []
    · subst hnil
      simp
    · rw [String.intercalate_append_of_ne_nil hnil (by simp), String.utf8ByteSize_append,
        String.utf8ByteSize_append]
      omega
  simp only [ofNames, String.utf8ByteSize_append]
  omega

end GraphVault.Path
