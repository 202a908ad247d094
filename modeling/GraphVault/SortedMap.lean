/-!
# Sorted maps

Finite maps kept as a list of entries in strictly increasing key order, so that iteration order is
the key order and two maps with the same lookups are equal (`SortedMap.ext`).
-/

namespace GraphVault

universe u v w

/-- A finite map: its entries, strictly increasing in their keys. -/
structure SortedMap (κ : Type u) (α : Type v) [Ord κ] where
  entries : List (κ × α)
  sorted : entries.Pairwise fun a b => compare a.1 b.1 = .lt

namespace SortedMap

section Entries

variable {κ : Type u} {α : Type v} [Ord κ]

/-- The value at `k` in a list of increasing entries. -/
def find (k : κ) : List (κ × α) → Option α
  | [] => none
  | (key, a) :: rest =>
    match compare k key with
    | .lt => none
    | .eq => some a
    | .gt => find k rest

/-- The entries with `k` bound to `a`, which replaces an earlier binding. -/
def put (k : κ) (a : α) : List (κ × α) → List (κ × α)
  | [] => [(k, a)]
  | (key, b) :: rest =>
    match compare k key with
    | .lt => (k, a) :: (key, b) :: rest
    | .eq => (k, a) :: rest
    | .gt => (key, b) :: put k a rest

/-- The entries without the binding of `k`. -/
def drop (k : κ) : List (κ × α) → List (κ × α)
  | [] => []
  | (key, b) :: rest =>
    match compare k key with
    | .lt => (key, b) :: rest
    | .eq => rest
    | .gt => (key, b) :: drop k rest

theorem mem_put {k : κ} {a : α} {entries : List (κ × α)} {e : κ × α} (h : e ∈ put k a entries) :
    e = (k, a) ∨ e ∈ entries := by
  induction entries with
  | nil => simpa [put] using h
  | cons head rest ih =>
    obtain ⟨key, b⟩ := head
    rw [put] at h
    split at h <;> simp only [List.mem_cons] at h ⊢
    · exact h
    · rcases h with h | h
      · exact .inl h
      · exact .inr (.inr h)
    · rcases h with h | h
      · exact .inr (.inl h)
      · rcases ih h with h | h
        · exact .inl h
        · exact .inr (.inr h)

theorem mem_of_mem_drop {k : κ} {entries : List (κ × α)} {e : κ × α} (h : e ∈ drop k entries) :
    e ∈ entries := by
  induction entries with
  | nil => simp [drop] at h
  | cons head rest ih =>
    obtain ⟨key, b⟩ := head
    rw [drop] at h
    split at h <;> simp only [List.mem_cons] at h ⊢
    · exact h
    · exact .inr h
    · rcases h with h | h
      · exact .inl h
      · exact .inr (ih h)

variable [Std.TransOrd κ] [Std.LawfulEqOrd κ]

theorem sorted_put {k : κ} {a : α} {entries : List (κ × α)}
    (h : entries.Pairwise fun a b => compare a.1 b.1 = .lt) :
    (put k a entries).Pairwise fun a b => compare a.1 b.1 = .lt := by
  induction entries with
  | nil => simp [put]
  | cons head rest ih =>
    obtain ⟨key, b⟩ := head
    rw [List.pairwise_cons] at h
    rw [put]
    split
    · next hk =>
      refine List.pairwise_cons.2 ⟨fun e he => ?_, List.pairwise_cons.2 h⟩
      rcases List.mem_cons.1 he with rfl | he
      · exact hk
      · exact Std.TransCmp.lt_trans hk (h.1 e he)
    · next hk =>
      rw [Std.LawfulEqCmp.eq_of_compare hk]
      exact List.pairwise_cons.2 h
    · next hk =>
      refine List.pairwise_cons.2 ⟨fun e he => ?_, ih h.2⟩
      rcases mem_put he with rfl | he
      · exact Std.OrientedCmp.gt_iff_lt.1 hk
      · exact h.1 e he

omit [Std.TransOrd κ] [Std.LawfulEqOrd κ] in
theorem sorted_drop {k : κ} {entries : List (κ × α)}
    (h : entries.Pairwise fun a b => compare a.1 b.1 = .lt) :
    (drop k entries).Pairwise fun a b => compare a.1 b.1 = .lt := by
  induction entries with
  | nil => simp [drop]
  | cons head rest ih =>
    obtain ⟨key, b⟩ := head
    have hc := List.pairwise_cons.1 h
    rw [drop]
    split
    · exact h
    · exact hc.2
    · exact List.pairwise_cons.2 ⟨fun e he => hc.1 e (mem_of_mem_drop he), ih hc.2⟩

omit [Std.TransOrd κ] [Std.LawfulEqOrd κ] in
theorem find_eq_none_of_lt {k : κ} {entries : List (κ × α)}
    (h : ∀ e ∈ entries, compare k e.1 = .lt) : find k entries = none := by
  cases entries with
  | nil => rfl
  | cons head rest => simp [find, h head (by simp)]

theorem find_eq_some_iff {k : κ} {a : α} {entries : List (κ × α)}
    (h : entries.Pairwise fun a b => compare a.1 b.1 = .lt) :
    find k entries = some a ↔ (k, a) ∈ entries := by
  induction entries with
  | nil => simp [find]
  | cons head rest ih =>
    obtain ⟨key, b⟩ := head
    have hc := List.pairwise_cons.1 h
    have absent : compare k key = .lt ∨ k = key → (k, a) ∉ rest := fun hk hm => by
      have hlt := hc.1 _ hm
      rcases hk with hk | rfl
      · have := Std.TransCmp.lt_trans hk hlt
        simp at this
      · simp at hlt
    rw [find, List.mem_cons, Prod.mk.injEq]
    split
    · next hk =>
      have hne : k ≠ key := fun he => by simp [he] at hk
      simp [hne, absent (.inl hk)]
    · next hk =>
      have he := Std.LawfulEqCmp.eq_of_compare hk
      simp [he ▸ absent (.inr he), he, eq_comm]
    · next hk =>
      have hne : k ≠ key := fun he => by simp [he] at hk
      simp [hne, ih hc.2]

omit [Std.TransOrd κ] in
theorem find_put_self (k : κ) (a : α) (entries : List (κ × α)) :
    find k (put k a entries) = some a := by
  induction entries with
  | nil => simp [put, find]
  | cons head rest ih =>
    rw [put]
    split <;> simp_all [find]

theorem find_put_of_ne {k key : κ} (a : α) (entries : List (κ × α)) (hk : k ≠ key) :
    find k (put key a entries) = find k entries := by
  have hne : compare k key ≠ .eq := fun h => hk (Std.LawfulEqCmp.eq_of_compare h)
  induction entries with
  | nil => cases h : compare k key <;> simp_all [put, find]
  | cons head rest ih =>
    obtain ⟨first, b⟩ := head
    rw [put]
    split
    · next hlt =>
      cases h : compare k key with
      | lt => simp [find, h, Std.TransCmp.lt_trans h hlt]
      | eq => exact absurd h hne
      | gt => simp [find, h]
    · next heq =>
      rw [← Std.LawfulEqCmp.eq_of_compare heq]
      cases h : compare k key with
      | eq => exact absurd h hne
      | lt | gt => simp [find, h]
    · cases h : compare k first <;> simp [find, h, ih]

omit [Std.TransOrd κ] in
theorem find_drop_self {k : κ} {entries : List (κ × α)}
    (h : entries.Pairwise fun a b => compare a.1 b.1 = .lt) : find k (drop k entries) = none := by
  induction entries with
  | nil => rfl
  | cons head rest ih =>
    have hc := List.pairwise_cons.1 h
    rw [drop]
    split
    · next hlt => simp [find, hlt]
    · next heq =>
      rw [Std.LawfulEqCmp.eq_of_compare heq]
      exact find_eq_none_of_lt hc.1
    · next hgt => simp [find, hgt, ih hc.2]

theorem find_drop_of_ne {k key : κ} {entries : List (κ × α)}
    (h : entries.Pairwise fun a b => compare a.1 b.1 = .lt) (hk : k ≠ key) :
    find k (drop key entries) = find k entries := by
  have hne : compare k key ≠ .eq := fun h => hk (Std.LawfulEqCmp.eq_of_compare h)
  induction entries with
  | nil => rfl
  | cons head rest ih =>
    obtain ⟨first, b⟩ := head
    have hc := List.pairwise_cons.1 h
    rw [drop]
    split
    · rfl
    · next heq =>
      have hfirst := Std.LawfulEqCmp.eq_of_compare heq
      cases hlt : compare k first with
      | lt =>
        simp only [find, hlt]
        exact find_eq_none_of_lt fun e he => Std.TransCmp.lt_trans hlt (hc.1 e he)
      | eq => exact absurd (hfirst ▸ hlt) hne
      | gt => simp [find, hlt]
    · cases hf : compare k first <;> simp [find, hf, ih hc.2]

omit [Std.LawfulEqOrd κ] in
/-- Increasing lists of entries with the same members are equal. -/
theorem eq_of_mem_iff {xs ys : List (κ × α)}
    (hx : xs.Pairwise fun a b => compare a.1 b.1 = .lt)
    (hy : ys.Pairwise fun a b => compare a.1 b.1 = .lt)
    (h : ∀ e, e ∈ xs ↔ e ∈ ys) : xs = ys := by
  induction xs generalizing ys with
  | nil =>
    cases ys with
    | nil => rfl
    | cons y ys => exact absurd ((h y).2 (by simp)) (by simp)
  | cons x xs ih =>
    cases ys with
    | nil => exact absurd ((h x).1 (by simp)) (by simp)
    | cons y ys =>
      have cx := List.pairwise_cons.1 hx
      have cy := List.pairwise_cons.1 hy
      have irrefl : ∀ e : κ × α, compare e.1 e.1 ≠ .lt := fun e => by
        simp [Std.ReflCmp.compare_self]
      have head : x = y := by
        rcases List.mem_cons.1 ((h x).1 (by simp)) with hxy | hxy
        · exact hxy
        · rcases List.mem_cons.1 ((h y).2 (by simp)) with hyx | hyx
          · exact hyx.symm
          · exact absurd (Std.TransCmp.lt_trans (cx.1 y hyx) (cy.1 x hxy)) (irrefl x)
      subst head
      rw [ih cx.2 cy.2 fun e => ?_]
      constructor
      · intro he
        rcases List.mem_cons.1 ((h e).1 (List.mem_cons_of_mem x he)) with hex | hey
        · exact absurd (cx.1 e he) (by rw [hex]; exact irrefl x)
        · exact hey
      · intro he
        rcases List.mem_cons.1 ((h e).2 (List.mem_cons_of_mem x he)) with hex | hex
        · exact absurd (cy.1 e he) (by rw [hex]; exact irrefl x)
        · exact hex

end Entries

variable {κ : Type u} {α : Type v} {β : Type w} [Ord κ]

/-- The map with no entries. -/
def empty : SortedMap κ α := ⟨[], .nil⟩

instance : EmptyCollection (SortedMap κ α) := ⟨empty⟩

instance : Inhabited (SortedMap κ α) := ⟨empty⟩

instance [DecidableEq κ] [DecidableEq α] : DecidableEq (SortedMap κ α) := fun m n =>
  decidable_of_iff (m.entries = n.entries) (by cases m; cases n; simp)

/-- The value bound to `k`. -/
def get? (m : SortedMap κ α) (k : κ) : Option α := find k m.entries

/-- Whether `k` is bound. -/
def contains (m : SortedMap κ α) (k : κ) : Bool := (m.get? k).isSome

/-- The bound keys, increasing. -/
def keys (m : SortedMap κ α) : List κ := m.entries.map (·.1)

/-- The values, in the order of their keys. -/
def values (m : SortedMap κ α) : List α := m.entries.map (·.2)

/-- The number of entries. -/
def size (m : SortedMap κ α) : Nat := m.entries.length

/-- Whether there are no entries. -/
def isEmpty (m : SortedMap κ α) : Bool := m.entries.isEmpty

/-- Removes the binding of `k`, if there is one. -/
def erase (m : SortedMap κ α) (k : κ) : SortedMap κ α := ⟨drop k m.entries, sorted_drop m.sorted⟩

/-- Keeps the entries that satisfy `p`. -/
def filter (m : SortedMap κ α) (p : κ → α → Bool) : SortedMap κ α :=
  ⟨m.entries.filter fun e => p e.1 e.2, m.sorted.filter _⟩

variable [Std.TransOrd κ] [Std.LawfulEqOrd κ]

/-- Binds `k` to `a`, replacing an earlier binding. -/
def insert (m : SortedMap κ α) (k : κ) (a : α) : SortedMap κ α :=
  ⟨put k a m.entries, sorted_put m.sorted⟩

/-- The map of a list of bindings, of which a later one replaces an earlier one of its key. -/
def ofList (bindings : List (κ × α)) : SortedMap κ α :=
  bindings.foldl (fun m e => m.insert e.1 e.2) empty

omit [Std.TransOrd κ] [Std.LawfulEqOrd κ] in
@[simp] theorem get?_empty (k : κ) : (empty : SortedMap κ α).get? k = none := rfl

@[simp] theorem get?_insert_self (m : SortedMap κ α) (k : κ) (a : α) :
    (m.insert k a).get? k = some a := find_put_self k a m.entries

theorem get?_insert_of_ne (m : SortedMap κ α) {key k : κ} (a : α) (h : k ≠ key) :
    (m.insert key a).get? k = m.get? k := find_put_of_ne a m.entries h

omit [Std.TransOrd κ] in
@[simp] theorem get?_erase_self (m : SortedMap κ α) (k : κ) : (m.erase k).get? k = none :=
  find_drop_self m.sorted

theorem get?_erase_of_ne (m : SortedMap κ α) {key k : κ} (h : k ≠ key) :
    (m.erase key).get? k = m.get? k := find_drop_of_ne m.sorted h

theorem get?_eq_some_iff {m : SortedMap κ α} {k : κ} {a : α} :
    m.get? k = some a ↔ (k, a) ∈ m.entries := find_eq_some_iff m.sorted

theorem get?_filter_eq_some_iff {m : SortedMap κ α} {p : κ → α → Bool} {k : κ} {a : α} :
    (m.filter p).get? k = some a ↔ m.get? k = some a ∧ p k a := by
  rw [get?_eq_some_iff, get?_eq_some_iff, filter, List.mem_filter]

theorem mem_keys_iff {m : SortedMap κ α} {k : κ} : k ∈ m.keys ↔ m.contains k := by
  simp only [keys, List.mem_map, contains, Option.isSome_iff_exists, get?_eq_some_iff]
  exact ⟨fun ⟨e, he, hk⟩ => ⟨e.2, hk ▸ he⟩, fun ⟨a, ha⟩ => ⟨(k, a), ha, rfl⟩⟩

omit [Std.LawfulEqOrd κ] in
theorem nodup_keys (m : SortedMap κ α) : m.keys.Nodup := by
  refine List.pairwise_map.2 (m.sorted.imp fun hlt heq => ?_)
  rw [heq] at hlt
  simp at hlt

/-- A map is determined by its lookups. -/
theorem ext {m n : SortedMap κ α} (h : ∀ k, m.get? k = n.get? k) : m = n := by
  have : m.entries = n.entries := eq_of_mem_iff m.sorted n.sorted fun e => by
    rw [← get?_eq_some_iff, ← get?_eq_some_iff, h]
  cases m; cases n; simp_all

/-! ### Maps of lists -/

private theorem mem_of_get?_foldl {bindings : List (κ × α)} {m : SortedMap κ α} {k : κ} {a : α}
    (h : (bindings.foldl (fun m binding => m.insert binding.1 binding.2) m).get? k = some a) :
    (k, a) ∈ bindings ∨ m.get? k = some a := by
  induction bindings generalizing m with
  | nil => exact .inr h
  | cons binding bindings ih =>
    cases ih h with
    | inl hmem => exact .inl (List.mem_cons_of_mem _ hmem)
    | inr hget =>
      by_cases heq : k = binding.1
      · subst heq
        rw [get?_insert_self, Option.some.injEq] at hget
        subst hget
        exact .inl List.mem_cons_self
      · rw [get?_insert_of_ne _ _ heq] at hget
        exact .inr hget

theorem mem_of_get?_ofList {bindings : List (κ × α)} {k : κ} {a : α}
    (h : (ofList bindings).get? k = some a) : (k, a) ∈ bindings := by
  cases mem_of_get?_foldl h with
  | inl hmem => exact hmem
  | inr hempty => cases hempty

private theorem contains_foldl {bindings : List (κ × α)} {m : SortedMap κ α} {k : κ}
    (h : k ∈ bindings.map (·.1) ∨ m.contains k) :
    (bindings.foldl (fun m binding => m.insert binding.1 binding.2) m).contains k := by
  induction bindings generalizing m with
  | nil => exact h.resolve_left List.not_mem_nil
  | cons binding bindings ih =>
    by_cases heq : k = binding.1
    · subst heq
      exact ih (.inr (by rw [contains, get?_insert_self]; rfl))
    · rw [List.map_cons, List.mem_cons, or_assoc] at h
      refine ih ((h.resolve_left heq).imp id fun hm => ?_)
      rwa [contains, get?_insert_of_ne _ _ heq]

/-- The keys of a list of bindings are bound. -/
theorem contains_ofList_iff {bindings : List (κ × α)} {k : κ} :
    (ofList bindings).contains k ↔ k ∈ bindings.map (·.1) := by
  constructor
  · intro h
    obtain ⟨a, ha⟩ := Option.isSome_iff_exists.1 h
    exact List.mem_map.2 ⟨(k, a), mem_of_get?_ofList ha, rfl⟩
  · exact fun h => contains_foldl (.inl h)

private theorem get?_foldl_of_not_mem {bindings : List (κ × α)} {m : SortedMap κ α} {k : κ}
    (h : k ∉ bindings.map (·.1)) :
    (bindings.foldl (fun m binding => m.insert binding.1 binding.2) m).get? k = m.get? k := by
  induction bindings generalizing m with
  | nil => rfl
  | cons binding bindings ih =>
    rw [List.map_cons, List.mem_cons, not_or] at h
    exact (ih h.2).trans (get?_insert_of_ne _ _ h.1)

private theorem get?_foldl_of_mem {bindings : List (κ × α)} {m : SortedMap κ α} {k : κ} {a : α}
    (h : (bindings.map (·.1)).Nodup) (hmem : (k, a) ∈ bindings) :
    (bindings.foldl (fun m binding => m.insert binding.1 binding.2) m).get? k = some a := by
  induction bindings generalizing m with
  | nil => cases hmem
  | cons binding bindings ih =>
    rw [List.map_cons, List.nodup_cons] at h
    cases List.mem_cons.1 hmem with
    | inl heq =>
      subst heq
      exact (get?_foldl_of_not_mem h.1).trans (get?_insert_self _ _ _)
    | inr hmem => exact ih h.2 hmem

/-- Where no key occurs twice, every binding stays. -/
theorem get?_ofList_eq_some_iff {bindings : List (κ × α)} (h : (bindings.map (·.1)).Nodup) {k : κ}
    {a : α} : (ofList bindings).get? k = some a ↔ (k, a) ∈ bindings :=
  ⟨mem_of_get?_ofList, get?_foldl_of_mem h⟩

end SortedMap

end GraphVault
