import GraphVault.Json.Reader
import GraphVault.Proofs.FiniteDoubles
import GraphVault.Proofs.StoredForms

/-!
# JSON values that can be written

JSON has no text for infinities and numbers that are none, and no text is longer than an address can
count. Whatever is read from JSON text is a value of this kind (`Json.parse_proper`).
-/

namespace GraphVault

/-- A number that JSON has. -/
def JsonNumber.Finite (n : JsonNumber) : Prop := ∀ d, n = .double d → d.isFinite

theorem JsonNumber.Finite.toDouble {n : JsonNumber} (h : n.Finite) : n.toDouble.isFinite := by
  cases n with
  | natural n => exact Double.isFinite_ofNat n.toNat_lt
  | negative n =>
    have hlow := n.le_toInt
    have hhigh := n.toInt_lt
    exact Double.isFinite_ofInt (by omega)
  | double d => exact h d rfl

/-- A value that JSON has: all numbers in it are finite, and the sizes of its texts are words. -/
inductive Json.Proper : Json → Prop where
  | null : Proper .null
  | boolean (b : Bool) : Proper (.boolean b)
  | number {n : JsonNumber} (h : n.Finite) : Proper (.number n)
  | text {s : String} (h : (Bytes.ofText s).length < 2 ^ 64) : Proper (.text s)
  | list {items : List Json} (h : ∀ item ∈ items, Proper item) : Proper (.list items)
  | object {members : List (String × Json)} (h : ∀ member ∈ members, Proper member.2) :
    Proper (.object members)

namespace Json.Reader

variable {p : Partial} {cs rest : List Char} {d : Double}

/-! ### Numbers -/

theorem Partial.finite_double (h : p.double = .ok d) (hp : p.significand < 2 ^ 64) :
    d.isFinite := by
  unfold Partial.double at h
  split at h
  · rename_i read hread
    cases h
    rw [Double.isFinite_withSign]
    exact Double.isFinite_of_ofDecimal hread hp
  · cases h

private theorem length_exponentDigits (value : Option Nat) (cs : List Char) :
    (exponentDigits value cs).2.length ≤ cs.length := by
  induction cs generalizing value with
  | nil => exact Nat.le_refl _
  | cons c cs ih =>
    unfold exponentDigits
    split
    · exact Nat.le_refl _
    · exact Nat.le_succ_of_le (ih _)

theorem exponent_finite (h : exponent p cs = .ok (d, rest)) (hp : p.significand < 2 ^ 64) :
    d.isFinite ∧ rest.length ≤ cs.length := by
  unfold exponent at h
  split at h
  rename_i up tail hsign
  have htail : tail.length ≤ cs.length := by
    rw [show tail = (up, tail).2 from rfl, ← hsign]
    split <;> simp
  dsimp only at h
  split at h
  · rename_i first _
    have hlength := length_exponentDigits (some first) (tail.drop 1)
    rw [List.length_drop] at hlength
    simp only [pure_bind] at h
    split at h
    · rename_i value behind hdigits
      rw [hdigits] at hlength
      dsimp only at hlength
      obtain ⟨read, hread, h⟩ := bind_eq_ok_iff.1 h
      cases h
      exact ⟨Partial.finite_double hread hp, by omega⟩
    · rename_i behind hdigits
      rw [hdigits] at hlength
      dsimp only at hlength
      split at h
      · cases h
      · cases h
        exact ⟨by rw [Double.isFinite_withSign]; exact Double.isFinite_zero, by omega⟩
  · cases h

theorem finish_finite (h : finish p cs = .ok (d, rest)) (hp : p.significand < 2 ^ 64) :
    d.isFinite ∧ rest.length ≤ cs.length := by
  unfold finish at h
  split at h
  · obtain ⟨hfinite, hlength⟩ := exponent_finite h hp
    exact ⟨hfinite, Nat.le_succ_of_le hlength⟩
  · obtain ⟨hfinite, hlength⟩ := exponent_finite h hp
    exact ⟨hfinite, Nat.le_succ_of_le hlength⟩
  · obtain ⟨read, hread, h⟩ := bind_eq_ok_iff.1 h
    cases h
    exact ⟨Partial.finite_double hread hp, Nat.le_refl _⟩

theorem decimals_finite (h : decimals p cs = .ok (d, rest)) (hp : p.significand < 2 ^ 64) :
    d.isFinite ∧ rest.length ≤ cs.length := by
  induction cs generalizing p with
  | nil => exact finish_finite h hp
  | cons c cs ih =>
    unfold decimals at h
    split at h
    · exact finish_finite h hp
    · split at h
      · rename_i hfits
        obtain ⟨hfinite, hlength⟩ := ih h (Nat.lt_succ_of_le hfits)
        exact ⟨hfinite, Nat.le_succ_of_le hlength⟩
      · obtain ⟨hfinite, hlength⟩ := finish_finite h hp
        have hdropped := (List.dropWhile_suffix (digit? · |>.isSome) (l := cs)).length_le
        exact ⟨hfinite, Nat.le_succ_of_le (Nat.le_trans hlength hdropped)⟩

theorem fraction_finite (h : fraction p cs = .ok (d, rest)) (hp : p.significand < 2 ^ 64) :
    d.isFinite ∧ rest.length ≤ cs.length := by
  unfold fraction at h
  split at h
  · exact decimals_finite h hp
  · cases h

theorem longInteger_finite (h : longInteger p cs = .ok (d, rest)) (hp : p.significand < 2 ^ 64) :
    d.isFinite ∧ rest.length ≤ cs.length := by
  induction cs generalizing p with
  | nil => exact finish_finite h hp
  | cons c cs ih =>
    unfold longInteger at h
    split at h
    · obtain ⟨hfinite, hlength⟩ := ih h hp
      exact ⟨hfinite, Nat.le_succ_of_le hlength⟩
    · split at h
      · obtain ⟨hfinite, hlength⟩ := fraction_finite h hp
        exact ⟨hfinite, Nat.le_succ_of_le hlength⟩
      · exact finish_finite h hp

private theorem finite_integer (negative : Bool) {significand : Nat} (h : significand < 2 ^ 64) :
    (integer negative significand).Finite := by
  intro d hd
  unfold integer at hd
  split at hd
  · cases hd
  · split at hd
    · rw [JsonNumber.double.injEq] at hd
      rw [← hd, Double.isFinite_withSign]
      exact Double.isFinite_ofNat h
    · cases hd

theorem integerDigits_finite {negative : Bool} {significand : Nat} {n : JsonNumber}
    (h : integerDigits negative significand cs = .ok (n, rest)) (hp : significand < 2 ^ 64) :
    n.Finite ∧ rest.length ≤ cs.length := by
  have hdouble {read : Double} (hread : read.isFinite) : (JsonNumber.double read).Finite := by
    intro d hd
    cases hd
    exact hread
  induction cs generalizing significand with
  | nil =>
    rw [integerDigits, Except.ok.injEq, Prod.mk.injEq] at h
    obtain ⟨rfl, rfl⟩ := h
    exact ⟨finite_integer negative hp, Nat.le_refl _⟩
  | cons c cs ih =>
    unfold integerDigits at h
    split at h
    · split at h
      · rename_i hfits
        obtain ⟨hfinite, hlength⟩ := ih h (Nat.lt_succ_of_le hfits)
        exact ⟨hfinite, Nat.le_succ_of_le hlength⟩
      · obtain ⟨⟨read, behind⟩, hread, h⟩ := bind_eq_ok_iff.1 h
        cases h
        obtain ⟨hfinite, hlength⟩ := longInteger_finite hread hp
        exact ⟨hdouble hfinite, hlength⟩
    · split at h
      · obtain ⟨⟨read, behind⟩, hread, h⟩ := bind_eq_ok_iff.1 h
        cases h
        obtain ⟨hfinite, hlength⟩ := fraction_finite hread hp
        exact ⟨hdouble hfinite, Nat.le_succ_of_le hlength⟩
      · split at h
        · obtain ⟨⟨read, behind⟩, hread, h⟩ := bind_eq_ok_iff.1 h
          cases h
          obtain ⟨hfinite, hlength⟩ := exponent_finite hread hp
          exact ⟨hdouble hfinite, Nat.le_succ_of_le hlength⟩
        · cases h
          exact ⟨finite_integer negative hp, Nat.le_refl _⟩

private theorem digit?_lt {c : Char} {digit : Nat} (h : digit? c = some digit) : digit < 10 := by
  unfold digit? at h
  split at h
  · cases h
    omega
  · cases h

theorem magnitude_finite {negative : Bool} {n : JsonNumber}
    (h : magnitude negative cs = .ok (n, rest)) : n.Finite ∧ rest.length ≤ cs.length := by
  unfold magnitude at h
  split at h
  · cases h
  · split at h
    · cases h
    · split at h
      · split at h
        · cases h
        · obtain ⟨hfinite, hlength⟩ := integerDigits_finite h (by decide)
          exact ⟨hfinite, Nat.le_succ_of_le hlength⟩
      · obtain ⟨hfinite, hlength⟩ := integerDigits_finite h (by decide)
        exact ⟨hfinite, Nat.le_succ_of_le hlength⟩
    · rename_i digit _ hdigit
      have hsmall := digit?_lt hdigit
      obtain ⟨hfinite, hlength⟩ := integerDigits_finite h (by omega)
      exact ⟨hfinite, Nat.le_succ_of_le hlength⟩

/-! ### Texts -/

/-- Every character of a string takes one character of the text or more. -/
theorem length_string {done : List Char} {stage : Stage} {s : String}
    (h : string done stage cs = .ok (s, rest)) :
    s.length + rest.length ≤ done.length + cs.length := by
  fun_induction string done stage cs
  case case2 done tail =>
    rw [Except.ok.injEq, Prod.mk.injEq] at h
    obtain ⟨rfl, rfl⟩ := h
    simp
  -- Elsewhere the reading fails, or goes on behind one more character.
  all_goals first
    | cases h
    | rename_i ih
      have hlength := ih h
      simp only [List.length_cons] at hlength ⊢
      omega

private theorem length_skip (cs : List Char) : (skip cs).length ≤ cs.length :=
  (List.dropWhile_suffix _).length_le

theorem length_word {expected : List Char} (h : word expected cs = .ok rest) :
    rest.length ≤ cs.length := by
  fun_induction word expected cs with
  | case1 cs =>
    cases h
    exact Nat.le_refl _
  | case2 => cases h
  | case3 expected c cs ih => exact Nat.le_succ_of_le (ih h)
  | case4 => cases h

private theorem utf8ByteSize_le (s : String) : s.utf8ByteSize ≤ 4 * s.length := by
  rw [← String.ofList_toList (s := s), String.length_ofList]
  induction s.toList with
  | nil => exact Nat.le_refl _
  | cons c cs ih =>
    have hc := c.utf8Size_le_four
    rw [String.ofList_cons, String.utf8ByteSize_append, String.utf8ByteSize_singleton,
      List.length_cons]
    omega

/-! ### Values -/

/-- What is read from a text of limited length is proper, and what is left is no longer. -/
private def ReadsProper (limit : Nat) (read : List Char → Except TextFault (Json × List Char)) :
    Prop :=
  ∀ cs json rest, cs.length ≤ limit → read cs = .ok (json, rest) →
    json.Proper ∧ rest.length ≤ limit

variable {limit fuel : Nat}

private theorem proper_text (hlimit : 4 * limit < 2 ^ 64) {s : String} (h : s.length ≤ limit) :
    (Json.text s).Proper := by
  have hsize := utf8ByteSize_le s
  refine .text ?_
  rw [Bytes.length_ofText]
  omega

private theorem value_step (hlimit : 4 * limit < 2 ^ 64)
    (hitems : ∀ depth, ReadsProper limit (items fuel depth []))
    (hmembers : ∀ depth, ReadsProper limit (members fuel depth [])) (depth : Nat) :
    ReadsProper limit (value (fuel + 1) depth) := by
  intro cs json rest hcs h
  have hnumber {negative : Bool} {tail behind : List Char} {n : JsonNumber}
      (htail : tail.length ≤ limit) (hread : magnitude negative tail = .ok (n, behind)) :
      (Json.number n).Proper ∧ behind.length ≤ limit := by
    obtain ⟨hfinite, hlength⟩ := magnitude_finite hread
    exact ⟨.number hfinite, Nat.le_trans hlength htail⟩
  have htail {c : Char} {tail : List Char} (hcs : (c :: tail).length ≤ limit) :
      tail.length ≤ limit := Nat.le_of_succ_le hcs
  unfold value at h
  split at h
  · obtain ⟨behind, hword, h⟩ := bind_eq_ok_iff.1 h
    cases h
    exact ⟨.null, Nat.le_trans (length_word hword) (htail hcs)⟩
  · obtain ⟨behind, hword, h⟩ := bind_eq_ok_iff.1 h
    cases h
    exact ⟨.boolean true, Nat.le_trans (length_word hword) (htail hcs)⟩
  · obtain ⟨behind, hword, h⟩ := bind_eq_ok_iff.1 h
    cases h
    exact ⟨.boolean false, Nat.le_trans (length_word hword) (htail hcs)⟩
  · obtain ⟨⟨s, behind⟩, hstring, h⟩ := bind_eq_ok_iff.1 h
    cases h
    have hlength := length_string hstring
    rw [List.length_nil, Nat.zero_add] at hlength
    have hbound := Nat.le_trans hlength (htail hcs)
    exact ⟨proper_text hlimit (by omega), by omega⟩
  · obtain ⟨⟨n, behind⟩, hread, h⟩ := bind_eq_ok_iff.1 h
    cases h
    exact hnumber (htail hcs) hread
  · rename_i tail
    have hskip := Nat.le_trans (length_skip tail) (htail hcs)
    split at h
    · cases h
    · split at h
      · rename_i behind heq
        cases h
        rw [heq] at hskip
        exact ⟨.list nofun, htail hskip⟩
      · exact hitems _ _ _ _ hskip h
  · rename_i tail
    have hskip := Nat.le_trans (length_skip tail) (htail hcs)
    split at h
    · cases h
    · split at h
      · rename_i behind heq
        cases h
        rw [heq] at hskip
        exact ⟨.object nofun, htail hskip⟩
      · exact hmembers _ _ _ _ hskip h
  · obtain ⟨⟨n, behind⟩, hread, h⟩ := bind_eq_ok_iff.1 h
    cases h
    exact hnumber hcs hread

private theorem items_step (hvalue : ∀ depth, ReadsProper limit (value fuel depth))
    (hitems : ∀ depth done, (∀ item ∈ done, Json.Proper item) →
      ReadsProper limit (items fuel depth done))
    (depth : Nat) {done : List Json} (hdone : ∀ item ∈ done, item.Proper) :
    ReadsProper limit (items (fuel + 1) depth done) := by
  intro cs json rest hcs h
  unfold items at h
  split at h
  · cases h
  · rename_i item behind hread
    obtain ⟨hproper, hbehind⟩ := hvalue _ _ _ _ hcs hread
    have hall : ∀ other ∈ item :: done, other.Proper := by
      rw [List.forall_mem_cons]
      exact ⟨hproper, hdone⟩
    have hskip := Nat.le_trans (length_skip behind) hbehind
    split at h
    · rename_i tail heq
      cases h
      rw [heq] at hskip
      exact ⟨.list fun other hother => hall other (List.mem_reverse.1 hother),
        Nat.le_of_succ_le hskip⟩
    · rename_i tail heq
      rw [heq] at hskip
      exact hitems _ _ hall _ _ _ (Nat.le_trans (length_skip tail) (Nat.le_of_succ_le hskip)) h
    · cases h

private theorem members_step (hvalue : ∀ depth, ReadsProper limit (value fuel depth))
    (hmembers : ∀ depth done, (∀ member ∈ done, Json.Proper member.2) →
      ReadsProper limit (members fuel depth done))
    (depth : Nat) {done : List (String × Json)} (hdone : ∀ member ∈ done, member.2.Proper) :
    ReadsProper limit (members (fuel + 1) depth done) := by
  intro cs json rest hcs h
  unfold members at h
  split at h
  · cases h
  · rename_i depth done _ _ _ _ fuel' tail hfuel
    obtain rfl := Nat.succ.inj hfuel
    split at h
    · cases h
    · rename_i key behind hstring
      have hlength := length_string hstring
      rw [List.length_nil, Nat.zero_add] at hlength
      have hskip := length_skip behind
      rw [List.length_cons] at hcs
      split at h
      · rename_i content heq
        rw [heq, List.length_cons] at hskip
        have hcontent := length_skip content
        split at h
        · cases h
        · rename_i item last hread
          obtain ⟨hproper, hlast⟩ := hvalue _ _ _ _ (by omega) hread
          have hall : ∀ member ∈ (key, item) :: done, member.2.Proper := by
            rw [List.forall_mem_cons]
            exact ⟨hproper, hdone⟩
          have hend := Nat.le_trans (length_skip last) hlast
          split at h
          · rename_i tail heq
            cases h
            rw [heq] at hend
            exact ⟨.object fun member hmember => hall member (List.mem_reverse.1 hmember),
              Nat.le_of_succ_le hend⟩
          · rename_i tail heq
            rw [heq] at hend
            exact hmembers _ _ hall _ _ _
              (Nat.le_trans (length_skip tail) (Nat.le_of_succ_le hend)) h
          · cases h
      · cases h
  · cases h

/-- Induction on the fuel, for values, items and members at once. -/
private theorem reads_proper (hlimit : 4 * limit < 2 ^ 64) (fuel : Nat) :
    (∀ depth, ReadsProper limit (value fuel depth)) ∧
    (∀ depth done, (∀ item ∈ done, Json.Proper item) → ReadsProper limit (items fuel depth done)) ∧
    ∀ depth done, (∀ member ∈ done, Json.Proper member.2) →
      ReadsProper limit (members fuel depth done) := by
  induction fuel with
  | zero =>
    refine ⟨fun depth cs json rest _ h => ?_, fun depth done _ cs json rest _ h => ?_,
      fun depth done _ cs json rest _ h => ?_⟩
    · rw [value] at h
      cases h
    · rw [items] at h
      cases h
    · rw [members] at h
      cases h
  | succ fuel ih =>
    obtain ⟨hvalue, hitems, hmembers⟩ := ih
    exact ⟨value_step hlimit (fun depth => hitems depth [] nofun) fun depth => hmembers depth [] nofun,
      fun depth _ => items_step hvalue hitems depth, fun depth _ => members_step hvalue hmembers depth⟩

end Json.Reader

/-- Values that are read from JSON text are proper. -/
theorem Json.parse_proper {s : String} {json : Json} (h : parse s = .ok json)
    (hsize : 4 * s.length < 2 ^ 64) : json.Proper := by
  unfold parse at h
  dsimp only at h
  split at h
  · cases h
  · rename_i read rest hread
    have hlength : (Reader.skip s.toList).length ≤ s.length :=
      String.length_toList ▸ Reader.length_skip s.toList
    obtain ⟨hproper, -⟩ := (Reader.reads_proper hsize _).1 _ _ _ _ hlength hread
    split at h
    · cases h
      exact hproper
    · cases h

end GraphVault
