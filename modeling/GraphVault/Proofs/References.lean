import GraphVault.Plan
import GraphVault.Proofs.Yields
import Mathlib.Data.List.TakeWhile

/-!
# References of plans

What a reference of a step stands for, as a relation beside the functions that look it up: a guid
that is written out, or the output of an earlier step, whose name ends at the first dot. A step
becomes an instance exactly if it is described, its name is new and its references stand for guids.
-/

namespace GraphVault

/-! ### Guids and dots -/

theorem Hex.value?_of_decode {chars : List Char} {bytes : Bytes} (h : decode chars = some bytes) :
    ∀ c ∈ chars, ∃ n, value? c = some n := by
  induction chars using decode.induct generalizing bytes with
  | case1 => exact nofun
  | case2 => cases h
  | case3 hi lo rest ih =>
    simp only [decode, Option.bind_eq_bind, Option.bind_eq_some_iff] at h
    obtain ⟨high, hhigh, low, hlow, more, hmore, -⟩ := h
    intro c hc
    rcases List.mem_cons.1 hc with rfl | hc
    · exact ⟨high, hhigh⟩
    · rcases List.mem_cons.1 hc with rfl | hc
      · exact ⟨low, hlow⟩
      · exact ih hmore c hc

/-- A text with a dot is no guid. -/
theorem Guid.parse?_of_dot {s : String} (h : '.' ∈ s.toList) : parse? s = none := by
  rw [Option.eq_none_iff_forall_ne_some]
  intro guid hguid
  rw [parse?, Option.bind_eq_bind, Option.bind_eq_some_iff] at hguid
  obtain ⟨bytes, hbytes, -⟩ := hguid
  obtain ⟨n, hn⟩ := Hex.value?_of_decode hbytes '.' h
  have hnone : Hex.value? '.' = none := by decide
  rw [hnone] at hn
  cases hn

namespace Plan

variable {registry : Registry} {scope : Scope} {step : Step} {i : Instance} {guid : Guid}
  {name output reference : String} {steps front back : List Step}
  {planned first later : List PlannedStep}

/-- A text is split at its first dot. -/
theorem splitDot_eq_some_iff {s : String} :
    splitDot s = some (name, output) ↔ s = name ++ "." ++ output ∧ '.' ∉ name.toList := by
  constructor
  · intro h
    have hwhole : s.toList.takeWhile (· ≠ '.') ++ s.toList.dropWhile (· ≠ '.') = s.toList :=
      List.takeWhile_append_dropWhile
    rw [splitDot] at h
    split at h
    · cases h
    rename_i c rest hdrop
    cases h
    have hc : c = '.' := by
      have hstop := List.head?_dropWhile_not (· ≠ '.') s.toList
      rw [hdrop] at hstop
      simpa using hstop
    rw [hdrop, hc] at hwhole
    refine ⟨String.ext ?_, fun hmem => ?_⟩
    · simp only [String.toList_append, String.toList_ofList]
      rw [List.append_assoc]
      exact hwhole.symm
    · rw [String.toList_ofList] at hmem
      simpa using List.mem_takeWhile_imp hmem
  · rintro ⟨rfl, hname⟩
    have hplain : ∀ c ∈ name.toList, decide (c ≠ '.') = true := by
      intro c hc
      exact decide_eq_true fun heq => hname (heq ▸ hc)
    have hchars : (name ++ "." ++ output).toList = name.toList ++ '.' :: output.toList := by simp
    rw [splitDot, hchars, List.takeWhile_append_of_pos hplain, List.dropWhile_append_of_pos hplain]
    simp

/-- An output in scope: that of an earlier step. -/
def Offers (scope : Scope) (name output : String) (guid : Guid) : Prop :=
  ∃ outputs, scope.get? name = some outputs ∧ outputs.get? output = some guid

theorem not_offers_empty : ¬ Offers SortedMap.empty name output guid := by
  rintro ⟨_, hnone, -⟩
  cases hnone

theorem offers_insert_self {outputs : Slots} :
    Offers (scope.insert name outputs) name output guid ↔ outputs.get? output = some guid := by
  simp [Offers]

theorem offers_insert_of_ne {other : String} {outputs : Slots} (h : name ≠ other) :
    Offers (scope.insert other outputs) name output guid ↔ Offers scope name output guid := by
  simp [Offers, SortedMap.get?_insert_of_ne _ _ h]

theorem Offers.ne_of_new {other : String} (h : Offers scope name output guid)
    (hnew : scope.contains other = false) : name ≠ other := by
  rintro rfl
  obtain ⟨outputs, houtputs, -⟩ := h
  rw [SortedMap.contains, houtputs] at hnew
  cases hnew

/-- A reference to a name without a dot is looked up under this name. -/
theorem resolve_dot_iff (hname : '.' ∉ name.toList) :
    resolve scope (name ++ "." ++ output) = .ok guid ↔ Offers scope name output guid := by
  have hparse : Guid.parse? (name ++ "." ++ output) = none := Guid.parse?_of_dot (by simp)
  have hsplit : splitDot (name ++ "." ++ output) = some (name, output) :=
    splitDot_eq_some_iff.2 ⟨rfl, hname⟩
  simp only [resolve, hparse, hsplit, Offers]
  cases scope.get? name with
  | none => simp
  | some outputs => cases hget : outputs.get? output <;> simp [hget]

theorem resolve_of_parse? (h : Guid.parse? reference = some guid) :
    resolve scope reference = .ok guid := by
  rw [resolve, h]

/-- A reference stands for a guid if it is one, or if it is a name without a dot, a dot, and an
output of the step of this name. -/
theorem resolve_eq_ok_iff : resolve scope reference = .ok guid ↔
    Guid.parse? reference = some guid ∨ ∃ name output, reference = name ++ "." ++ output ∧
      '.' ∉ name.toList ∧ Offers scope name output guid := by
  constructor
  · intro h
    cases hparse : Guid.parse? reference with
    | some found =>
      rw [resolve_of_parse? hparse, Except.ok.injEq] at h
      exact .inl (congrArg some h)
    | none =>
      cases hsplit : splitDot reference with
      | none =>
        rw [resolve, hparse] at h
        dsimp only at h
        rw [hsplit] at h
        cases h
      | some parts =>
        obtain ⟨heq, hname⟩ := splitDot_eq_some_iff.1 hsplit
        rw [heq, resolve_dot_iff hname] at h
        exact .inr ⟨_, _, heq, hname, h⟩
  · rintro (h | ⟨name, output, rfl, hname, h⟩)
    · exact resolve_of_parse? h
    · exact (resolve_dot_iff hname).2 h

/-! ### Inputs -/

private theorem resolveInputs_eq_ok {references : List (String × String)}
    {bindings : List (String × Guid)} (h : resolveInputs scope name references = .ok bindings) :
    bindings.map (·.1) = references.map (·.1) ∧ ∀ binding ∈ bindings, ∃ reference,
      (binding.1, reference) ∈ references ∧ resolve scope reference = .ok binding.2 := by
  induction references generalizing bindings with
  | nil =>
    cases h
    exact ⟨rfl, nofun⟩
  | cons entry references ih =>
    obtain ⟨slot, reference⟩ := entry
    rw [resolveInputs] at h
    split at h
    · cases h
    rename_i guid hguid
    obtain ⟨rest, hrest, hbindings⟩ := bind_eq_ok_iff.1 h
    cases hbindings
    obtain ⟨hslots, hresolved⟩ := ih hrest
    refine ⟨congrArg (slot :: ·) hslots, fun binding hbinding => ?_⟩
    cases List.mem_cons.1 hbinding with
    | inl heq =>
      subst heq
      exact ⟨reference, List.mem_cons_self, hguid⟩
    | inr hmem =>
      obtain ⟨reference', hmem', hresolve⟩ := hresolved binding hmem
      exact ⟨reference', List.mem_cons_of_mem _ hmem', hresolve⟩

private theorem exists_resolveInputs (name : String) {references : List (String × String)}
    (h : ∀ entry ∈ references, ∃ guid, resolve scope entry.2 = .ok guid) :
    ∃ bindings, resolveInputs scope name references = .ok bindings := by
  induction references with
  | nil => exact ⟨[], rfl⟩
  | cons entry references ih =>
    obtain ⟨guid, hguid⟩ := h entry List.mem_cons_self
    obtain ⟨bindings, hbindings⟩ := ih fun other hother => h other (List.mem_cons_of_mem entry hother)
    refine ⟨(entry.1, guid) :: bindings, ?_⟩
    simp only [resolveInputs, hguid, hbindings]
    rfl

/-- A reference and a guid that it stands for, or neither. -/
def Bound (scope : Scope) : Option String → Option Guid → Prop :=
  Option.Rel fun reference guid => resolve scope reference = .ok guid

theorem Bound.exists_guid {found : Option Guid} (h : Bound scope (some reference) found) :
    ∃ guid, found = some guid ∧ resolve scope reference = .ok guid := by
  cases h with
  | some hguid => exact ⟨_, rfl, hguid⟩

theorem Bound.exists_reference {found : Option String} (h : Bound scope found (some guid)) :
    ∃ reference, found = some reference ∧ resolve scope reference = .ok guid := by
  cases h with
  | some hguid => exact ⟨_, rfl, hguid⟩

theorem Bound.unique {reference : Option String} {found found' : Option Guid}
    (h : Bound scope reference found) (h' : Bound scope reference found') : found = found' := by
  cases h with
  | none =>
    cases h'
    rfl
  | some hguid =>
    cases h' with
    | some hguid' => exact congrArg some (Except.ok.inj (hguid.symm.trans hguid'))

private theorem bound_ofList {references : SortedMap String String} {bindings : List (String × Guid)}
    (h : resolveInputs scope name references.entries = .ok bindings) (slot : String) :
    Bound scope (references.get? slot) ((SortedMap.ofList bindings).get? slot) := by
  obtain ⟨hslots, hresolved⟩ := resolveInputs_eq_ok h
  have hkeys : bindings.map (·.1) = references.keys := hslots
  have hcontains : (SortedMap.ofList bindings).contains slot = references.contains slot := by
    rw [Bool.eq_iff_iff, SortedMap.contains_ofList_iff, hkeys, SortedMap.mem_keys_iff]
  cases hguid : (SortedMap.ofList bindings).get? slot with
  | none =>
    rw [SortedMap.contains, SortedMap.contains, hguid] at hcontains
    rw [Option.isSome_eq_false_iff.1 hcontains.symm |> Option.isNone_iff_eq_none.1]
    exact .none
  | some guid =>
    obtain ⟨reference, hmem, hresolve⟩ := hresolved _ (SortedMap.mem_of_get?_ofList hguid)
    rw [SortedMap.get?_eq_some_iff.2 hmem]
    exact .some hresolve

/-! ### Steps -/

/-- What becomes of a step where the outputs of a scope can be referred to. -/
structure Becomes (registry : Registry) (scope : Scope) (step : Step) (i : Instance) : Prop where
  described : registry.describe step.className step.params = .ok i.description
  bound : ∀ slot, Bound scope (step.inputs.get? slot) (i.inputs.get? slot)
  derived : i = .derive i.description i.inputs step.outputs

theorem instanceOf_eq_ok_iff : instanceOf registry scope step = .ok i ↔
    scope.contains step.name = false ∧ Becomes registry scope step i := by
  constructor
  · intro h
    simp only [instanceOf] at h
    split at h
    · cases h
    rename_i hname
    simp only [bind_eq_ok_iff] at h
    obtain ⟨description, hdescription, bindings, hbindings, hi⟩ := h
    cases hi
    exact ⟨by simpa using hname, hdescription, bound_ofList hbindings, rfl⟩
  · rintro ⟨hname, hstep⟩
    have hresolved : ∀ entry ∈ step.inputs.entries, ∃ guid, resolve scope entry.2 = .ok guid := by
      intro entry hentry
      have hbound := hstep.bound entry.1
      rw [SortedMap.get?_eq_some_iff.2 hentry] at hbound
      obtain ⟨guid, -, hguid⟩ := hbound.exists_guid
      exact ⟨guid, hguid⟩
    obtain ⟨bindings, hbindings⟩ := exists_resolveInputs step.name hresolved
    have hinputs : SortedMap.ofList bindings = i.inputs :=
      SortedMap.ext fun slot => (bound_ofList hbindings slot).unique (hstep.bound slot)
    simp only [instanceOf, hname, Bool.false_eq_true, if_false]
    refine bind_eq_ok_iff.2 ⟨_, hstep.described, bind_eq_ok_iff.2 ⟨bindings, hbindings, ?_⟩⟩
    rw [hinputs, ← hstep.derived]
    rfl

/-! ### Scopes -/

/-- A scope with the outputs of further steps. -/
def withOutputs (scope : Scope) (planned : List PlannedStep) : Scope :=
  planned.foldl (fun scope p => scope.insert p.name p.planned.outputs) scope

theorem bind_cons_eq_ok_iff : bind registry scope (step :: steps) = .ok planned ↔
    ∃ i later, planned = ⟨step.name, i⟩ :: later ∧ scope.contains step.name = false ∧
      Becomes registry scope step i ∧
      bind registry (scope.insert step.name i.outputs) steps = .ok later := by
  simp only [bind, bind_eq_ok_iff, instanceOf_eq_ok_iff]
  constructor
  · rintro ⟨i, ⟨hname, hstep⟩, later, hlater, heq⟩
    cases heq
    exact ⟨i, later, rfl, hname, hstep, hlater⟩
  · rintro ⟨i, later, rfl, hname, hstep, hlater⟩
    exact ⟨i, ⟨hname, hstep⟩, later, hlater, rfl⟩

/-- Later steps see the outputs of the earlier ones. -/
theorem bind_append_eq_ok_iff : bind registry scope (front ++ back) = .ok planned ↔
    ∃ first later, planned = first ++ later ∧ bind registry scope front = .ok first ∧
      bind registry (withOutputs scope first) back = .ok later := by
  induction front generalizing scope planned with
  | nil =>
    constructor
    · exact fun h => ⟨[], planned, rfl, rfl, h⟩
    · rintro ⟨first, later, rfl, hfirst, hlater⟩
      cases hfirst
      exact hlater
  | cons step front ih =>
    simp only [List.cons_append, bind_cons_eq_ok_iff, ih]
    constructor
    · rintro ⟨i, rest, rfl, hname, hstep, first, later, rfl, hfirst, hlater⟩
      exact ⟨⟨step.name, i⟩ :: first, later, rfl, ⟨i, first, rfl, hname, hstep, hfirst⟩, hlater⟩
    · rintro ⟨first, later, rfl, ⟨i, rest, rfl, hname, hstep, hrest⟩, hlater⟩
      exact ⟨i, rest ++ later, rfl, hname, hstep, rest, later, rfl, hrest, hlater⟩

/-- What is in scope after steps: what was, and their outputs. -/
theorem offers_withOutputs_iff (h : bind registry scope steps = .ok planned) :
    Offers (withOutputs scope planned) name output guid ↔ Offers scope name output guid ∨
      ∃ p ∈ planned, p.name = name ∧ p.planned.outputs.get? output = some guid := by
  induction steps generalizing scope planned with
  | nil =>
    cases h
    simp [withOutputs]
  | cons step steps ih =>
    obtain ⟨i, later, rfl, hnew, -, hlater⟩ := bind_cons_eq_ok_iff.1 h
    have hoffers : Offers (scope.insert step.name i.outputs) name output guid ↔
        Offers scope name output guid ∨ step.name = name ∧ i.outputs.get? output = some guid := by
      by_cases heq : name = step.name
      · subst heq
        have hnone : ¬ Offers scope step.name output guid := fun h => h.ne_of_new hnew rfl
        simp only [offers_insert_self, hnone, true_and, false_or]
      · rw [offers_insert_of_ne heq]
        simp only [Ne.symm heq, false_and, or_false]
    rw [withOutputs, List.foldl_cons, ← withOutputs, ih hlater, hoffers]
    simp only [List.mem_cons, exists_eq_or_imp, or_assoc]

end Plan

end GraphVault
