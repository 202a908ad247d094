import GraphVault.Proofs.StepOutputs
import Mathlib.Data.List.Perm.Basic

/-!
# Step names are only names

What a plan is instantiated to does not depend on how its references are spelled
(`Plan.instances_of_rewritten`): they may be written out as guids, the steps may get other names,
and the steps may come in any order in which every step follows those that it refers to.
-/

namespace GraphVault

namespace SortedMap

universe u v w

variable {κ : Type u} {α : Type v} {β : Type w} [Ord κ]

/-- The map with a new value for every key. -/
def mapValues (m : SortedMap κ α) (f : κ → α → β) : SortedMap κ β :=
  ⟨m.entries.map fun entry => (entry.1, f entry.1 entry.2), List.pairwise_map.2 m.sorted⟩

private theorem find_map [Std.LawfulEqOrd κ] (f : κ → α → β) (k : κ) (entries : List (κ × α)) :
    find k (entries.map fun entry => (entry.1, f entry.1 entry.2)) = (find k entries).map (f k) := by
  induction entries with
  | nil => rfl
  | cons entry entries ih =>
    obtain ⟨key, a⟩ := entry
    rw [List.map_cons, find, find]
    cases hcompare : compare k key with
    | lt => rfl
    | eq =>
      rw [Std.LawfulEqCmp.eq_of_compare hcompare]
      rfl
    | gt => exact ih

theorem get?_mapValues [Std.LawfulEqOrd κ] (m : SortedMap κ α) (f : κ → α → β) (k : κ) :
    (m.mapValues f).get? k = (m.get? k).map (f k) := find_map f k m.entries

theorem contains_insert_self [Std.TransOrd κ] [Std.LawfulEqOrd κ] (m : SortedMap κ α) (k : κ)
    (a : α) : (m.insert k a).contains k = true := by
  rw [contains, get?_insert_self]
  rfl

theorem contains_insert_of_ne [Std.TransOrd κ] [Std.LawfulEqOrd κ] (m : SortedMap κ α) {key k : κ}
    (a : α) (h : k ≠ key) : (m.insert key a).contains k = m.contains k := by
  rw [contains, get?_insert_of_ne _ _ h, contains]

end SortedMap

/-! ### Rewriting plans -/

/-- A step with the guids of an instance written out for the chosen inputs. -/
def Step.pin (chosen : String → Bool) (i : Instance) (step : Step) : Step :=
  { step with inputs := step.inputs.mapValues fun slot reference =>
      if chosen slot then (i.inputs.get? slot).elim reference Guid.text else reference }

/-- A reference to an output of a step that gets another name. -/
def Plan.renameReference (newName : String → String) (reference : String) : String :=
  match splitDot reference with
  | some (name, output) => newName name ++ "." ++ output
  | none => reference

/-- A step with another name, in which references follow the new names. -/
def Step.rename (newName : String → String) (step : Step) : Step :=
  { step with
    name := newName step.name
    inputs := step.inputs.mapValues fun _ => Plan.renameReference newName }

namespace Plan

variable {registry : Registry} {scope scope' : Scope} {step : Step} {i : Instance} {guid : Guid}
  {name output reference : String} {newName : String → String} {steps order earlier : List Step}
  {plan : Plan} {planned made : List PlannedStep}

/-- A plan with the chosen references replaced by the guids that they stand for. -/
def pin (chosen : String → String → Bool) (planned : List PlannedStep) (plan : Plan) : Plan :=
  ⟨List.zipWith (fun step p => step.pin (chosen step.name) p.planned) plan.steps planned⟩

/-- A plan whose steps have other names. -/
def rename (newName : String → String) (plan : Plan) : Plan := ⟨plan.steps.map (·.rename newName)⟩

/-- All references of a step are guids, or outputs of the given steps. -/
def RefersTo (earlier : List Step) (step : Step) : Prop :=
  ∀ slot reference, step.inputs.get? slot = some reference →
    (∃ guid, Guid.parse? reference = some guid) ∨
      ∃ other ∈ earlier, ∃ output, reference = other.name ++ "." ++ output

/-- Steps that only refer to steps before them. -/
def PointsBackward : List Step → List Step → Prop
  | _, [] => True
  | earlier, step :: rest => RefersTo earlier step ∧ PointsBackward (earlier ++ [step]) rest

/-! ### References -/

/-- What a rewritten reference is bound to where it stands for the same guid. -/
theorem Bound.map {found : Option String} {target : Option Guid} (h : Bound scope found target)
    (f : String → String) (hf : ∀ reference guid, found = some reference → target = some guid →
      resolve scope reference = .ok guid → resolve scope' (f reference) = .ok guid) :
    Bound scope' (found.map f) target := by
  cases h with
  | none => exact .none
  | some hguid => exact .some (hf _ _ rfl rfl hguid)

theorem Becomes.pin (h : Becomes registry scope step i) (chosen : String → Bool) :
    Becomes registry scope (step.pin chosen i) i := by
  refine ⟨h.described, fun slot => ?_, h.derived⟩
  rw [Step.pin, SortedMap.get?_mapValues]
  refine (h.bound slot).map _ fun reference guid _ htarget hguid => ?_
  rw [htarget]
  split
  · exact resolve_of_parse? (Guid.parse?_text guid)
  · exact hguid

/-- What can be referred to in a scope can be referred to in another one under new names. -/
def Follows (newName : String → String) (scope scope' : Scope) : Prop :=
  ∀ name output guid, Offers scope name output guid →
    '.' ∉ (newName name).toList ∧ Offers scope' (newName name) output guid

theorem Follows.resolve (h : Follows newName scope scope')
    (hguid : resolve scope reference = .ok guid) :
    resolve scope' (renameReference newName reference) = .ok guid := by
  obtain hparse | ⟨name, output, rfl, hname, hoffers⟩ := resolve_eq_ok_iff.1 hguid
  · have hsplit : splitDot reference = none := by
      rw [Option.eq_none_iff_forall_ne_some]
      rintro ⟨name, output⟩ hsplit
      rw [(splitDot_eq_some_iff.1 hsplit).1, Guid.parse?_of_dot (by simp)] at hparse
      cases hparse
    rw [renameReference, hsplit]
    exact resolve_of_parse? hparse
  · obtain ⟨hname', hoffers'⟩ := h name output guid hoffers
    rw [renameReference, splitDot_eq_some_iff.2 ⟨rfl, hname⟩]
    exact (resolve_dot_iff hname').2 hoffers'

theorem Becomes.rename (h : Becomes registry scope step i) (hfollows : Follows newName scope scope') :
    Becomes registry scope' (step.rename newName) i := by
  refine ⟨h.described, fun slot => ?_, h.derived⟩
  rw [Step.rename, SortedMap.get?_mapValues]
  exact (h.bound slot).map _ fun _ _ _ _ hguid => hfollows.resolve hguid

theorem Follows.insert (h : Follows newName scope scope') (outputs : Slots)
    (hname : '.' ∉ (newName name).toList) (hnew : scope'.contains (newName name) = false) :
    Follows newName (scope.insert name outputs) (scope'.insert (newName name) outputs) := by
  intro other output guid hoffers
  by_cases heq : other = name
  · subst heq
    rw [offers_insert_self] at hoffers
    exact ⟨hname, offers_insert_self.2 hoffers⟩
  · rw [offers_insert_of_ne heq] at hoffers
    obtain ⟨hother, hoffers'⟩ := h other output guid hoffers
    exact ⟨hother, (offers_insert_of_ne (hoffers'.ne_of_new hnew)).2 hoffers'⟩

/-! ### Steps with written out guids and with new names -/

theorem bind_pin (chosen : String → String → Bool) (h : bind registry scope steps = .ok planned) :
    bind registry scope
      (List.zipWith (fun step p => step.pin (chosen step.name) p.planned) steps planned)
        = .ok planned := by
  induction steps generalizing scope planned with
  | nil =>
    cases h
    rfl
  | cons step steps ih =>
    obtain ⟨i, later, rfl, hnew, hbecomes, hlater⟩ := bind_cons_eq_ok_iff.1 h
    exact bind_cons_eq_ok_iff.2
      ⟨i, later, rfl, hnew, hbecomes.pin (chosen step.name), ih hlater⟩

/-- Names that are new stay so when a name is taken that is none of them. -/
private theorem new_of_insert {name : Step → String} (outputs : Slots)
    (hdistinct : name step ∉ steps.map name)
    (hnew : ∀ other ∈ steps, scope.contains (name other) = false) :
    ∀ other ∈ steps, (scope.insert (name step) outputs).contains (name other) = false := by
  intro other hother
  have hne : name other ≠ name step := fun heq => hdistinct (List.mem_map.2 ⟨other, hother, heq⟩)
  rw [SortedMap.contains_insert_of_ne _ _ hne]
  exact hnew other hother

theorem bind_rename (h : bind registry scope steps = .ok planned)
    (hfollows : Follows newName scope scope')
    (hnew : ∀ step ∈ steps, scope'.contains (newName step.name) = false)
    (hnodup : (steps.map fun step => newName step.name).Nodup)
    (hdots : ∀ step ∈ steps, '.' ∉ (newName step.name).toList) :
    bind registry scope' (steps.map (·.rename newName))
      = .ok (planned.map fun p => ⟨newName p.name, p.planned⟩) := by
  induction steps generalizing scope scope' planned with
  | nil =>
    cases h
    rfl
  | cons step steps ih =>
    obtain ⟨i, later, rfl, -, hbecomes, hlater⟩ := bind_cons_eq_ok_iff.1 h
    obtain ⟨hdistinct, hnodup⟩ := List.nodup_cons.1 hnodup
    obtain ⟨hfirst, hnew⟩ := List.forall_mem_cons.1 hnew
    obtain ⟨hdot, hdots⟩ := List.forall_mem_cons.1 hdots
    have hfollows' := hfollows.insert i.outputs hdot hfirst
    exact bind_cons_eq_ok_iff.2 ⟨i, _, rfl, hfirst, hbecomes.rename hfollows,
      ih hlater hfollows' (new_of_insert i.outputs hdistinct hnew) hnodup hdots⟩

/-! ### Steps in another order -/

/-- A step becomes the same wherever its references stand for the same. -/
theorem Becomes.of_resolves (h : Becomes registry scope step i)
    (hresolves : ∀ slot reference guid, step.inputs.get? slot = some reference →
      resolve scope reference = .ok guid → resolve scope' reference = .ok guid) :
    Becomes registry scope' step i := by
  refine ⟨h.described, fun slot => ?_, h.derived⟩
  have hbound := (h.bound slot).map id fun reference guid hreference _ hguid =>
    hresolves slot reference guid hreference hguid
  rwa [Option.map_id] at hbound

theorem Becomes.mono (h : Becomes registry scope step i) (hscope : ∀ name output guid,
      Offers scope name output guid → Offers scope' name output guid) :
    Becomes registry scope' step i := by
  refine h.of_resolves fun _ reference guid _ hguid => ?_
  obtain hparse | ⟨name, output, heq, hname, hoffers⟩ := resolve_eq_ok_iff.1 hguid
  · exact resolve_of_parse? hparse
  · exact resolve_eq_ok_iff.2 (.inr ⟨name, output, heq, hname, hscope name output guid hoffers⟩)

theorem Becomes.of_refersTo (h : Becomes registry scope step i) (hrefers : RefersTo earlier step)
    (hdots : ∀ other ∈ earlier, '.' ∉ other.name.toList)
    (hscope : ∀ other ∈ earlier, ∀ output guid, Offers scope other.name output guid →
      Offers scope' other.name output guid) : Becomes registry scope' step i := by
  refine h.of_resolves fun slot reference guid hreference hguid => ?_
  obtain ⟨found, hfound⟩ | ⟨other, hother, output, rfl⟩ := hrefers slot reference hreference
  · rw [resolve_of_parse? hfound] at hguid
    exact (resolve_of_parse? hfound).trans hguid
  · rw [resolve_dot_iff (hdots other hother)] at hguid
    exact (resolve_dot_iff (hdots other hother)).2 (hscope other hother output guid hguid)

/-- The names of steps that become instances are all different, and new. -/
theorem names_bind (h : bind registry scope steps = .ok planned) :
    planned.map (·.name) = steps.map (·.name) ∧ (steps.map (·.name)).Nodup ∧
      ∀ step ∈ steps, scope.contains step.name = false := by
  induction steps generalizing scope planned with
  | nil =>
    cases h
    exact ⟨rfl, List.nodup_nil, nofun⟩
  | cons step steps ih =>
    obtain ⟨i, later, rfl, hnew, -, hlater⟩ := bind_cons_eq_ok_iff.1 h
    obtain ⟨hnames, hnodup, hnew'⟩ := ih hlater
    have hother : ∀ other ∈ steps, other.name ≠ step.name ∧ scope.contains other.name = false := by
      intro other hmem
      have hcontains := hnew' other hmem
      have hne : other.name ≠ step.name := by
        intro heq
        rw [heq, SortedMap.contains_insert_self] at hcontains
        cases hcontains
      rw [SortedMap.contains_insert_of_ne _ _ hne] at hcontains
      exact ⟨hne, hcontains⟩
    refine ⟨congrArg (step.name :: ·) hnames, List.nodup_cons.2 ⟨?_, hnodup⟩,
      List.forall_mem_cons.2 ⟨hnew, fun other hmem => (hother other hmem).2⟩⟩
    rintro hmem
    obtain ⟨other, hmem, heq⟩ := List.mem_map.1 hmem
    exact (hother other hmem).1 heq

/-- What a step has become where the outputs of all steps can be referred to. -/
structure Settled (registry : Registry) (env : Scope) (step : Step) (p : PlannedStep) : Prop where
  name : p.name = step.name
  becomes : Becomes registry env step p.planned
  outputs : ∀ output guid, Offers env step.name output guid →
    p.planned.outputs.get? output = some guid

theorem settled_bind (h : bind registry scope steps = .ok planned) :
    List.Forall₂ (Settled registry (withOutputs scope planned)) steps planned := by
  induction steps generalizing scope planned with
  | nil =>
    cases h
    exact .nil
  | cons step steps ih =>
    have hoffers {name output : String} {guid : Guid} (hguid : Offers scope name output guid) :
        Offers (withOutputs scope planned) name output guid :=
      (offers_withOutputs_iff h).2 (.inl hguid)
    obtain ⟨i, later, rfl, hnew, hbecomes, hlater⟩ := bind_cons_eq_ok_iff.1 h
    refine .cons ⟨rfl, hbecomes.mono fun _ _ _ => hoffers, fun output guid hguid => ?_⟩ (ih hlater)
    obtain hinsert | ⟨p, hp, hname, -⟩ := (offers_withOutputs_iff hlater).1 hguid
    · exact offers_insert_self.1 hinsert
    · obtain ⟨hnames, -, hnew'⟩ := names_bind hlater
      have hlisted : step.name ∈ steps.map (·.name) :=
        hnames ▸ List.mem_map.2 ⟨p, hp, hname⟩
      obtain ⟨other, hother, heq⟩ := List.mem_map.1 hlisted
      have hcontains := hnew' other hother
      rw [heq, SortedMap.contains_insert_self] at hcontains
      cases hcontains

/-- Steps that only refer to steps before them become what they are among all steps. -/
theorem bind_of_settled {env : Scope} (hsettled : List.Forall₂ (Settled registry env) order made)
    (hpoints : PointsBackward earlier order)
    (hdots : ∀ step ∈ earlier ++ order, '.' ∉ step.name.toList)
    (hnew : ∀ step ∈ order, scope.contains step.name = false)
    (hnodup : (order.map (·.name)).Nodup)
    (hscope : ∀ other ∈ earlier, ∀ output guid, Offers env other.name output guid →
      Offers scope other.name output guid) :
    bind registry scope order = .ok made := by
  induction hsettled generalizing earlier scope with
  | nil => rfl
  | @cons step p order made hfirst _ ih =>
    obtain ⟨name, i⟩ := p
    obtain rfl : name = step.name := hfirst.name
    obtain ⟨hrefers, hpoints⟩ := hpoints
    obtain ⟨hfirstNew, hnew⟩ := List.forall_mem_cons.1 hnew
    obtain ⟨hdistinct, hnodup⟩ := List.nodup_cons.1 hnodup
    have hbecomes : Becomes registry scope step i := hfirst.becomes.of_refersTo hrefers
      (fun other hother => hdots other (List.mem_append_left _ hother)) hscope
    have hnew' := new_of_insert i.outputs hdistinct hnew
    have hscope' : ∀ other ∈ earlier ++ [step], ∀ output guid, Offers env other.name output guid →
        Offers (scope.insert step.name i.outputs) other.name output guid := by
      intro other hother output guid hguid
      rcases List.mem_append.1 hother with hother | hother
      · have hoffers := hscope other hother output guid hguid
        exact (offers_insert_of_ne (hoffers.ne_of_new hfirstNew)).2 hoffers
      · rw [List.mem_singleton.1 hother] at hguid ⊢
        exact offers_insert_self.2 (hfirst.outputs output guid hguid)
    rw [List.append_cons] at hdots
    exact bind_cons_eq_ok_iff.2
      ⟨i, made, rfl, hfirstNew, hbecomes, ih hpoints hdots hnew' hnodup hscope'⟩

/-! ### Rewritten plans -/

/-- Step names are only names. A plan becomes the same instances if any of its references are
written out as the guids that they stand for, and if its steps get other names without dots and its
references follow; steps in any other order that only refer to steps before them become the same
instances, in that order. -/
theorem instances_of_rewritten (h : plan.instantiate registry = .ok planned) :
    (∀ chosen, (plan.pin chosen planned).instantiate registry = .ok planned) ∧
    (∀ newName : String → String, (plan.steps.map fun step => newName step.name).Nodup →
      (∀ step ∈ plan.steps, '.' ∉ (newName step.name).toList) →
      (plan.rename newName).instantiate registry
        = .ok (planned.map fun p => ⟨newName p.name, p.planned⟩)) ∧
    ∀ order : List Step, order.Perm plan.steps → (∀ step ∈ order, '.' ∉ step.name.toList) →
      PointsBackward [] order → ∃ made, instantiate ⟨order⟩ registry = .ok made ∧
        made.Perm planned ∧ made.map (·.name) = order.map (·.name) := by
  refine ⟨fun chosen => bind_pin chosen h, fun newName hnodup hdots => ?_,
    fun order hperm hdots hpoints => ?_⟩
  · have hfollows : Follows newName SortedMap.empty SortedMap.empty :=
      fun _ _ _ hoffers => absurd hoffers not_offers_empty
    exact bind_rename h hfollows (fun _ _ => rfl) hnodup hdots
  · obtain ⟨-, hnodup, -⟩ := names_bind h
    obtain ⟨made, hsettled, hmade⟩ := List.perm_comp_forall₂ hperm (settled_bind h)
    have hbind : bind registry SortedMap.empty order = .ok made :=
      bind_of_settled hsettled hpoints hdots (fun _ _ => rfl)
        ((hperm.map _).nodup_iff.2 hnodup) nofun
    exact ⟨made, hbind, hmade, (names_bind hbind).1⟩

/-- Two graphs and a column over the vertices of the first. -/
def tagPlan : Plan := ⟨[vertexStep "graph", vertexStep "copy", tagStep "graph"]⟩

/-- The steps of the plan as instances. -/
def tagPlanned : List PlannedStep :=
  [⟨"graph", vertexInstance⟩, ⟨"copy", vertexInstance⟩, ⟨"tags", tagInstance⟩]

private theorem instantiate_tagPlan : tagPlan.instantiate Registry.builtin = .ok tagPlanned := by
  have hgraphs : bind Registry.builtin SortedMap.empty [vertexStep "graph", vertexStep "copy"]
      = .ok [⟨"graph", vertexInstance⟩, ⟨"copy", vertexInstance⟩] :=
    bind_cons_eq_ok_iff.2 ⟨_, _, rfl, rfl, becomes_vertexStep _ _, bind_cons_eq_ok_iff.2
      ⟨_, _, rfl, by decide +kernel, becomes_vertexStep _ _, rfl⟩⟩
  have hvertices : Offers (withOutputs SortedMap.empty
        [⟨"graph", vertexInstance⟩, ⟨"copy", vertexInstance⟩]) "graph" "vertices"
      (Derivation.outputGuid vertexInstance.guid "vertices") :=
    (offers_withOutputs_iff hgraphs).2 (.inr ⟨_, List.mem_cons_self, rfl,
      (becomes_vertexStep SortedMap.empty "graph").get?_outputs (List.mem_singleton_self _)⟩)
  have htags := becomes_tagStep ((resolve_dot_iff (by decide)).2 hvertices)
  exact bind_append_eq_ok_iff.2
    ⟨_, _, rfl, hgraphs, bind_cons_eq_ok_iff.2 ⟨_, _, rfl, by decide +kernel, htags, rfl⟩⟩

theorem instances_of_rewritten_tagPlan :
    tagPlan.instantiate Registry.builtin = .ok tagPlanned ∧
      (tagPlan.pin (fun _ _ => true) tagPlanned).instantiate Registry.builtin = .ok tagPlanned ∧
      (tagPlan.rename (· ++ "2")).instantiate Registry.builtin
        = .ok (tagPlanned.map fun p => ⟨p.name ++ "2", p.planned⟩) ∧
      ∃ made, instantiate ⟨[vertexStep "copy", vertexStep "graph", tagStep "graph"]⟩
          Registry.builtin = .ok made ∧ made.Perm tagPlanned ∧
        made.map (·.name) = ["copy", "graph", "tags"] := by
  obtain ⟨hpin, hrename, hreorder⟩ := instances_of_rewritten instantiate_tagPlan
  have hvertexStep (earlier : List Step) (name : String) : RefersTo earlier (vertexStep name) :=
    fun _ _ => nofun
  have htagStep : RefersTo [vertexStep "copy", vertexStep "graph"] (tagStep "graph") := by
    intro slot reference hreference
    cases List.mem_singleton.1 (SortedMap.mem_of_get?_ofList hreference)
    exact .inr ⟨vertexStep "graph", List.mem_cons_of_mem _ List.mem_cons_self, "vertices", rfl⟩
  refine ⟨instantiate_tagPlan, hpin _, hrename _ (by decide) (by decide), ?_⟩
  exact hreorder [vertexStep "copy", vertexStep "graph", tagStep "graph"] (.swap _ _ _) (by decide)
    ⟨hvertexStep _ _, hvertexStep _ _, htagStep, trivial⟩

end Plan

end GraphVault
