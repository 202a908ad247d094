import GraphVault.Proofs.Graphs
import Mathlib.Data.List.Nodup
import Mathlib.Data.List.Perm.Subperm

/-!
# Waves

Layering a graph counts down what every instance waits for, and never loses count: each wave takes
those instances, none of them done, that depend on nothing but what is done. So where dependencies
are well-founded, every instance comes in a wave (`Dag.waves_layered`).
-/

namespace GraphVault

namespace Dag

variable {dag : Dag} {listed : List Instance} {i : Instance} {guid other : Guid}
  {done wave : List Guid} {pending : SortedMap Guid Nat}

/-! ### Dependencies -/

theorem mem_dependencies_iff : guid ∈ dag.dependencies i ↔
    ∃ input ∈ i.inputs.values, dag.producers.get? input = some guid := by
  rw [dependencies, SortedMap.mem_keys_iff, SortedMap.contains_ofList_iff]
  simp [List.mem_filterMap]

theorem nodup_dependencies (dag : Dag) (i : Instance) : (dag.dependencies i).Nodup :=
  SortedMap.nodup_keys _

theorem mem_dependents_iff : other ∈ dag.dependents guid ↔
    ∃ i, dag.instances.get? other = some i ∧ guid ∈ dag.dependencies i := by
  simp only [dependents, List.mem_filterMap, SortedMap.get?_eq_some_iff]
  constructor
  · rintro ⟨⟨key, i⟩, hentry, hkey⟩
    split at hkey
    · rename_i hdepends
      cases hkey
      exact ⟨i, hentry, hdepends⟩
    · cases hkey
  · rintro ⟨i, hentry, hdepends⟩
    exact ⟨(other, i), hentry, if_pos hdepends⟩

private theorem nodup_dependents (dag : Dag) (guid : Guid) : (dag.dependents guid).Nodup := by
  refine dag.instances.sorted.filterMap _ fun a b hlt x hx y hy heq => ?_
  dsimp only at hx hy
  split at hx <;> cases hx
  split at hy <;> cases hy
  rw [heq] at hlt
  simp at hlt

/-- How many dependencies of an instance are not done. -/
def remaining (dag : Dag) (done : List Guid) (i : Instance) : Nat :=
  (dag.dependencies i).countP (· ∉ done)

theorem remaining_eq_zero_iff :
    dag.remaining done i = 0 ↔ ∀ d ∈ dag.dependencies i, d ∈ done := by
  simp [remaining, List.countP_eq_zero]

private theorem countP_mem_comm {α : Type} [DecidableEq α] {xs ys : List α} (hx : xs.Nodup)
    (hy : ys.Nodup) : xs.countP (· ∈ ys) = ys.countP (· ∈ xs) := by
  have hperm : (xs.filter (· ∈ ys)).Perm (ys.filter (· ∈ xs)) := by
    rw [List.perm_ext_iff_of_nodup (hx.filter _) (hy.filter _)]
    simp [and_comm]
  rw [List.countP_eq_length_filter, List.countP_eq_length_filter, hperm.length_eq]

/-- What is done of an instance's dependencies is not counted any more. -/
theorem remaining_append (hwave : wave.Nodup) (hnew : ∀ d ∈ wave, d ∉ done) :
    dag.remaining done i
      = dag.remaining (done ++ wave) i + wave.countP (· ∈ dag.dependencies i) := by
  have hsplit (ds : List Guid) : ds.countP (· ∉ done)
      = ds.countP (· ∉ done ++ wave) + ds.countP (· ∈ wave) := by
    induction ds with
    | nil => rfl
    | cons d ds ih =>
      have hd := hnew d
      simp only [List.countP_cons, ih]
      by_cases hdone : d ∈ done <;> by_cases hmem : d ∈ wave <;> simp_all <;> omega
  rw [remaining, hsplit, countP_mem_comm (nodup_dependencies dag i) hwave]
  rfl

/-! ### Progress -/

private theorem pending_release (progress : Progress) (event guid : Guid) :
    (progress.release event).pending.get? guid
      = (progress.pending.get? guid).map (· - [event].count guid) := by
  unfold Progress.release
  split
  · rename_i hnone
    by_cases heq : guid = event
    · simp [heq, hnone]
    · simp [Ne.symm heq]
  · rename_i count hcount
    by_cases heq : guid = event
    · simp [heq, hcount]
    · simp [SortedMap.get?_insert_of_ne _ _ heq, Ne.symm heq]

private theorem ready_release (progress : Progress) (event guid : Guid) :
    (progress.release event).ready.contains guid ↔ progress.ready.contains guid ∨
      guid = event ∧ ∃ count, progress.pending.get? guid = some count ∧ count ≤ 1 := by
  unfold Progress.release
  split
  · rename_i hnone
    constructor
    · exact .inl
    · rintro (hready | ⟨rfl, count, hcount, -⟩)
      · exact hready
      · rw [hnone] at hcount
        cases hcount
  · rename_i count hcount
    by_cases heq : guid = event
    · subst heq
      by_cases hzero : count - 1 = 0
      · have hle : count ≤ 1 := by omega
        simp [hzero, hcount, hle, SortedMap.contains]
      · have hlt : ¬ count ≤ 1 := by omega
        simp [hzero, hcount, hlt]
    · by_cases hzero : count - 1 = 0
      · simp [hzero, heq, SortedMap.contains, SortedMap.get?_insert_of_ne _ _ heq]
      · simp [hzero, heq]

private theorem pending_foldl (events : List Guid) (progress : Progress) (guid : Guid) :
    (events.foldl Progress.release progress).pending.get? guid
      = (progress.pending.get? guid).map (· - events.count guid) := by
  induction events generalizing progress with
  | nil => simp
  | cons event events ih =>
    have hcount : (event :: events).count guid = [event].count guid + events.count guid := by
      rw [← List.count_append, List.singleton_append]
    rw [List.foldl_cons, ih, pending_release, Option.map_map, hcount]
    congr 1
    funext count
    exact Nat.sub_sub _ _ _

private theorem ready_foldl (events : List Guid) (progress : Progress) (guid : Guid) :
    (events.foldl Progress.release progress).ready.contains guid ↔
      progress.ready.contains guid ∨ guid ∈ events ∧
        ∃ count, progress.pending.get? guid = some count ∧ count ≤ events.count guid := by
  induction events generalizing progress with
  | nil => simp
  | cons event events ih =>
    rw [List.foldl_cons, ih, ready_release, pending_release]
    cases hcount : progress.pending.get? guid with
    | none => simp
    | some count =>
      have hmem : guid ∈ events ↔ 0 < events.count guid := List.count_pos_iff.symm
      by_cases heq : guid = event
      · subst heq
        simp only [hmem, List.count_cons_self, List.mem_cons, true_or, true_and, Option.map_some,
          Option.some.injEq, exists_eq_left', or_assoc, List.count_nil, Nat.zero_add]
        apply or_congr_right
        omega
      · simp [heq, Ne.symm heq]

/-- Every dependency that a wave takes off an instance is an event of its own. -/
private theorem count_events (hi : dag.instances.get? guid = some i) (wave : List Guid) :
    (wave.flatMap dag.dependents).count guid = wave.countP (· ∈ dag.dependencies i) := by
  have hmem (d : Guid) : guid ∈ dag.dependents d ↔ d ∈ dag.dependencies i := by
    rw [mem_dependents_iff, hi]
    simp
  induction wave with
  | nil => rfl
  | cons d wave ih =>
    rw [List.flatMap_cons, List.count_append, ih, List.countP_cons, Nat.add_comm,
      (nodup_dependents dag d).count]
    simp [hmem]

/-! ### Layers -/

/-- A wave of just those instances, in order, that are ready once others are done. -/
structure Ready (dag : Dag) (done wave : List Guid) : Prop where
  mem_iff : ∀ guid, guid ∈ wave ↔ guid ∉ done ∧
    ∃ i, dag.instances.get? guid = some i ∧ ∀ d ∈ dag.dependencies i, d ∈ done
  increasing : wave.Pairwise fun a b => compare a b = .lt

theorem Ready.nodup (h : dag.Ready done wave) : wave.Nodup :=
  h.increasing.imp fun hlt heq => by simp [heq] at hlt

/-- Waves that take what is ready, until nothing is. -/
def Layered (dag : Dag) : List Guid → List (List Guid) → Prop
  | done, [] => dag.Ready done []
  | done, wave :: waves => wave ≠ [] ∧ dag.Ready done wave ∧ Layered dag (done ++ wave) waves

/-- The state between two waves. -/
structure Stage (dag : Dag) (done wave : List Guid) (pending : SortedMap Guid Nat) : Prop where
  pending : ∀ guid, pending.get? guid = (dag.instances.get? guid).map (dag.remaining done)
  ready : dag.Ready done wave
  nodup : done.Nodup
  closed : ∀ guid ∈ done, ∃ i, dag.instances.get? guid = some i ∧
    ∀ d ∈ dag.dependencies i, d ∈ done

private theorem ready_keys {ready : SortedMap Guid Unit}
    (h : ∀ guid, ready.contains guid ↔ guid ∉ done ∧
      ∃ i, dag.instances.get? guid = some i ∧ ∀ d ∈ dag.dependencies i, d ∈ done) :
    dag.Ready done ready.keys := by
  constructor
  · intro guid
    rw [SortedMap.mem_keys_iff, h]
  · exact List.pairwise_map.2 ready.sorted

/-- What is done or ready waits for nothing. -/
private theorem Stage.dependencies_subset (h : dag.Stage done wave pending)
    (hguid : guid ∈ done ++ wave) :
    ∃ i, dag.instances.get? guid = some i ∧ ∀ d ∈ dag.dependencies i, d ∈ done := by
  cases List.mem_append.1 hguid with
  | inl hdone => exact h.closed guid hdone
  | inr hwave => exact ((h.ready.mem_iff guid).1 hwave).2

/-- What is neither done nor ready waits for something. -/
private theorem Stage.remaining_pos_iff (h : dag.Stage done wave pending)
    (hi : dag.instances.get? guid = some i) :
    0 < dag.remaining done i ↔ guid ∉ done ++ wave := by
  constructor
  · intro hpos hin
    obtain ⟨j, hj, hdependencies⟩ := h.dependencies_subset hin
    rw [hi, Option.some.injEq] at hj
    subst hj
    rw [remaining_eq_zero_iff.2 hdependencies] at hpos
    cases hpos
  · intro hout
    refine Nat.pos_of_ne_zero fun hzero => hout ?_
    by_cases hdone : guid ∈ done
    · exact List.mem_append_left _ hdone
    · refine List.mem_append_right _ ((h.ready.mem_iff guid).2 ⟨hdone, i, hi, ?_⟩)
      exact remaining_eq_zero_iff.1 hzero

/-- A wave leads to the next one. -/
theorem Stage.advance (h : dag.Stage done wave pending) :
    dag.Stage (done ++ wave) (dag.advance pending wave).ready.keys
      (dag.advance pending wave).pending := by
  have hnew : ∀ d ∈ wave, d ∉ done := fun d hd => ((h.ready.mem_iff d).1 hd).1
  have hremaining (i : Instance) : dag.remaining done i
      = dag.remaining (done ++ wave) i + wave.countP (· ∈ dag.dependencies i) :=
    remaining_append h.ready.nodup hnew
  constructor
  case pending =>
    intro guid
    rw [Dag.advance, pending_foldl, h.pending]
    cases hi : dag.instances.get? guid with
    | none => rfl
    | some i =>
      rw [Option.map_some, Option.map_some, Option.map_some, count_events hi, hremaining i,
        Nat.add_sub_cancel]
  case ready =>
    apply ready_keys
    intro guid
    rw [Dag.advance, ready_foldl, h.pending]
    cases hi : dag.instances.get? guid with
    | none => simp [SortedMap.contains]
    | some i =>
      have hcount := count_events hi wave
      have hmem : guid ∈ wave.flatMap dag.dependents ↔
          0 < wave.countP (· ∈ dag.dependencies i) := by
        rw [← hcount, List.count_pos_iff]
      have hstep := hremaining i
      -- what has been ready before waits for nothing, so that nothing is taken off it
      simp only [SortedMap.contains, SortedMap.get?_empty, Option.isSome_none, Bool.false_eq_true,
        false_or, Option.map_some, Option.some.injEq, exists_eq_left', hcount, hmem,
        ← h.remaining_pos_iff hi, ← remaining_eq_zero_iff]
      omega
  case nodup =>
    rw [List.nodup_append]
    exact ⟨h.nodup, h.ready.nodup, fun x hx y hy heq => hnew y hy (heq ▸ hx)⟩
  case closed =>
    intro guid hguid
    obtain ⟨i, hi, hdependencies⟩ := h.dependencies_subset hguid
    exact ⟨i, hi, fun d hd => List.mem_append_left _ (hdependencies d hd)⟩

/-- Whatever a wave takes off an instance is there to be taken. -/
theorem Stage.pending_pos (h : dag.Stage done wave pending) {front back : List Guid}
    (hevents : wave.flatMap dag.dependents = front ++ guid :: back) :
    ∃ count, (front.foldl Progress.release ⟨pending, SortedMap.empty⟩).pending.get? guid
      = some (count + 1) := by
  have hmem : guid ∈ wave.flatMap dag.dependents := by
    rw [hevents]
    exact List.mem_append_right _ List.mem_cons_self
  obtain ⟨d, -, hd⟩ := List.mem_flatMap.1 hmem
  obtain ⟨i, hi, -⟩ := mem_dependents_iff.1 hd
  have hnew : ∀ d ∈ wave, d ∉ done := fun d hd => ((h.ready.mem_iff d).1 hd).1
  have hleft : dag.remaining done i
      = dag.remaining (done ++ wave) i + wave.countP (· ∈ dag.dependencies i) :=
    remaining_append h.ready.nodup hnew
  have htaken : front.count guid < wave.countP (· ∈ dag.dependencies i) := by
    rw [← count_events hi, hevents, List.count_append, List.count_cons_self]
    omega
  refine ⟨dag.remaining done i - front.count guid - 1, ?_⟩
  rw [pending_foldl, h.pending, hi, Option.map_some, Option.map_some]
  congr 1
  omega

private theorem nodup_waiting (dag : Dag) :
    ((dag.instances.entries.map fun (guid, i) =>
      (guid, (dag.dependencies i).length)).map (·.1)).Nodup := by
  rw [List.map_map]
  exact dag.instances.nodup_keys

theorem stage_start (dag : Dag) :
    dag.Stage [] (dag.waiting.filter fun _ count => count = 0).keys dag.waiting := by
  have hwaiting (guid : Guid) :
      dag.waiting.get? guid = (dag.instances.get? guid).map (dag.remaining []) := by
    have hlength (i : Instance) : dag.remaining [] i = (dag.dependencies i).length := by
      simp [remaining]
    refine Option.ext fun count => ?_
    rw [waiting, SortedMap.get?_ofList_eq_some_iff dag.nodup_waiting, List.mem_map, Option.map_eq_some_iff]
    simp only [SortedMap.get?_eq_some_iff, hlength, Prod.mk.injEq]
    constructor
    · rintro ⟨⟨guid, i⟩, hentry, rfl, rfl⟩
      exact ⟨i, hentry, rfl⟩
    · rintro ⟨i, hentry, rfl⟩
      exact ⟨(guid, i), hentry, rfl, rfl⟩
  refine ⟨hwaiting, ⟨fun guid => ?_, ?_⟩, List.nodup_nil,
    fun _ hguid => absurd hguid List.not_mem_nil⟩
  · simp only [SortedMap.mem_keys_iff, SortedMap.contains, Option.isSome_iff_exists,
      SortedMap.get?_filter_eq_some_iff, hwaiting, decide_eq_true_eq, exists_eq_right,
      Option.map_eq_some_iff, remaining_eq_zero_iff, List.not_mem_nil, not_false_eq_true, true_and]
  · exact List.pairwise_map.2 (dag.waiting.filter _).sorted

/-- What is done is part of the graph. -/
private theorem Stage.length_le (h : dag.Stage done wave pending) : done.length ≤ dag.size := by
  have hsubset : done ⊆ dag.instances.keys := by
    intro guid hguid
    obtain ⟨i, hi, -⟩ := h.closed guid hguid
    rw [SortedMap.mem_keys_iff, SortedMap.contains, hi]
    rfl
  have hlength := (h.nodup.subperm hsubset).length_le
  rwa [SortedMap.keys, List.length_map] at hlength

/-- Layering goes on until nothing is ready. -/
theorem Stage.layers (h : dag.Stage done wave pending) {fuel : Nat}
    (hfuel : dag.size < done.length + fuel) :
    dag.Layered done (dag.layers fuel pending wave).1 ∧
      dag.Stage (done ++ (dag.layers fuel pending wave).1.flatten) []
        (dag.layers fuel pending wave).2 := by
  induction fuel generalizing done wave pending with
  | zero =>
    have hle := h.length_le
    omega
  | succ fuel ih =>
    rw [Dag.layers]
    cases wave with
    | nil =>
      rw [List.isEmpty_nil, if_pos rfl, List.flatten_nil, List.append_nil]
      exact ⟨h.ready, h⟩
    | cons first rest =>
      have hlonger : dag.size < (done ++ first :: rest).length + fuel := by
        rw [List.length_append, List.length_cons]
        omega
      obtain ⟨hlayered, hlast⟩ := ih h.advance hlonger
      rw [List.isEmpty_cons, if_neg Bool.false_ne_true]
      refine ⟨⟨List.cons_ne_nil _ _, h.ready, hlayered⟩, ?_⟩
      rw [List.flatten_cons, ← List.append_assoc]
      exact hlast

/-- One instance is a dependency of another one. -/
def Depends (dag : Dag) (guid other : Guid) : Prop :=
  ∃ i, dag.instances.get? other = some i ∧ guid ∈ dag.dependencies i

/-- Waves bring all instances of a graph, and nothing else. -/
theorem mem_waves_iff (h : dag.Comprises listed) {waves : List (List Instance)}
    (hwaves : dag.waves = .ok waves) : i ∈ waves.flatten ↔ i ∈ listed := by
  have hfuel : dag.size < ([] : List Guid).length + (dag.size + 1) := by simp
  obtain ⟨-, hlast⟩ := dag.stage_start.layers hfuel
  rw [List.nil_append] at hlast
  generalize hresult : dag.layers (dag.size + 1) dag.waiting
    (dag.waiting.filter fun _ count => count = 0).keys = result at hlast
  obtain ⟨layers, pending⟩ := result
  simp only [Dag.waves, hresult] at hwaves
  split at hwaves
  · cases hwaves
  rename_i hnone
  cases hwaves
  simp only [List.mem_flatten, List.mem_map, exists_exists_and_eq_and, List.mem_filterMap]
  constructor
  · rintro ⟨guids, -, guid, -, hget⟩
    exact ((h.instances guid i).1 hget).1
  · intro hi
    have hget := h.get? hi
    have hpending : pending.get? i.guid = some (dag.remaining layers.flatten i) :=
      (hlast.pending i.guid).trans (by rw [hget]; rfl)
    -- an instance that waits for nothing would be ready if it were not done
    have hzero : dag.remaining layers.flatten i = 0 := by
      simpa using List.find?_eq_none.1 hnone _ (SortedMap.get?_eq_some_iff.1 hpending)
    have hdone : i.guid ∈ layers.flatten := by
      by_contra hout
      exact List.not_mem_nil
        ((hlast.ready.mem_iff i.guid).2 ⟨hout, i, hget, remaining_eq_zero_iff.1 hzero⟩)
    obtain ⟨guids, hguids, hguid⟩ := List.mem_flatten.1 hdone
    exact ⟨guids, hguids, i.guid, hguid, hget⟩

/-- Waves are layers of a graph, each with the instances of its guids. -/
theorem layered_of_waves {waves : List (List Instance)} (hwaves : dag.waves = .ok waves) :
    ∃ layers, dag.Layered [] layers ∧ waves = layers.map (·.filterMap dag.instances.get?) := by
  have hfuel : dag.size < ([] : List Guid).length + (dag.size + 1) := by simp
  obtain ⟨hlayered, -⟩ := dag.stage_start.layers hfuel
  refine ⟨_, hlayered, ?_⟩
  simp only [Dag.waves] at hwaves
  split at hwaves
  · cases hwaves
  · exact (Except.ok.inj hwaves).symm

/-- Where dependencies are well-founded, every instance comes in a wave. -/
theorem waves_layered (h : dag.Comprises listed) (hacyclic : WellFounded dag.Depends) :
    ∃ layers, dag.Layered [] layers ∧ (∀ i ∈ listed, i.guid ∈ layers.flatten) ∧
      dag.waves = .ok (layers.map (·.filterMap dag.instances.get?)) := by
  have hfuel : dag.size < ([] : List Guid).length + (dag.size + 1) := by simp
  obtain ⟨hlayered, hlast⟩ := dag.stage_start.layers hfuel
  rw [List.nil_append] at hlast
  have hall (guid : Guid) : ∀ i, dag.instances.get? guid = some i →
      guid ∈ (dag.layers (dag.size + 1) dag.waiting
        (dag.waiting.filter fun _ count => count = 0).keys).1.flatten := by
    induction guid using hacyclic.induction with
    | _ guid ih =>
      intro i hi
      by_contra hout
      refine List.not_mem_nil ((hlast.ready.mem_iff guid).2 ⟨hout, i, hi, fun d hd => ?_⟩)
      obtain ⟨input, -, hproducer⟩ := mem_dependencies_iff.1 hd
      obtain ⟨j, hj, rfl, -⟩ := (h.producers input d).1 hproducer
      exact ih j.guid ⟨i, hi, hd⟩ j (h.get? hj)
  refine ⟨_, hlayered, fun i hi => hall _ i (h.get? hi), ?_⟩
  simp only [waves]
  split
  · rename_i guid count hfind
    obtain ⟨hcount, hentry⟩ := And.intro (List.find?_some hfind) (List.mem_of_find?_eq_some hfind)
    have hget := SortedMap.get?_eq_some_iff.2 hentry
    rw [hlast.pending, Option.map_eq_some_iff] at hget
    obtain ⟨i, hi, rfl⟩ := hget
    obtain ⟨j, hj, hdependencies⟩ := hlast.closed guid (hall guid i hi)
    rw [hi, Option.some.injEq] at hj
    subst hj
    rw [remaining_eq_zero_iff.2 hdependencies] at hcount
    cases hcount
  · rfl

/-! ### Schedules -/

/-- The instances of given guids are the listed ones that have them. -/
theorem Comprises.mem_filterMap_iff (h : dag.Comprises listed) {guids : List Guid} :
    i ∈ guids.filterMap dag.instances.get? ↔ i ∈ listed ∧ i.guid ∈ guids := by
  rw [List.mem_filterMap]
  constructor
  · rintro ⟨guid, hguid, hget⟩
    obtain ⟨hi, rfl⟩ := (h.instances _ _).1 hget
    exact ⟨hi, hguid⟩
  · rintro ⟨hi, hguid⟩
    exact ⟨i.guid, hguid, h.get? hi⟩

/-- Waves that bring every listed instance, behind all those that it takes outputs of. -/
def Scheduled (listed : List Instance) : List Instance → List (List Instance) → Prop
  | done, [] => ∀ i ∈ listed, i ∈ done
  | done, wave :: waves =>
    (∀ i ∈ wave, i ∈ listed ∧ i ∉ done ∧ ∀ j ∈ listed, i.Uses j → j ∈ done) ∧ wave.Nodup ∧
      Scheduled listed (done ++ wave) waves

private theorem Layered.scheduled (h : dag.Comprises listed) {done : List Guid}
    {layers : List (List Guid)} (hlayered : dag.Layered done layers)
    (hall : ∀ i ∈ listed, i.guid ∈ done ++ layers.flatten) :
    Scheduled listed (done.filterMap dag.instances.get?)
      (layers.map (·.filterMap dag.instances.get?)) := by
  have hmem (guids : List Guid) (i : Instance) :
      i ∈ guids.filterMap dag.instances.get? ↔ i ∈ listed ∧ i.guid ∈ guids := h.mem_filterMap_iff
  induction layers generalizing done with
  | nil =>
    rw [List.flatten_nil, List.append_nil] at hall
    exact fun i hi => (hmem done i).2 ⟨hi, hall i hi⟩
  | cons wave layers ih =>
    obtain ⟨-, hready, hlayered⟩ := hlayered
    rw [List.flatten_cons, ← List.append_assoc] at hall
    refine ⟨fun i hi => ?_, ?_, ?_⟩
    · obtain ⟨hi, hguid⟩ := (hmem wave i).1 hi
      obtain ⟨hnew, found, hfound, hdependencies⟩ := (hready.mem_iff i.guid).1 hguid
      rw [h.get? hi, Option.some.injEq] at hfound
      subst hfound
      refine ⟨hi, fun hdone => hnew ((hmem done i).1 hdone).2, fun j hj huses => ?_⟩
      obtain ⟨input, hinput, houtput⟩ := huses
      have hproducer := (h.producers input j.guid).2 ⟨j, hj, rfl, houtput⟩
      exact (hmem done j).2
        ⟨hj, hdependencies _ (mem_dependencies_iff.2 ⟨input, hinput, hproducer⟩)⟩
    · refine hready.nodup.filterMap fun guid other i hi hi' => ?_
      rw [← ((h.instances _ _).1 hi).2, ← ((h.instances _ _).1 hi').2]
    · rw [← List.filterMap_append]
      exact ih hlayered hall

/-- Instances in an order in which they only take outputs of earlier ones. -/
def Backward (listed : List Instance) : Prop :=
  ∀ before i after, listed = before ++ i :: after →
    ∀ input ∈ i.inputs.values, ∃ j ∈ before, input ∈ j.outputs.values

theorem backward_single (hinputs : i.inputs.values = []) : Backward [i] := by
  intro before other after hsplit input hinput
  have hother : other ∈ [i] := hsplit ▸ List.mem_append_right _ List.mem_cons_self
  rw [List.mem_singleton.1 hother, hinputs] at hinput
  cases hinput

theorem Backward.exists_producer (h : Backward listed) (hi : i ∈ listed) {input : Guid}
    (hinput : input ∈ i.inputs.values) : ∃ j ∈ listed, input ∈ j.outputs.values := by
  obtain ⟨before, after, rfl⟩ := List.append_of_mem hi
  obtain ⟨j, hj, houtput⟩ := h before i after rfl input hinput
  exact ⟨j, List.mem_append_left _ hj, houtput⟩

/-- Dependencies that go backward come to an end. -/
theorem Backward.wellFounded (hbackward : Backward listed) (h : dag.Comprises listed) :
    WellFounded dag.Depends := by
  refine Subrelation.wf (fun {d guid} hdepends => ?_)
    (measure fun guid => (listed.map Instance.guid).idxOf guid).wf
  obtain ⟨i, hi, hdependency⟩ := hdepends
  obtain ⟨hmem, rfl⟩ := (h.instances _ _).1 hi
  obtain ⟨input, hinput, hproducer⟩ := mem_dependencies_iff.1 hdependency
  obtain ⟨j, hj, rfl, houtput⟩ := (h.producers _ _).1 hproducer
  -- the first occurrence of an instance comes behind all that it depends on
  obtain ⟨front, back, hsplit, hnew⟩ :=
    List.eq_append_cons_of_mem (show i.guid ∈ listed.map Instance.guid from List.mem_map_of_mem hmem)
  obtain ⟨before, rest, rfl, rfl, hrest⟩ := List.map_eq_append_iff.1 hsplit
  obtain ⟨i', after, rfl, hguid, rfl⟩ := List.map_eq_cons_iff.1 hrest
  have hsame : i' = i := h.compatible.guids i' (by simp) i hmem hguid
  subst hsame
  obtain ⟨j', hj', houtput'⟩ := hbackward before i' after rfl input hinput
  have heq : j' = j := h.compatible.producers j' (List.mem_append_left _ hj') j hj input houtput'
    houtput
  subst heq
  have hfront : j'.guid ∈ before.map Instance.guid := List.mem_map_of_mem hj'
  change (List.map _ _).idxOf j'.guid < (List.map _ _).idxOf i'.guid
  rw [hsplit, List.idxOf_append_of_mem hfront, List.idxOf_append_of_notMem hnew]
  exact Nat.lt_of_lt_of_le (List.idxOf_lt_length_of_mem hfront) (Nat.le_add_right _ _)

/-- Instances that only take outputs of earlier ones are scheduled. -/
theorem Backward.scheduled (hbackward : Backward listed) (h : dag.Comprises listed) :
    ∃ waves, dag.waves = .ok waves ∧ Scheduled listed [] waves := by
  obtain ⟨layers, hlayered, hall, hwaves⟩ := waves_layered h (hbackward.wellFounded h)
  exact ⟨_, hwaves, hlayered.scheduled h hall⟩

end Dag

end GraphVault
