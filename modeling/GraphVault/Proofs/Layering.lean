import GraphVault.Proofs.Plans
import Mathlib.Data.Fintype.EquivFin
import Mathlib.Data.Fintype.Sets
import Mathlib.Order.Bounds.Defs

/-!
# Layering

The waves of a graph without circles are the tightest ones that its dependencies leave room for:
the position of the wave that an instance is in is the length of the longest chain of dependencies
from it (`Dag.waves_tight`).
-/

namespace GraphVault

namespace Dag

variable {dag : Dag} {listed : List Instance} {i j : Instance} {guid : Guid} {n : Nat}
  {done wave : List Guid} {layers : List (List Guid)} {pending : SortedMap Guid Nat}

/-! ### Rounds -/

/-- The rounds of layering: what is pending, and the wave that is ready. -/
inductive Round (dag : Dag) : SortedMap Guid Nat → List Guid → Prop
  | first : Round dag dag.waiting (dag.waiting.filter fun _ count => count = 0).keys
  | next {pending : SortedMap Guid Nat} {wave : List Guid} (hround : Round dag pending wave)
      (hwave : wave ≠ []) :
      Round dag (dag.advance pending wave).pending (dag.advance pending wave).ready.keys

theorem Round.stage (h : dag.Round pending wave) : ∃ done, dag.Stage done wave pending := by
  induction h with
  | first => exact ⟨[], dag.stage_start⟩
  | next _ _ ih =>
    obtain ⟨done, hstage⟩ := ih
    exact ⟨done ++ _, hstage.advance⟩

/-! ### Dependencies -/

/-- A listed instance takes an output of another listed one. -/
def Needs (listed : List Instance) (i j : Instance) : Prop := i ∈ listed ∧ j ∈ listed ∧ i.Uses j

theorem Comprises.mem_dependencies_iff (h : dag.Comprises listed) :
    guid ∈ dag.dependencies i ↔ ∃ j ∈ listed, j.guid = guid ∧ i.Uses j := by
  simp only [Dag.mem_dependencies_iff, h.producers]
  constructor
  · rintro ⟨input, hinput, j, hj, hguid, houtput⟩
    exact ⟨j, hj, hguid, input, hinput, houtput⟩
  · rintro ⟨j, hj, hguid, input, hinput, houtput⟩
    exact ⟨input, hinput, j, hj, hguid, houtput⟩

/-- A listed instance is at the end of a chain that starts at another listed one. -/
private def Behind (listed : List Instance) (j i : {i // i ∈ listed}) : Prop :=
  Relation.TransGen (Needs listed) i.1 j.1

/-- Dependencies without circles come to an end, as there are finitely many instances. -/
theorem Comprises.wellFounded (h : dag.Comprises listed)
    (hacyclic : ∀ i, ¬ Relation.TransGen (Needs listed) i i) : WellFounded dag.Depends := by
  have htrans : IsTrans _ (Behind listed) := ⟨fun _ _ _ hji hkj => hkj.trans hji⟩
  have hirrefl : Std.Irrefl (Behind listed) := ⟨fun i => hacyclic i.1⟩
  have hwellFounded := Finite.wellFounded_of_trans_of_irrefl (Behind listed)
  have hlisted (i : {i // i ∈ listed}) : Acc dag.Depends i.1.guid := by
    induction i using hwellFounded.induction with
    | h i ih =>
      refine ⟨_, fun d hdepends => ?_⟩
      obtain ⟨found, hfound, hd⟩ := hdepends
      rw [h.get? i.2, Option.some.injEq] at hfound
      subst hfound
      obtain ⟨j, hj, rfl, huses⟩ := h.mem_dependencies_iff.1 hd
      exact ih ⟨j, hj⟩ (.single ⟨i.2, hj, huses⟩)
  refine ⟨fun guid => ⟨_, fun d hdepends => ?_⟩⟩
  obtain ⟨i, -, hd⟩ := hdepends
  obtain ⟨j, hj, rfl, -⟩ := h.mem_dependencies_iff.1 hd
  exact hlisted ⟨j, hj⟩

/-! ### Positions -/

/-- Every wave is what is ready once all the earlier ones are done. -/
theorem Layered.ready (h : dag.Layered done layers) (hn : layers[n]? = some wave) :
    wave ≠ [] ∧ dag.Ready (done ++ (layers.take n).flatten) wave := by
  induction layers generalizing done n with
  | nil => cases hn
  | cons first layers ih =>
    obtain ⟨hnonempty, hready, hlayered⟩ := h
    cases n with
    | zero =>
      cases hn
      rw [List.take_zero, List.flatten_nil, List.append_nil]
      exact ⟨hnonempty, hready⟩
    | succ n =>
      rw [List.take_succ_cons, List.flatten_cons, ← List.append_assoc]
      exact ih hlayered hn

/-- An instance in a layer is not in one before it, while all that it depends on is. -/
private theorem Layered.of_mem (h : dag.Comprises listed) (hlayered : dag.Layered [] layers)
    (hn : layers[n]? = some wave) (hi : i ∈ listed) (hguid : i.guid ∈ wave) :
    i.guid ∉ (layers.take n).flatten ∧ ∀ d ∈ dag.dependencies i, d ∈ (layers.take n).flatten := by
  obtain ⟨hnew, found, hfound, hdependencies⟩ := ((hlayered.ready hn).2.mem_iff i.guid).1 hguid
  rw [h.get? hi, Option.some.injEq] at hfound
  subst hfound
  exact ⟨hnew, hdependencies⟩

/-- An instance in a layer behind the first depends on an instance in the layer before it. -/
private theorem Layered.exists_dependency (h : dag.Comprises listed)
    (hlayered : dag.Layered [] layers) (hn : layers[n + 1]? = some wave) (hi : i ∈ listed)
    (hguid : i.guid ∈ wave) :
    ∃ last, layers[n]? = some last ∧ ∃ d ∈ last, d ∈ dag.dependencies i := by
  obtain ⟨hnew, hdependencies⟩ := hlayered.of_mem h hn hi hguid
  have hlt : n < layers.length := Nat.lt_of_succ_lt (List.getElem?_eq_some_iff.1 hn).1
  have hlast : layers[n]? = some layers[n] := List.getElem?_eq_getElem hlt
  have hsplit : (layers.take (n + 1)).flatten = (layers.take n).flatten ++ layers[n] := by
    rw [List.take_succ_eq_append_getElem hlt, List.flatten_append, List.flatten_singleton]
  rw [hsplit, List.mem_append, not_or] at hnew
  refine ⟨layers[n], hlast, ?_⟩
  by_contra hnone
  -- otherwise the instance would have been ready a wave earlier
  refine hnew.2 (((hlayered.ready hlast).2.mem_iff i.guid).2 ⟨hnew.1, i, h.get? hi, ?_⟩)
  intro d hd
  have hdone := hdependencies d hd
  rw [hsplit, List.mem_append] at hdone
  exact hdone.resolve_right fun hmem => hnone ⟨d, hmem, hd⟩

theorem Layered.nodup (h : dag.Layered done layers) (hdone : done.Nodup) :
    (done ++ layers.flatten).Nodup := by
  induction layers generalizing done with
  | nil => rwa [List.flatten_nil, List.append_nil]
  | cons first layers ih =>
    obtain ⟨-, hready, hlayered⟩ := h
    rw [List.flatten_cons, ← List.append_assoc]
    refine ih hlayered (List.nodup_append.2 ⟨hdone, hready.nodup, fun x hx y hy heq => ?_⟩)
    exact ((hready.mem_iff y).1 hy).1 (heq ▸ hx)

private theorem mem_flatten_take_iff {α : Type} {xss : List (List α)} {x : α} :
    x ∈ (xss.take n).flatten ↔ ∃ m < n, ∃ xs, xss[m]? = some xs ∧ x ∈ xs := by
  rw [List.mem_flatten]
  constructor
  · rintro ⟨xs, hxs, hx⟩
    obtain ⟨m, hm⟩ := List.mem_iff_getElem?.1 hxs
    rw [List.getElem?_take] at hm
    split at hm
    · rename_i hlt
      exact ⟨m, hlt, xs, hm, hx⟩
    · cases hm
  · rintro ⟨m, hlt, xs, hm, hx⟩
    exact ⟨xs, List.mem_iff_getElem?.2 ⟨m, by rwa [List.getElem?_take, if_pos hlt]⟩, hx⟩

/-! ### Tight waves -/

/-- Waves of all listed instances, each in the wave behind the last one that it depends on. -/
structure Tight (listed : List Instance) (waves : List (List Instance)) : Prop where
  nonempty : ∀ wave ∈ waves, wave ≠ []
  mem_iff : ∀ i, i ∈ waves.flatten ↔ i ∈ listed
  nodup : waves.flatten.Nodup
  increasing : ∀ wave ∈ waves, wave.Pairwise fun i j => compare i.guid j.guid = .lt
  behind : ∀ (n : Nat) (wave : List Instance), waves[n]? = some wave →
    ∀ i ∈ wave, ∀ j ∈ listed, i.Uses j → ∃ m < n, ∃ earlier, waves[m]? = some earlier ∧ j ∈ earlier
  close : ∀ (n : Nat) (wave : List Instance), waves[n + 1]? = some wave →
    ∀ i ∈ wave, ∃ last, waves[n]? = some last ∧ ∃ j ∈ last, i.Uses j

/-- Chains of dependencies from an instance on, by their length. -/
inductive Chain (listed : List Instance) : Instance → Nat → Prop
  | single {i : Instance} (hi : i ∈ listed) : Chain listed i 0
  | link {i j : Instance} {n : Nat} (hneeds : Needs listed i j) (hchain : Chain listed j n) :
      Chain listed i (n + 1)

theorem Tight.mem {waves : List (List Instance)} (h : Tight listed waves) {wave : List Instance}
    (hn : waves[n]? = some wave) (hi : i ∈ wave) : i ∈ listed :=
  (h.mem_iff i).1 (List.mem_flatten.2 ⟨wave, List.mem_of_getElem? hn, hi⟩)

/-- In tight waves the position of an instance is the length of its longest chain. -/
theorem Tight.longest {waves : List (List Instance)} (h : Tight listed waves)
    {wave : List Instance} (hn : waves[n]? = some wave) (hi : i ∈ wave) :
    IsGreatest {length | Chain listed i length} n := by
  constructor
  · induction n generalizing i wave with
    | zero => exact .single (h.mem hn hi)
    | succ n ih =>
      obtain ⟨last, hlast, j, hj, huses⟩ := h.close n wave hn i hi
      exact .link ⟨h.mem hn hi, h.mem hlast hj, huses⟩ (ih hlast hj)
  · intro length hchain
    induction hchain generalizing n wave with
    | single => exact Nat.zero_le n
    | link hneeds _ ih =>
      obtain ⟨-, hj, huses⟩ := hneeds
      obtain ⟨m, hlt, earlier, hearlier, hmem⟩ := h.behind n wave hn _ hi _ hj huses
      exact Nat.lt_of_le_of_lt (ih hearlier hmem) hlt

private theorem Layered.tight (h : dag.Comprises listed) (hlayered : dag.Layered [] layers)
    (hall : ∀ i ∈ listed, i.guid ∈ layers.flatten) :
    Tight listed (layers.map (·.filterMap dag.instances.get?)) := by
  have hat {n : Nat} {wave : List Instance}
      (hn : (layers.map (·.filterMap dag.instances.get?))[n]? = some wave) :
      ∃ guids, layers[n]? = some guids ∧ wave = guids.filterMap dag.instances.get? := by
    rw [List.getElem?_map, Option.map_eq_some_iff] at hn
    obtain ⟨guids, hguids, rfl⟩ := hn
    exact ⟨guids, hguids, rfl⟩
  have hinstance {guids : List Guid} (hguids : guids ∈ layers) {guid : Guid}
      (hguid : guid ∈ guids) : ∃ i ∈ listed, i.guid = guid := by
    obtain ⟨n, hn⟩ := List.mem_iff_getElem?.1 hguids
    obtain ⟨-, i, hi, -⟩ := ((hlayered.ready hn).2.mem_iff guid).1 hguid
    exact ⟨i, (h.instances guid i).1 hi⟩
  have hflatten : (layers.map (·.filterMap dag.instances.get?)).flatten
      = layers.flatten.filterMap dag.instances.get? := List.filterMap_flatten.symm
  constructor
  case nonempty =>
    intro wave hwave
    obtain ⟨guids, hguids, rfl⟩ := List.mem_map.1 hwave
    obtain ⟨n, hn⟩ := List.mem_iff_getElem?.1 hguids
    obtain ⟨guid, hguid⟩ := List.exists_mem_of_ne_nil guids (hlayered.ready hn).1
    obtain ⟨i, hi, rfl⟩ := hinstance hguids hguid
    exact List.ne_nil_of_mem (h.mem_filterMap_iff.2 ⟨hi, hguid⟩)
  case mem_iff =>
    intro i
    rw [hflatten, h.mem_filterMap_iff]
    exact ⟨And.left, fun hi => ⟨hi, hall i hi⟩⟩
  case nodup =>
    rw [hflatten]
    refine (hlayered.nodup List.nodup_nil).filterMap fun guid other i hi hi' => ?_
    rw [← ((h.instances _ _).1 hi).2, ← ((h.instances _ _).1 hi').2]
  case increasing =>
    intro wave hwave
    obtain ⟨guids, hguids, rfl⟩ := List.mem_map.1 hwave
    obtain ⟨n, hn⟩ := List.mem_iff_getElem?.1 hguids
    refine (hlayered.ready hn).2.increasing.filterMap _ fun a b hlt i hi j hj => ?_
    rwa [((h.instances _ _).1 hi).2, ((h.instances _ _).1 hj).2]
  case behind =>
    intro n wave hn i hi j hj huses
    obtain ⟨guids, hguids, rfl⟩ := hat hn
    obtain ⟨hi, hguid⟩ := h.mem_filterMap_iff.1 hi
    have hdone := (hlayered.of_mem h hguids hi hguid).2 j.guid
      (h.mem_dependencies_iff.2 ⟨j, hj, rfl, huses⟩)
    obtain ⟨m, hlt, earlier, hearlier, hmem⟩ := mem_flatten_take_iff.1 hdone
    refine ⟨m, hlt, earlier.filterMap dag.instances.get?, ?_, h.mem_filterMap_iff.2 ⟨hj, hmem⟩⟩
    rw [List.getElem?_map, hearlier, Option.map_some]
  case close =>
    intro n wave hn i hi
    obtain ⟨guids, hguids, rfl⟩ := hat hn
    obtain ⟨hi, hguid⟩ := h.mem_filterMap_iff.1 hi
    obtain ⟨last, hlast, d, hmem, hd⟩ := hlayered.exists_dependency h hguids hi hguid
    refine ⟨last.filterMap dag.instances.get?, by rw [List.getElem?_map, hlast]; rfl, ?_⟩
    obtain ⟨j, hj, rfl, huses⟩ := h.mem_dependencies_iff.1 hd
    exact ⟨j, h.mem_filterMap_iff.2 ⟨hj, hmem⟩, huses⟩

/-- Layering a graph without circles gives tight waves, in which the position of an instance is the
length of its longest chain of dependencies, and takes nothing off an instance that waits for
nothing. -/
theorem waves_tight (hdag : ofList listed = .ok dag)
    (hacyclic : ∀ i, ¬ Relation.TransGen (Needs listed) i i) :
    ∃ waves, dag.waves = .ok waves ∧ Tight listed waves ∧
      (∀ (n : Nat) (wave : List Instance), waves[n]? = some wave → ∀ i ∈ wave,
        IsGreatest {length | Chain listed i length} n) ∧
      ∀ pending wave, dag.Round pending wave →
        ∀ front guid back, wave.flatMap dag.dependents = front ++ guid :: back →
          ∃ count, (front.foldl Progress.release ⟨pending, SortedMap.empty⟩).pending.get? guid
            = some (count + 1) := by
  have hcomprises := comprises_of_ofList hdag
  obtain ⟨layers, hlayered, hall, hwaves⟩ :=
    waves_layered hcomprises (hcomprises.wellFounded hacyclic)
  have htight := Layered.tight hcomprises hlayered hall
  refine ⟨_, hwaves, htight, fun n wave hn i hi => htight.longest hn hi, ?_⟩
  intro pending wave hround front guid back hevents
  obtain ⟨done, hstage⟩ := hround.stage
  exact hstage.pending_pos hevents

/-- In the plan of two steps only the column needs the graph. -/
private theorem needs_sample (h : Needs [Session.exampleInstance, Plan.columnInstance] i j) :
    i = Plan.columnInstance ∧ j = Session.exampleInstance := by
  obtain ⟨hi, hj, input, hinput, houtput⟩ := h
  have hgraph : Session.exampleInstance.inputs.values = [] := rfl
  have hcolumn : Plan.columnInstance.inputs.values = [Session.exampleVertices] := rfl
  have hvertices := Instance.mem_values_iff.2 ⟨_, Session.vertices_exampleInstance⟩
  simp only [List.mem_cons, List.not_mem_nil, or_false] at hi hj
  obtain rfl | rfl := hi
  · rw [hgraph] at hinput
    cases hinput
  rw [hcolumn, List.mem_singleton] at hinput
  subst hinput
  refine ⟨rfl, hj.resolve_right fun heq => ?_⟩
  subst heq
  have hsame := Plan.compatible_sample.producers _ (by simp) _ (by simp) _ hvertices houtput
  rw [← hsame, hgraph] at hcolumn
  cases hcolumn

theorem waves_tight_sample :
    ∃ dag, ofList [Session.exampleInstance, Plan.columnInstance] = .ok dag ∧
      (∀ i, ¬ Relation.TransGen (Needs [Session.exampleInstance, Plan.columnInstance]) i i) ∧
      ∃ waves, dag.waves = .ok waves ∧
        Tight [Session.exampleInstance, Plan.columnInstance] waves ∧
        (∀ (n : Nat) (wave : List Instance), waves[n]? = some wave → ∀ i ∈ wave, IsGreatest
          {length | Chain [Session.exampleInstance, Plan.columnInstance] i length} n) ∧
        ∀ pending wave, dag.Round pending wave →
          ∀ front guid back, wave.flatMap dag.dependents = front ++ guid :: back →
            ∃ count, (front.foldl Progress.release ⟨pending, SortedMap.empty⟩).pending.get? guid
              = some (count + 1) := by
  obtain ⟨dag, hdag, -⟩ := Plan.compatible_sample.exists_ofList
  have hacyclic (i : Instance) :
      ¬ Relation.TransGen (Needs [Session.exampleInstance, Plan.columnInstance]) i i := by
    intro hcircle
    obtain ⟨_, hfirst, -⟩ := Relation.TransGen.head'_iff.1 hcircle
    obtain ⟨_, -, hlast⟩ := Relation.TransGen.tail'_iff.1 hcircle
    have hsame := (needs_sample hfirst).1.symm.trans (needs_sample hlast).2
    have hname : Plan.columnInstance.className = Session.exampleInstance.className :=
      congrArg Instance.className hsame
    revert hname
    decide
  exact ⟨dag, hdag, hacyclic, waves_tight hdag hacyclic⟩

end Dag

end GraphVault
