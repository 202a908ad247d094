import GraphVault.Proofs.Executing
import GraphVault.Proofs.GivingUp
import GraphVault.Proofs.Waves

/-!
# Runs

A run executes an instance once all is done that it takes outputs of. So what one instance does to a
store at that point, a run does with all instances of its graph (`Executor.run_yields`), and whatever
makes one instance fail makes the run fail.
-/

namespace GraphVault

/-- A report of a good outcome for each listed instance, and of nothing else. -/
structure Report.Covers (listed : List Instance) (good : Instance → Outcome → Prop)
    (report : Report) : Prop where
  complete : ∀ i ∈ listed, ∃ outcome, report.outcomes.get? i.guid = some outcome ∧ good i outcome
  sound : ∀ guid, report.outcomes.contains guid → ∃ i ∈ listed, i.guid = guid

theorem Report.Covers.mono {report : Report} {listed others : List Instance}
    {good good' : Instance → Outcome → Prop} (h : report.Covers listed good)
    (hmem : ∀ i, i ∈ others ↔ i ∈ listed)
    (hgood : ∀ i ∈ listed, ∀ outcome, good i outcome → good' i outcome) :
    report.Covers others good' := by
  constructor
  · intro i hi
    have hlisted := (hmem i).1 hi
    obtain ⟨outcome, houtcome, hi⟩ := h.complete i hlisted
    exact ⟨outcome, houtcome, hgood i hlisted outcome hi⟩
  · intro guid hguid
    obtain ⟨i, hi, heq⟩ := h.sound guid hguid
    exact ⟨i, (hmem i).2 hi, heq⟩

namespace Executor

variable {registry : Registry} {listed done now wave : List Instance} {waves : List (List Instance)}
  {inv : List Instance → Vault → Prop} {good : Instance → Outcome → Prop} {bad : Failure → Prop}
  {vault : Vault} {i : Instance} {dag : Dag}

/-- What executing an instance comes to once all is done that it takes outputs of: it is done as
well, or else it fails, and what was done before still is. -/
structure Progresses (registry : Registry) (listed : List Instance)
    (inv : List Instance → Vault → Prop) (good : Instance → Outcome → Prop)
    (bad : Failure → Prop) : Prop where
  ordinary : ∀ failure, bad failure → failure.Ordinary
  execute : ∀ {done i vault}, i ∈ listed → i ∉ done → (∀ j ∈ listed, i.Uses j → j ∈ done) →
    inv done vault → Yields (execute registry i) vault
      (fun outcome after => inv (done ++ [i]) after ∧ good i outcome)
      fun failure after => inv done after ∧ bad failure

/-- What the attempt to execute an instance comes to. -/
def Settles (good : Instance → Outcome → Prop) (bad : Failure → Prop) (i : Instance)
    (result : Guid × Except Failure Outcome) : Prop :=
  result.1 = i.guid ∧ Computes bad (good i) result.2

private theorem Progresses.attempt (h : Progresses registry listed inv good bad) (hi : i ∈ listed)
    (hnew : i ∉ done) (hready : ∀ j ∈ listed, i.Uses j → j ∈ done) (hinv : inv done vault) :
    Yields (attempt registry i) vault
      (fun result after => Computes bad (good i) result ∧
        (inv (done ++ [i]) after ∨ (∀ outcome, result ≠ .ok outcome) ∧ inv done after))
      fun _ _ => False := by
  rw [Executor.attempt, yields_tryCatch, yields_map]
  apply (h.execute hi hnew hready hinv).mono
  · exact fun outcome after hafter => ⟨hafter.2, .inl hafter.1⟩
  · rintro failure after ⟨hafter, hbad⟩
    split
    · rename_i cause
      exact absurd rfl (h.ordinary _ hbad cause)
    · exact ⟨hbad, .inr ⟨nofun, hafter⟩⟩

private theorem Progresses.attempts (h : Progresses registry listed inv good bad)
    (hwave : ∀ i ∈ wave, i ∈ listed ∧ i ∉ now ∧ ∀ j ∈ listed, i.Uses j → j ∈ now)
    (hnodup : wave.Nodup) (hinv : inv now vault) :
    Yields (wave.mapM fun i => return (i.guid, ← Executor.attempt registry i)) vault
      (fun results after => List.Forall₂ (Settles good bad) wave results ∧
        ((∀ result ∈ results, ∃ outcome, result.2 = .ok outcome) → inv (now ++ wave) after))
      fun _ _ => False := by
  induction wave generalizing now vault with
  | nil =>
    rw [List.mapM_nil, yields_pure, List.append_nil]
    exact ⟨.nil, fun _ => hinv⟩
  | cons i wave ih =>
    obtain ⟨hnotin, hnodup⟩ := List.nodup_cons.1 hnodup
    obtain ⟨hi, hnew, hready⟩ := hwave i List.mem_cons_self
    simp only [List.mapM_cons, yields_bind, yields_pure]
    apply (h.attempt hi hnew hready hinv).mono ?_ fun _ _ hfalse => hfalse
    rintro result between ⟨hresult, hdone | ⟨hfailed, hbetween⟩⟩
    · have hrest : ∀ k ∈ wave, k ∈ listed ∧ k ∉ now ++ [i] ∧
          ∀ j ∈ listed, k.Uses j → j ∈ now ++ [i] := by
        intro k hk
        obtain ⟨hlisted, hout, huses⟩ := hwave k (List.mem_cons_of_mem i hk)
        refine ⟨hlisted, ?_, fun j hj hj' => List.mem_append_left _ (huses j hj hj')⟩
        rw [List.mem_append, List.mem_singleton, not_or]
        exact ⟨hout, fun heq => hnotin (heq ▸ hk)⟩
      apply (ih hrest hnodup hdone).mono ?_ fun _ _ hfalse => hfalse
      rintro results after ⟨hsettles, hall⟩
      refine ⟨.cons ⟨rfl, hresult⟩ hsettles, fun hok => ?_⟩
      rw [List.append_cons]
      exact hall fun other hother => hok other (List.mem_cons_of_mem _ hother)
    · -- the others of the wave are executed nevertheless, though the wave has failed
      apply (ih (fun k hk => hwave k (List.mem_cons_of_mem i hk)) hnodup hbetween).mono ?_
        fun _ _ hfalse => hfalse
      rintro results after ⟨hsettles, -⟩
      refine ⟨.cons ⟨rfl, hresult⟩ hsettles, fun hok => ?_⟩
      obtain ⟨outcome, houtcome⟩ := hok _ List.mem_cons_self
      exact absurd houtcome (hfailed outcome)

/-- The outcome that is reported of an instance. -/
def Reports (good : Instance → Outcome → Prop) (i : Instance) (entry : Guid × Outcome) : Prop :=
  entry.1 = i.guid ∧ good i entry.2

private theorem Progresses.executeWave (h : Progresses registry listed inv good bad)
    (hwave : ∀ i ∈ wave, i ∈ listed ∧ i ∉ done ∧ ∀ j ∈ listed, i.Uses j → j ∈ done)
    (hnodup : wave.Nodup) (hinv : inv done vault) :
    Yields (executeWave registry wave) vault
      (fun outcomes after => inv (done ++ wave) after ∧
        List.Forall₂ (Reports good) wave outcomes)
      fun failure _ => bad failure := by
  rw [Executor.executeWave, yields_bind]
  apply (h.attempts hwave hnodup hinv).mono ?_ fun _ _ hfalse => hfalse.elim
  rintro results after ⟨hsettles, hall⟩
  have houtcomes : Computes bad (fun outcomes => List.Forall₂ (Reports good) wave outcomes ∧
      ∀ result ∈ results, ∃ outcome, result.2 = .ok outcome) _ :=
    computes_outcomes (hsettles.imp fun i result hsettles =>
      hsettles.2.mono fun outcome houtcome => ⟨hsettles.1, houtcome⟩)
  refine yields_ofExcept (fun outcomes heq => ?_) fun failure heq => ?_
  · rw [heq] at houtcomes
    exact ⟨hall houtcomes.2, houtcomes.1⟩
  · rw [heq] at houtcomes
    exact houtcomes

private theorem Progresses.executeWaves (h : Progresses registry listed inv good bad)
    (hwaves : Dag.Scheduled listed done waves) (hinv : inv done vault) :
    Yields (waves.mapM (Executor.executeWave registry)) vault
      (fun outcomes after => (∀ i ∈ listed, i ∈ done ++ waves.flatten) ∧
        (∀ i ∈ waves.flatten, i ∈ listed) ∧ inv (done ++ waves.flatten) after ∧
        List.Forall₂ (Reports good) waves.flatten outcomes.flatten)
      fun failure _ => bad failure := by
  induction waves generalizing done vault with
  | nil =>
    rw [List.mapM_nil, yields_pure, List.flatten_nil, List.append_nil]
    exact ⟨hwaves, nofun, hinv, .nil⟩
  | cons wave waves ih =>
    obtain ⟨hwave, hnodup, hwaves⟩ := hwaves
    simp only [List.mapM_cons, yields_bind, yields_pure]
    apply (h.executeWave hwave hnodup hinv).mono ?_ fun _ _ hbad => hbad
    rintro outcomes between ⟨hbetween, hreports⟩
    apply (ih hwaves hbetween).mono ?_ fun _ _ hbad => hbad
    rintro rest after ⟨hall, hlisted, hafter, hrest⟩
    rw [List.flatten_cons, List.flatten_cons, ← List.append_assoc]
    refine ⟨hall, fun i hi => ?_, hafter, List.rel_append hreports hrest⟩
    cases List.mem_append.1 hi with
    | inl hi => exact (hwave i hi).1
    | inr hi => exact hlisted i hi

theorem guids_of_reports {outcomes : List (Guid × Outcome)}
    (h : List.Forall₂ (Reports good) wave outcomes) :
    outcomes.map (·.1) = wave.map Instance.guid := by
  induction h with
  | nil => rfl
  | cons hreports _ ih => rw [List.map_cons, List.map_cons, hreports.1, ih]

/-- What is reported of all instances covers them. -/
theorem covers_of_reports (hdag : dag.Comprises listed) {order : List Instance}
    {outcomes : List (Guid × Outcome)} (horder : ∀ i, i ∈ order ↔ i ∈ listed)
    (hkeys : outcomes.map (·.1) = order.map Instance.guid)
    (hsound : ∀ entry ∈ outcomes, ∃ i ∈ order, Reports good i entry) :
    Report.Covers listed good ⟨SortedMap.ofList outcomes⟩ := by
  have hcontains (guid : Guid) : (SortedMap.ofList outcomes).contains guid ↔
      ∃ i ∈ order, i.guid = guid := by
    rw [SortedMap.contains_ofList_iff, hkeys, List.mem_map]
  constructor
  · intro i hi
    obtain ⟨outcome, houtcome⟩ :=
      Option.isSome_iff_exists.1 ((hcontains i.guid).2 ⟨i, (horder i).2 hi, rfl⟩)
    obtain ⟨other, hother, hreports⟩ := hsound _ (SortedMap.mem_of_get?_ofList houtcome)
    have heq := hdag.compatible.guids other ((horder other).1 hother) i hi hreports.1.symm
    exact ⟨outcome, houtcome, heq ▸ hreports.2⟩
  · intro guid hguid
    obtain ⟨i, hi, heq⟩ := (hcontains guid).1 hguid
    exact ⟨i, (horder i).1 hi, heq⟩

/-- Where an instance gets done once all is done that it takes outputs of, a run gets all instances
done that only take outputs of earlier ones. -/
theorem Progresses.run_yields (h : Progresses registry listed inv good bad)
    (hdag : dag.Comprises listed) (hbackward : Dag.Backward listed) (hinv : inv [] vault) :
    Yields (run registry dag) vault
      (fun report after => report.Covers listed good ∧
        ∃ done, (∀ i ∈ listed, i ∈ done) ∧ inv done after)
      fun failure _ => bad failure := by
  obtain ⟨waves, hwaves, hscheduled⟩ := hbackward.scheduled hdag
  rw [run, yields_bind, hwaves, yields_ofExcept_ok, yields_bind]
  apply (h.executeWaves hscheduled hinv).mono ?_ fun _ _ hbad => hbad
  rintro outcomes after ⟨hall, hlisted, hafter, hreports⟩
  exact ⟨covers_of_reports hdag (fun i => ⟨hlisted i, hall i⟩) (guids_of_reports hreports)
    (exists_left_of_forall₂ hreports), _, hall, hafter⟩

/-- A graph of one instance that needs nothing is run as the instance is executed. -/
theorem run_single {good : Outcome → Prop} {post : Vault → Prop} (hdag : dag.Comprises [i])
    (hinputs : i.inputs.values = [])
    (h : Yields (execute registry i) vault (fun outcome after => good outcome ∧ post after)
      fun _ _ => False) :
    Yields (run registry dag) vault
      (fun report after => (∃ outcome, report.outcomes.get? i.guid = some outcome ∧ good outcome) ∧
        post after) fun _ _ => False := by
  have hprogresses : Progresses registry [i]
      (fun done now => i ∉ done ∧ now = vault ∨ i ∈ done ∧ post now)
      (fun _ outcome => good outcome) fun _ => False := by
    refine ⟨fun _ => False.elim, ?_⟩
    intro done other now hother hnew _ hinv
    rw [List.mem_singleton.1 hother] at hnew ⊢
    obtain ⟨-, rfl⟩ := hinv.resolve_right fun hdone => hnew hdone.1
    apply h.mono ?_ fun _ _ => False.elim
    intro outcome after hafter
    exact ⟨.inr ⟨List.mem_append_right _ (List.mem_singleton_self i), hafter.2⟩, hafter.1⟩
  apply (hprogresses.run_yields hdag (Dag.backward_single hinputs) (.inl ⟨List.not_mem_nil, rfl⟩)).mono ?_
    fun _ _ => id
  rintro report after ⟨hcovers, done, hdone, hafter⟩
  have hi := List.mem_singleton_self i
  exact ⟨hcovers.complete i hi, (hafter.resolve_left fun hnot => hnot.1 (hdone i hi)).2⟩

end Executor

end GraphVault
