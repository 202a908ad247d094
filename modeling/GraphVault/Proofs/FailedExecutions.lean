import GraphVault.Proofs.PublishingOrder
import GraphVault.Proofs.Retrievals

/-!
# What failed executions leave behind

An execution that fails has come to one of four stages: the guids of the instance are verified, its
outputs are produced, they are put one after the other, and they are written to disk. In a store that
rejects collisions it has changed nothing that was in memory. What it has added are inputs, what
references lead to, and the outputs that were put before it failed; and the disk is as it was unless
all of them were put (`Executor.execute_error`).
-/

namespace GraphVault

-- What these do is known from what they yield, so that they need not be looked into.
attribute [local irreducible] EntityDirectory.read EntityDirectory.write EntityDirectory.contains

variable {registry : Registry} {i : Instance} {outputs front rest : List (Guid × Entity)}
  {output : Guid × Entity}

namespace Vault

variable {vault start now after : Vault} {new : Guid → Prop} {guid : Guid} {entity : Entity}

/-! ### Publishing -/

/-- An output is in memory, and so are the vertex sets that it refers to. -/
structure Carries (vault : Vault) (output : Guid × Entity) : Prop where
  registered : ∃ found, vault.get? output.1 = some found ∧ found.sameContent output.2
  fits : output.2.Fits vault.registered

theorem Carries.holds (h : vault.Carries output) : vault.Holds output.1 := by
  obtain ⟨found, hfound, hsame⟩ := h.registered
  refine ⟨found, hfound, fun r hr => ?_⟩
  rw [Entity.references_eq_of_sameContent hsame] at hr
  obtain ⟨set, hset⟩ := h.fits.resolved hr
  exact ⟨set, registered_eq_ok_iff.1 hset⟩

/-- What is carried stays so where collisions are rejected. -/
theorem Carries.kept (h : now.Carries output) (hreject : now.settings.collision = .reject)
    (hkept : now.Preserves after) : after.Carries output := by
  have hall := hkept.entities hreject
  obtain ⟨found, hfound, hsame⟩ := h.registered
  refine ⟨⟨found, hall _ _ hfound, hsame⟩, h.fits.congr fun r _ set hset => ⟨set, ?_, rfl⟩⟩
  exact registered_eq_ok_iff.2 (hall _ _ (registered_eq_ok_iff.1 hset))

theorem Carries.of_entities (h : now.Carries output) (hentities : after.entities = now.entities) :
    after.Carries output := by
  refine ⟨?_, (Evolves.of_entities hentities).keepsSets.fits h.fits⟩
  rw [get?, hentities]
  exact h.registered

theorem put_carries (guid : Guid) (entity : Entity) (vault : Vault) :
    Yields (put guid entity) vault (fun _ after => after.Carries (guid, entity))
      fun _ _ => True := by
  rw [put, putWith, yields_bind]
  apply (validate_yields finds_getOrLoad entity guid vault).mono ?_ fun _ _ _ => trivial
  rintro - valid ⟨-, hfits⟩
  apply ((register_yields hfits guid).and (register_accepts guid entity valid)).mono ?_
    fun _ _ _ => trivial
  rintro _ after ⟨⟨hevolves, -⟩, -, rfl⟩
  exact ⟨⟨_, get?_insert_self valid guid _, sameContent_accepted valid guid entity⟩,
    hevolves.keepsSets.fits hfits⟩

theorem putAll_carries (hreject : vault.settings.collision = .reject) :
    Yields (putAll outputs) vault (fun _ after => ∀ output ∈ outputs, after.Carries output)
      fun _ _ => True := by
  have hround : ∀ output ∈ outputs, ∀ now : Vault, now.settings.collision = .reject →
      Yields (do let _ ← put output.1 output.2) now
        (fun _ after => after.settings.collision = .reject ∧ after.Carries output ∧
          ∀ other, now.Carries other → after.Carries other) fun _ _ => True := by
    intro output _ now hnow
    simp only [yields_bind, yields_pure]
    apply ((put_carries output.1 output.2 now).and
      (Preserves.additive.moves_put output.1 output.2 now)).mono ?_ fun _ _ _ => trivial
    rintro - after ⟨hput, hkept⟩
    exact ⟨hkept.settings ▸ hnow, hput, fun _ hother => hother.kept hnow hkept⟩
  exact (yields_forM_done hround hreject).mono (fun _ _ hafter => hafter.2) fun _ _ _ => trivial

/-- Where collisions are rejected, what is put replaces nothing. -/
theorem gains_put (hreject : start.settings.collision = .reject) (hguid : new guid)
    (hlinks : ∀ r ∈ entity.references, ∀ x, start.Links r x → new x) :
    start.Gains new (put guid entity) := by
  constructor
  intro now hnow
  apply ((put_registers guid entity hnow hlinks).and
    (Preserves.additive.moves_put guid entity now)).mono
  · rintro _ after ⟨hafter, hkept⟩
    refine ⟨⟨hafter.settings, hafter.catalog, hafter.disk, fun x found hfound => .inl ?_, ?_⟩,
      trivial⟩
    · have hthere := (hnow.kept x found hfound).resolve_right id
      exact hkept.entities (hnow.settings ▸ hreject) x found hthere
    · refine fun x hx => (hafter.only x hx).imp_right ?_
      rintro (rfl | hnew)
      · exact hguid
      · exact hnew
  · exact fun _ _ h => ⟨h.1, trivial⟩

/-! ### Persisting -/

/-- Work that leaves what is in memory as it is. -/
abbrev SparesMemory {α : Type} (vault : Vault) (good : α → Prop) (work : VaultM α) : Prop :=
  Keeps (fun now => now.entities = vault.entities) (fun _ => True) good work

theorem get?_of_entities (h : now.entities = vault.entities) (guid : Guid) :
    now.get? guid = vault.get? guid := congrArg (SortedMap.get? · guid) h

private theorem spares_require (guid : Guid) :
    vault.SparesMemory (fun entity => vault.get? guid = some entity) (require guid) := by
  refine .bind_get fun now hnow => ?_
  rw [get?_of_entities hnow]
  split
  · rename_i entity hentity
    exact ⟨hnow, hentity⟩
  · exact ⟨hnow, trivial⟩

private theorem spares_resolve {set : VertexSet} (h : vault.get? guid = some (.vertexSet set)) :
    vault.SparesMemory (fun _ => True) (resolve guid) := by
  constructor
  intro now hnow
  have hset := registered_eq_ok_iff.2 ((get?_of_entities hnow guid).trans h)
  apply ((follows_registered now guid set hset).yields now rfl).mono
  · rintro _ _ ⟨rfl, -⟩
    exact ⟨hnow, trivial⟩
  · exact fun _ _ hfalse => hfalse.2.elim

private theorem spares_onDisk (work : DiskM Unit) :
    vault.SparesMemory (fun _ => True) (onDisk work) := by
  constructor
  intro now hnow
  apply (onDisk_yields work now).mono
  · exact fun _ _ hafter => ⟨hafter.trans hnow, trivial⟩
  · exact fun _ _ hafter => ⟨hafter.trans hnow, trivial⟩

private theorem spares_modifyCatalog (change : Catalog → Catalog) :
    vault.SparesMemory (fun _ => True) (modifyCatalog change) := by
  constructor
  intro now hnow
  apply (modifyCatalog_yields change now).mono
  · exact fun _ _ hafter => ⟨hafter.trans hnow, trivial⟩
  · exact fun _ _ hafter => ⟨hafter.trans hnow, trivial⟩

/-- What is in memory with its vertex sets is persisted without looking for anything else. -/
private theorem spares_persistWithin (fuel : Nat) (h : vault.Holds guid) (producer : Option Guid) :
    vault.SparesMemory (fun _ => True) (persistWithin fuel guid producer) := by
  obtain ⟨entity, hentity, hsets⟩ := h
  induction fuel generalizing guid entity producer with
  | zero => exact .throw trivial
  | succ fuel ih =>
    refine (spares_require guid).bind fun found hfound => ?_
    obtain rfl : found = entity := Option.some.inj (hfound.symm.trans hentity)
    refine .bind (.forM fun r hr => .bind_get fun now hnow => Keeps.yields ?_ now hnow)
      fun _ _ => ?_
    · split
      · obtain ⟨set, hset⟩ := hsets r hr
        exact (ih none _ hset nofun).bind fun _ _ => .pure trivial
      · exact .pure trivial
    · have hresolve : ∀ r ∈ found.references, vault.SparesMemory (fun _ => True) (resolve r) := by
        intro r hr
        obtain ⟨set, hset⟩ := hsets r hr
        exact spares_resolve hset
      refine (Ordered.keeps_encode hresolve guid).bind fun stored _ => ?_
      refine .bind_get fun now hnow => Keeps.yields ?_ now hnow
      refine ((spares_onDisk _).bind fun _ _ => .pure trivial).bind fun path (_ : True) => ?_
      exact (keeps_record_of_modifyCatalog (fun _ => spares_modifyCatalog _) producer).bind
        fun _ _ => .pure trivial

theorem spares_persistOutputs (h : ∀ output ∈ outputs, vault.Holds output.1) (i : Instance) :
    vault.SparesMemory (fun _ => True) (Executor.persistOutputs i outputs) := by
  refine .bind (.forM fun output houtput => ?_) fun _ _ => spares_modifyCatalog _
  have hpersist : vault.SparesMemory (fun _ => True) (persistFrom output.1 (some i.guid)) :=
    .bind_get fun now hnow =>
      (spares_persistWithin _ (h output houtput) (some i.guid)).yields now hnow
  exact hpersist.bind fun _ _ => .pure trivial

end Vault

namespace Executor

open Vault

variable {vault after : Vault} {failure : Failure}

/-! ### How far an execution comes -/

/-- A part of an execution, which may fail. -/
inductive Stage where
  /-- The guids of the instance are checked. -/
  | verification
  /-- The inputs are resolved, the operation is run and its slots are checked. -/
  | production
  /-- The outputs are put. -/
  | publication
  /-- The outputs are written to disk. -/
  | saving

/-- An execution fails at a stage, when it has put some of the outputs that are produced, and not
the rest of them. -/
inductive Fails (registry : Registry) (i : Instance) (vault : Vault) (failure : Failure) :
    Vault → Stage → (done rest : List (Guid × Entity)) → Prop where
  | verification (hverify : i.verify = .error failure) :
      Fails registry i vault failure vault .verification [] []
  | production {after : Vault} (hproduce : produce registry i vault = .error failure after) :
      Fails registry i vault failure after .production [] []
  | publication {produced now after : Vault} {done rest : List (Guid × Entity)}
      {output : Guid × Entity}
      (hproduce : produce registry i vault = .ok (done ++ output :: rest) produced)
      (hdone : putAll done produced = .ok () now)
      (hput : put output.1 output.2 now = .error failure after) :
      Fails registry i vault failure after .publication done (output :: rest)
  | saving {produced now after : Vault} {done : List (Guid × Entity)}
      (hproduce : produce registry i vault = .ok done produced)
      (hdone : putAll done produced = .ok () now)
      (hsave : persistOutputs i done now = .error failure after) :
      Fails registry i vault failure after .saving done []

/-- Where outputs are not put, one of them fails to be, behind others that are put. -/
theorem exists_of_putAll_error {produced : Vault}
    (h : putAll outputs produced = .error failure after) :
    ∃ done output rest now, outputs = done ++ output :: rest ∧ putAll done produced = .ok () now ∧
      put output.1 output.2 now = .error failure after := by
  obtain ⟨done, output, rest, now, houtputs, hdone, hround⟩ := exists_of_forM_error h
  refine ⟨done, output, rest, now, houtputs, hdone, ?_⟩
  simp only [bind, EStateM.bind] at hround
  cases hput : put output.1 output.2 now with
  | ok found last =>
    rw [hput] at hround
    cases hround
  | error failure last =>
    rw [hput] at hround
    cases hround
    rfl

/-- An execution that fails does so at one of its stages. -/
theorem exists_fails (h : execute registry i vault = .error failure after) :
    ∃ stage done rest, Fails registry i vault failure after stage done rest := by
  have hyields : Yields (execute registry i) vault (fun _ _ => True) fun failure after =>
      ∃ stage done rest, Fails registry i vault failure after stage done rest := by
    rw [execute, yields_bind]
    refine yields_ofExcept (fun _ _ => ?_) fun _ hverify => ⟨_, _, _, .verification hverify⟩
    rw [yields_bind, yields_get]
    split
    · trivial
    rw [yields_bind]
    cases hproduce : produce registry i vault with
    | error failure last =>
      exact (yields_iff_of_error hproduce).2 ⟨_, _, _, .production hproduce⟩
    | ok outputs produced =>
      rw [yields_iff_of_ok hproduce, yields_bind]
      cases hdone : putAll outputs produced with
      | error failure last =>
        obtain ⟨done, output, rest, now, rfl, hdone, hput⟩ := exists_of_putAll_error hdone
        refine (yields_iff_of_error ‹_›).2 ⟨_, _, _, .publication hproduce hdone hput⟩
      | ok _ now =>
        rw [putAll] at hdone
        rw [yields_iff_of_ok hdone, yields_bind, yields_get]
        split
        · rw [yields_bind]
          cases hsave : persistOutputs i outputs now with
          | ok _ last => exact (yields_iff_of_ok hsave).2 trivial
          | error failure last =>
            exact (yields_iff_of_error hsave).2 ⟨_, _, _, .saving hproduce hdone hsave⟩
        · trivial
  exact (yields_iff_of_error h).1 hyields

/-! ### What is left -/

/-- What a guid is that is new once an execution has failed: what references lead to from an input
or from an output that was offered, the input itself, or an output that was put. -/
def New (i : Instance) (vault : Vault) (done offered : List (Guid × Entity)) (guid : Guid) : Prop :=
  (∃ input ∈ i.inputs.values, vault.Links input guid) ∨ guid ∈ done.map (·.1) ∨
    ∃ output ∈ offered, ∃ r ∈ output.2.references, vault.Links r guid

/-- What is left of an execution that failed once it had put some of its outputs. -/
structure Trace (i : Instance) (vault after : Vault) (done rest : List (Guid × Entity)) :
    Prop where
  kept : ∀ guid entity, vault.get? guid = some entity → after.get? guid = some entity
  carries : ∀ output ∈ done, after.Carries output
  only : ∀ guid, after.has guid → vault.has guid ∨ New i vault done (done ++ rest.take 1) guid
  declared : ∀ output ∈ done ++ rest, output.1 ∈ i.outputs.values
  order : InOrder (done ++ rest)

theorem gains_produce (registry : Registry) (i : Instance) (vault : Vault) :
    vault.Gains (fun guid => ∃ input ∈ i.inputs.values, vault.Links input guid)
      (produce registry i) := by
  have hinputs : Keeps
      (vault.Extends Nothing fun guid => ∃ input ∈ i.inputs.values, vault.Links input guid)
      (fun _ => True) (i.Binds fun _ _ => True) (resolveInputs i) := by
    refine keeps_resolveInputs fun slot input hslot => ?_
    have hmem : input ∈ i.inputs.values := Instance.mem_values_of_get? hslot
    exact (gains_getOrLoad fun x hx => ⟨input, hmem, hx⟩).tryCatch fun _ _ => .throw trivial
  refine hinputs.bind fun inputs _ => ?_
  refine Keeps.bind (.ofExcept (fun _ _ => trivial) fun _ _ => trivial) fun context (_ : True) => ?_
  exact Keeps.bind (.ofExcept (fun _ _ => trivial) fun _ _ => trivial) fun _ (_ : True) =>
    .pure trivial

/-- What is produced is declared, and comes in order. -/
private theorem produced_spec (hfaithful : registry.Faithful)
    (hproduce : produce registry i vault = .ok outputs after) :
    (∀ output ∈ outputs, output.1 ∈ i.outputs.values) ∧ InOrder outputs := by
  have hguids := ((yields_iff_of_ok hproduce).1 (produce_yields hfaithful i vault)).2
  exact ⟨fun output houtput => (hguids output.1).1 (List.mem_map_of_mem houtput),
    produce_inOrder hproduce⟩

/-- Outputs that are put add themselves and what their references lead to. -/
private theorem extends_of_putAll {produced now : Vault} {done offered : List (Guid × Entity)}
    (hreject : vault.settings.collision = .reject)
    (hproduce : produce registry i vault = .ok outputs produced)
    (hdone : putAll done produced = .ok () now) (hoffered : done ⊆ offered) :
    vault.Extends Nothing (New i vault done offered) now ∧ ∀ output ∈ done, now.Carries output := by
  have hproduced := ((yields_iff_of_ok hproduce).1
    ((gains_produce registry i vault).yields vault (.refl _ _ vault))).1
  have hputs : vault.Gains (New i vault done offered) (putAll done) := by
    refine .forM fun output houtput => ?_
    have hput : vault.Gains (New i vault done offered) (put output.1 output.2) :=
      gains_put hreject (.inr (.inl (List.mem_map_of_mem houtput))) fun r hr x hx =>
        .inr (.inr ⟨output, hoffered houtput, r, hr, hx⟩)
    exact hput.bind fun _ _ => .pure trivial
  have hreject' : produced.settings.collision = .reject := hproduced.settings ▸ hreject
  exact ⟨((yields_iff_of_ok hdone).1 (hputs.yields produced (hproduced.mono fun _ => .inl))).1,
    (yields_iff_of_ok hdone).1 (putAll_carries hreject')⟩

private theorem Fails.trace {stage : Stage} {done rest : List (Guid × Entity)}
    (h : Fails registry i vault failure after stage done rest) (hfaithful : registry.Faithful)
    (hreject : vault.settings.collision = .reject) :
    Trace i vault after done rest ∧
      (stage ≠ .saving → after.disk = vault.disk ∧ after.catalog = vault.catalog) := by
  cases h with
  | verification hverify =>
    exact ⟨⟨fun _ _ h => h, nofun, fun _ h => .inl h, nofun, .nil⟩, fun _ => ⟨rfl, rfl⟩⟩
  | production hproduce =>
    have hafter := ((yields_iff_of_error hproduce).1
      ((gains_produce registry i vault).yields vault (.refl _ _ vault))).1
    refine ⟨⟨fun guid entity h => ?_, nofun, fun guid h => ?_, nofun, .nil⟩,
      fun _ => ⟨hafter.disk, hafter.catalog⟩⟩
    · exact (hafter.kept guid entity h).resolve_right id
    · exact (hafter.only guid h).imp_right .inl
  | @publication produced now _ _ rest output hproduce hdone hput =>
    obtain ⟨hdeclared, horder⟩ := produced_spec hfaithful hproduce
    obtain ⟨hnow, hcarries⟩ := extends_of_putAll hreject hproduce hdone
      (List.subset_append_left done [output])
    have hafter : vault.Extends Nothing (New i vault done (done ++ [output])) after := by
      refine (yields_iff_of_error hput).1 (put_registers output.1 output.2 hnow fun r hr x hx => ?_)
      exact .inr (.inr ⟨output, List.mem_append_right _ List.mem_cons_self, r, hr, hx⟩)
    have hkept := (yields_iff_of_error hput).1 (Preserves.additive.moves_put output.1 output.2 now)
    have hreject' : now.settings.collision = .reject := hnow.settings ▸ hreject
    refine ⟨⟨fun guid entity h => ?_, fun other hother => ?_, hafter.only, hdeclared, horder⟩,
      fun _ => ⟨hafter.disk, hafter.catalog⟩⟩
    · exact (hafter.kept guid entity h).resolve_right id
    · exact (hcarries other hother).kept hreject' hkept
  | @saving produced now _ _ hproduce hdone hsave =>
    obtain ⟨hdeclared, horder⟩ := produced_spec hfaithful hproduce
    obtain ⟨hnow, hcarries⟩ := extends_of_putAll hreject hproduce hdone
      (List.subset_append_left done [])
    have hspared : after.entities = now.entities := ((yields_iff_of_error hsave).1
      ((spares_persistOutputs (fun output houtput => (hcarries output houtput).holds) i).yields now
        rfl)).1
    have hget := get?_of_entities hspared
    refine ⟨⟨fun guid entity h => ?_, fun output houtput => ?_, fun guid h => ?_, ?_, ?_⟩,
      fun hsaving => absurd rfl hsaving⟩
    · exact (hget guid).trans ((hnow.kept guid entity h).resolve_right id)
    · exact (hcarries output houtput).of_entities hspared
    · rw [has_iff, hget, ← has_iff] at h
      exact hnow.only guid h
    · simpa using hdeclared
    · simpa using horder

/-- In a store that rejects collisions, whatever is on disk and whatever the operations do with what
they are handed, an execution that fails leaves all that was in memory as it was. What is new are the
inputs, the outputs that were put, which are declared and come first in the order of publication, and
what references lead to from an input or from an output that was put or refused. Nothing is put if
the instance is not verified or its outputs are not produced, and nothing has changed on disk or in
the catalog unless all outputs were put. -/
theorem execute_error (hfaithful : registry.Faithful) (hreject : vault.settings.collision = .reject)
    (h : execute registry i vault = .error failure after) :
    ∃ stage done rest, Fails registry i vault failure after stage done rest ∧
      Trace i vault after done rest ∧
      (stage ≠ .saving → after.disk = vault.disk ∧ after.catalog = vault.catalog) := by
  obtain ⟨stage, done, rest, hfails⟩ := exists_fails h
  exact ⟨stage, done, rest, hfails, hfails.trace hfaithful hreject⟩

/-! ### An execution that fails halfway -/

/-- An operation that hands over a vertex set, and then one in which a vertex occurs twice. -/
def stumble : Operation where
  className := "Stumble"
  Params := Unit
  form := ParamForm.none
  execute _ context := do
    let context ← context.output "first" (.vertexSet ⟨[7]⟩)
    context.output "second" (.vertexSet ⟨[7, 7]⟩)

/-- An instance of the operation that stumbles. -/
def stumbleInstance : Instance :=
  .derive ⟨"Stumble", []⟩ SortedMap.empty ["first", "second"]

private theorem faithful_stumble : (Registry.ofList [stumble]).Faithful := by
  intro i inputs context hrun
  have hserves (params : Unit) : Computes Failure.OfExecution (Context.Serves i fun _ _ => True)
      (stumble.execute params (Context.start i inputs)) :=
    ((Context.serves_start i inputs _).computes_output trivial).bind fun _ hfirst =>
      hfirst.computes_output trivial
  unfold Registry.run Registry.withOperation at hrun
  split at hrun
  · rename_i operation hknown
    obtain rfl := List.mem_singleton.1 (Registry.mem_of_get?_ofList hknown).1
    obtain ⟨params, -, hexecute⟩ := bind_eq_ok_iff.1 hrun
    have hcontext := hserves params
    rw [hexecute] at hcontext
    exact hcontext.declared
  · cases hrun

-- The digests in it are not to be computed.
attribute [local irreducible] Derivation.outputGuid Derivation.instanceGuid

/-- The first output is put and stays, where the second one is refused. -/
theorem execute_error_halfway :
    ∃ failure after, execute (Registry.ofList [stumble]) stumbleInstance (Vault.inMemory Disk.empty)
        = .error failure after ∧
      after.get? (Derivation.outputGuid stumbleInstance.guid "first") = some (.vertexSet ⟨[7]⟩) ∧
      ∃ stage done rest, Fails (Registry.ofList [stumble]) stumbleInstance
          (Vault.inMemory Disk.empty) failure after stage done rest ∧
        Trace stumbleInstance (Vault.inMemory Disk.empty) after done rest ∧
        (stage ≠ .saving → after.disk = Disk.empty ∧ after.catalog = none) := by
  let outputs : List (Guid × Entity) :=
    [(Derivation.outputGuid stumbleInstance.guid "first", .vertexSet ⟨[7]⟩),
      (Derivation.outputGuid stumbleInstance.guid "second", .vertexSet ⟨[7, 7]⟩)]
  have hproduce : produce (Registry.ofList [stumble]) stumbleInstance (Vault.inMemory Disk.empty)
      = .ok outputs (Vault.inMemory Disk.empty) := by
    have horder : outputs.mergeSort (fun a b => a.2.publishRank ≤ b.2.publishRank) = outputs :=
      List.mergeSort_of_pairwise (by decide)
    rw [← horder]
    rfl
  have hexecute : Yields (execute (Registry.ofList [stumble]) stumbleInstance)
      (Vault.inMemory Disk.empty) (fun _ _ => False) fun _ after =>
        after.get? (Derivation.outputGuid stumbleInstance.guid "first")
          = some (.vertexSet ⟨[7]⟩) := by
    have hverify : stumbleInstance.verify = .ok () := Instance.verify_derive _ _ _
    rw [execute, hverify, yields_bind, yields_ofExcept_ok, yields_bind, yields_get, isCached_empty,
      if_neg Bool.false_ne_true, yields_bind, yields_iff_of_ok hproduce, yields_bind]
    obtain ⟨failure, hput⟩ : ∃ failure, putAll outputs (Vault.inMemory Disk.empty) = .error failure
        ((Vault.inMemory Disk.empty).insert outputs[0].1 outputs[0].2) := ⟨_, rfl⟩
    exact (yields_iff_of_error hput).2 (get?_insert_self _ _ _)
  obtain ⟨failure, after, hresult, hfirst⟩ := hexecute.exists_error
  exact ⟨failure, after, hresult, hfirst, execute_error faithful_stumble rfl hresult⟩

end Executor

end GraphVault
