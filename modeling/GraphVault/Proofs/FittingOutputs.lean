import GraphVault.Proofs.PublishingOrder
import GraphVault.Proofs.Repeating

/-!
# Outputs fit

In a store without copies in which all that is registered fits, a built-in operation makes nothing
that does not fit, whatever its parameters, inputs and declared slots are. So an execution that
fails does so for another reason, and after one that succeeds the declared slots are filled with
what the operation stands for (`Executor.execute_fits`): columns of one constant, and edges with
their ends exchanged.
-/

namespace GraphVault

-- Nothing depends on what is read from a disk.
attribute [local irreducible] EntityDirectory.read EntityDirectory.contains

/-- Whether a failure says that an entity does not fit the vertex sets that it refers to. -/
def Failure.OfFit : Failure → Prop
  | lengthMismatch _ _ _ _ | positionOutOfRange _ _ _ _ _ | duplicateExternalId _ _
  | missingEntity _ => True
  | _ => False

theorem Failure.OfOperation.not_ofFit {failure : Failure} (h : failure.OfOperation) :
    ¬ failure.OfFit := by
  cases failure <;> first | exact id | exact h.elim

/-! ### Content that is defined everywhere -/

/-- Only a column that is defined everywhere has the content of one that is. -/
theorem Attribute.eq_of_sameContent_dense {α : Type} [DecidableEq α] {column : Attribute α}
    {set : Guid} {values : List α} (h : (dense set values).sameContent column) :
    column = dense set values := by
  obtain ⟨hset, hdefined, hsize, hcells⟩ := sameContent_iff.1 h
  have hvalues : column.values = values := by
    refine List.ext_getElem hsize.symm fun n hn hn' => ?_
    have hcell : (n, values[n]) ∈ (dense set values).cells :=
      mem_cells_iff.2 ⟨by simp [dense, hn'], by simp [dense, hn']⟩
    rw [hcells, mem_cells_iff, List.getElem?_eq_getElem hn, Option.some.injEq] at hcell
    exact hcell.1
  obtain ⟨columnValues, columnDefined, columnSet⟩ := column
  subst hvalues
  exact congrArg₂ (Attribute.mk columnValues) hdefined.symm hset.symm

theorem Entity.eq_of_sameContent_dense {type : ColumnType} {set : Guid} {values : List type.Cell}
    {entity : Entity} (h : entity.sameContent (.column type (Attribute.dense set values))) :
    entity = .column type (Attribute.dense set values) := by
  obtain ⟨cells, rfl, hcells⟩ := sameContent_column_iff.1 (sameContent_symm h)
  rw [Attribute.eq_of_sameContent_dense hcells]

theorem Entity.eq_of_sameContent_edgeBundle {bundle : EdgeBundle} {entity : Entity}
    (h : entity.sameContent (.edgeBundle bundle)) : entity = .edgeBundle bundle :=
  sameContent_edgeBundle_iff.1 (sameContent_symm h)

variable {vault now after last : Vault} {i j : Instance} {slot : String} {guid : Guid}
  {entity : Entity} {inputs : SortedMap String (Guid × Entity)}
  {outputs front back : List (Guid × Entity)} {output : Guid × Entity}

/-! ### What the classes make -/

theorem Makes.of_constant {type : ColumnType} (hclass : constantClass type = some i.className)
    (h : Makes i inputs slot entity) :
    ∃ value input set, type.codec.read i.description.params = .ok value ∧
      inputs.get? "vs" = some (input, .vertexSet set) ∧
      entity = .column type (Attribute.dense input (List.replicate set.size value)) := by
  cases h with
  | exampleGraph hclass' => exact absurd hclass' (constantClass_ne hclass).1
  | constantColumn hclass' hvalue hinput =>
    cases constantClass_inj hclass hclass'
    exact ⟨_, _, _, hvalue, hinput, rfl⟩
  | reverseEdges hclass' => exact absurd hclass' (constantClass_ne hclass).2

theorem Makes.of_reverse (hclass : i.className = "ReverseEdges") (h : Makes i inputs slot entity) :
    ∃ input bundle, inputs.get? "es" = some (input, .edgeBundle bundle) ∧
      entity = .edgeBundle bundle.reverse := by
  cases h with
  | exampleGraph hclass' =>
    rw [hclass] at hclass'
    exact absurd hclass' (by decide)
  | constantColumn hclass' => exact absurd hclass (constantClass_ne hclass').2
  | reverseEdges _ hinput => exact ⟨_, _, hinput, rfl⟩

namespace Vault

/-! ### Putting outputs one by one -/

/-- What a store has come to as some of several outputs have been put. -/
structure Filling (vault : Vault) (front : List (Guid × Entity)) (now : Vault) : Prop where
  evolves : vault.Evolves now
  rest : vault.Agree (· ∉ front.map (·.1)) now
  filled : ∀ guid ∈ front.map (·.1), ∃ offered registered, (guid, offered) ∈ front ∧
    now.get? guid = some registered ∧ registered.sameContent offered
  sets : ∀ guid set, (guid, .vertexSet set) ∈ front →
    ∃ set', now.get? guid = some (.vertexSet set') ∧ set'.size = set.size

theorem filling_nil (vault : Vault) : vault.Filling [] vault :=
  ⟨Std.Refl.refl vault, .refl _ vault, nofun, nofun⟩

theorem Filling.accept (h : vault.Filling front now)
    (hevolves : now.Evolves (now.accept output.1 output.2)) :
    vault.Filling (front ++ [output]) (now.accept output.1 output.2) := by
  have hself := get?_insert_self now output.1 (now.accepted output.1 output.2)
  have hsame := sameContent_accepted now output.1 output.2
  constructor
  case evolves => exact Trans.trans h.evolves hevolves
  case rest =>
    have hrest : vault.Agree (· ∉ (front ++ [output]).map (·.1)) now :=
      h.rest.mono fun guid hguid hmem => hguid (by simp [hmem])
    exact hrest.trans (.of_insert now (by simp) _)
  case filled =>
    intro guid hguid
    by_cases heq : guid = output.1
    · exact ⟨output.2, _, by simp [heq], heq ▸ hself, hsame⟩
    · have hfront : guid ∈ front.map (·.1) := by simpa [heq] using hguid
      obtain ⟨offered, registered, hoffered, hget, hcontent⟩ := h.filled guid hfront
      refine ⟨offered, registered, List.mem_append_left _ hoffered, ?_, hcontent⟩
      exact (get?_insert_of_ne now _ heq).trans hget
  case sets =>
    intro guid set hmem
    rcases List.mem_append.1 hmem with hfront | hlast
    · obtain ⟨set₁, hset₁, hsize₁⟩ := h.sets guid set hfront
      obtain ⟨set₂, hset₂, hsize₂⟩ := hevolves.keepsSets guid set₁ hset₁
      exact ⟨set₂, hset₂, hsize₂.trans hsize₁⟩
    · cases List.mem_singleton.1 hlast
      have heq := Entity.sameContent_vertexSet_iff.1 (Entity.sameContent_symm hsame)
      exact ⟨set, hself.trans (congrArg some heq), rfl⟩

/-- An output that fits is put, unless it collides with something else. -/
theorem Filling.put (h : vault.Filling front now) (hfits : output.2.Fits now.registered) :
    Yields (put output.1 output.2) now (fun _ after => vault.Filling (front ++ [output]) after)
      fun failure after => vault.Filling front after ∧ ∃ guid, failure = .collision guid := by
  apply ((put_of_fitting hfits output.1).and (moves_put output.1 output.2 now)).mono
  · rintro _ _ ⟨⟨-, rfl⟩, hevolves⟩
    exact h.accept hevolves
  · rintro _ _ ⟨⟨-, rfl, rfl⟩, -⟩
    exact ⟨h, output.1, rfl⟩

/-- Outputs each of which fits once those before it have been put are put, unless one of them
collides with something else. -/
theorem putAll_fills (hfits : ∀ front output back, outputs = front ++ output :: back →
      ∀ now, vault.Filling front now → output.2.Fits now.registered) :
    Yields (putAll outputs) vault (fun _ after => vault.Filling outputs after)
      fun failure after => vault.Agree (· ∉ outputs.map (·.1)) after ∧
        ∃ guid, failure = .collision guid := by
  -- for the induction, some of the outputs have been put
  suffices hback : ∀ back front now, outputs = front ++ back → vault.Filling front now →
      Yields (putAll back) now (fun _ after => vault.Filling outputs after)
        fun failure after => vault.Agree (· ∉ outputs.map (·.1)) after ∧
          ∃ guid, failure = .collision guid from
    hback outputs [] vault rfl (filling_nil vault)
  intro back
  induction back with
  | nil =>
    rintro front now hsplit hfilling
    rw [List.append_nil] at hsplit
    exact hsplit ▸ hfilling
  | cons output back ih =>
    intro front now hsplit hfilling
    simp only [putAll, List.forM_eq_forM, List.forM_cons, yields_bind, yields_pure]
    apply (hfilling.put (hfits front output back hsplit now hfilling)).mono
    · intro _ between hbetween
      exact ih (front ++ [output]) between (by simp [hsplit]) hbetween
    · rintro failure between ⟨hbetween, hfailure⟩
      refine ⟨hbetween.rest.mono fun guid hguid hmem => hguid ?_, hfailure⟩
      rw [hsplit, List.map_append]
      exact List.mem_append_left _ hmem

end Vault

namespace Executor

open Vault

/-! ### Producing outputs -/

/-- Outputs that an instance of a built-in class makes of what is registered. -/
structure Made (vault : Vault) (i : Instance) (outputs : List (Guid × Entity)) : Prop where
  inOrder : InOrder outputs
  made : ∃ inputs, i.Binds (fun guid entity => vault.get? guid = some entity) inputs ∧
    i.Hands (Makes i inputs) outputs
  slots : ∀ slot, i.outputs.contains slot ↔ slot ∈ filledSlots i.className

/-- Without copies, outputs are made of what is registered, or something is amiss with the instance
and its inputs. -/
theorem produce_made (hmemory : vault.MemoryOnly) (i : Instance) :
    Yields (produce Registry.builtin i) vault
      (fun outputs after => after = vault ∧ Made vault i outputs)
      fun failure after => after = vault ∧ ¬ failure.OfFit := by
  have hbound : Keeps (fun now => now.MemoryOnly ∧ vault.Agree (fun _ => ¬ False) now)
      (fun failure => ∃ slot guid, failure = .missingInput slot guid)
      (i.Binds fun guid entity => vault.get? guid = some entity) (resolveInputs i) :=
    keeps_bound vault fun _ _ => id
  have hstart : vault.MemoryOnly ∧ vault.Agree (fun _ => ¬ False) vault := ⟨hmemory, .refl _ vault⟩
  have hsame {after : Vault} (h : vault.Agree (fun _ => ¬ False) after) : after = vault :=
    (h.mono fun _ _ => id).eq
  have hmissing : ∀ failure : Failure, (∃ slot guid, failure = .missingInput slot guid) →
      ¬ failure.OfFit := by
    rintro _ ⟨slot, guid, rfl⟩
    exact id
  have hmakes := keeps_produce (hbound.mono (fun _ h => h) hmissing)
    (fun inputs _ => (makes_run i inputs).weaken fun _ h => h.not_ofFit)
    fun _ h => h.ofOperation.not_ofFit
  have hruns := keeps_produce_runsTo (hbound.mono (fun _ h => h) fun _ _ => trivial)
    fun _ _ => .inr fun _ => trivial
  apply ((hmakes.yields vault hstart).and (hruns.yields vault hstart)).mono
  · rintro outputs after ⟨⟨⟨-, hagree⟩, horder, hmade⟩, -, -, _, _, -, hrunsTo, -⟩
    exact ⟨hsame hagree, horder, hmade, hrunsTo.contains_iff⟩
  · rintro failure after ⟨⟨⟨-, hagree⟩, hfailure⟩, -⟩
    exact ⟨hsame hagree, hfailure⟩

theorem Made.mem_guids_iff (h : Made vault i outputs) :
    guid ∈ outputs.map (·.1) ↔ guid ∈ i.outputs.values := by
  obtain ⟨_, -, hhands⟩ := h.made
  exact hhands.mem_guids_iff

theorem Made.exists_guid (h : Made vault i outputs) (hslot : slot ∈ filledSlots i.className) :
    ∃ guid, i.outputs.get? slot = some guid :=
  Option.isSome_iff_exists.1 ((h.slots slot).2 hslot)

/-- Each output fits by the time it is put. -/
theorem Made.fits (h : Made vault i outputs) (hfitting : vault.Fitting)
    (hsplit : outputs = front ++ output :: back) (hfilling : vault.Filling front now) :
    output.2.Fits now.registered := by
  subst hsplit
  obtain ⟨inputs, hbinds, hhands⟩ := h.made
  obtain ⟨slot, -, hmakes⟩ := hhands.sound output (List.mem_append_right _ List.mem_cons_self)
  apply fits_of_makes hfitting hbinds hfilling.evolves.keepsSets hmakes
  intro hrank vertices hslot
  exact hfilling.sets vertices exampleSet (vertices_mem_front hhands h.inOrder hrank hslot)

/-- Under each output guid there is something with the content of what was made for it. -/
theorem Made.exists_registered (h : Made vault i outputs) (hfilling : vault.Filling outputs after)
    (hslot : i.outputs.get? slot = some guid) :
    ∃ inputs other offered registered,
      i.Binds (fun guid entity => vault.get? guid = some entity) inputs ∧
      Makes i inputs other offered ∧ after.get? guid = some registered ∧
      registered.sameContent offered := by
  have hguid := h.mem_guids_iff.2 (Instance.mem_values_of_get? hslot)
  obtain ⟨inputs, hbinds, hhands⟩ := h.made
  obtain ⟨offered, registered, hoffered, hget, hsame⟩ := hfilling.filled guid hguid
  obtain ⟨other, -, hmakes⟩ := hhands.sound _ hoffered
  exact ⟨inputs, other, offered, registered, hbinds, hmakes, hget, hsame⟩

/-! ### Executing an instance -/

/-- What a store has come to by computing an instance of a built-in class. -/
structure Fills (vault : Vault) (i : Instance) (after : Vault) : Prop where
  identity : i.guid = Derivation.instanceGuid i.description i.inputs
  derived : ∀ slot guid, i.outputs.get? slot = some guid →
    guid = Derivation.outputGuid i.guid slot
  slots : ∀ slot, i.outputs.contains slot ↔ slot ∈ filledSlots i.className
  fits : ∀ slot guid, i.outputs.get? slot = some guid →
    ∃ entity, after.get? guid = some entity ∧ entity.Fits after.registered
  /-- The cells of a column are all defined, as the parameter, over the set that is the input. -/
  constant : ∀ type, constantClass type = some i.className → ∃ guid value input set,
    i.outputs.get? "attr" = some guid ∧ type.codec.read i.description.params = .ok value ∧
    i.inputs.get? "vs" = some input ∧ vault.get? input = some (.vertexSet set) ∧
    after.get? guid = some (.column type
      ⟨List.replicate set.size value, List.replicate set.size true, input⟩)
  /-- The ends of the edges are exchanged, with the sets that they are in. -/
  reversed : i.className = "ReverseEdges" → ∃ guid input bundle,
    i.outputs.get? "reversed" = some guid ∧ i.inputs.get? "es" = some input ∧
    vault.get? input = some (.edgeBundle bundle) ∧
    after.get? guid = some (.edgeBundle ⟨bundle.destinations, bundle.sources, bundle.ids,
      bundle.destinationSet, bundle.sourceSet⟩)

theorem Made.fills (h : Made vault i outputs) (hfitting : vault.Fitting)
    (hverify : i.verify = .ok ()) (hfilling : vault.Filling outputs after) :
    Fills vault i after := by
  obtain ⟨hidentity, hderived⟩ := Instance.verify_eq_ok_iff.1 hverify
  constructor
  case identity => exact hidentity
  case derived => exact hderived
  case slots => exact h.slots
  case fits =>
    intro slot guid hslot
    obtain ⟨-, -, -, registered, -, -, hget, -⟩ := h.exists_registered hfilling hslot
    exact ⟨registered, hget, hfilling.evolves.fitting hfitting guid registered hget⟩
  case constant =>
    intro type hclass
    have hfilled : "attr" ∈ filledSlots i.className := by
      simp [filledSlots, (constantClass_ne hclass).1, (constantClass_ne hclass).2]
    obtain ⟨guid, hslot⟩ := h.exists_guid hfilled
    obtain ⟨inputs, _, _, _, hbinds, hmakes, hget, hsame⟩ := h.exists_registered hfilling hslot
    obtain ⟨value, input, set, hvalue, hinput, rfl⟩ := hmakes.of_constant hclass
    obtain ⟨hvs, hset⟩ := hbinds.sound _ _ _ hinput
    rw [Entity.eq_of_sameContent_dense hsame, Attribute.dense, List.map_replicate] at hget
    exact ⟨guid, value, input, set, hslot, hvalue, hvs, hset, hget⟩
  case reversed =>
    intro hclass
    have hfilled : "reversed" ∈ filledSlots i.className := by
      rw [hclass]
      decide
    obtain ⟨guid, hslot⟩ := h.exists_guid hfilled
    obtain ⟨inputs, _, _, _, hbinds, hmakes, hget, hsame⟩ := h.exists_registered hfilling hslot
    obtain ⟨input, bundle, hinput, rfl⟩ := hmakes.of_reverse hclass
    obtain ⟨hes, hbundle⟩ := hbinds.sound _ _ _ hinput
    rw [Entity.eq_of_sameContent_edgeBundle hsame] at hget
    exact ⟨guid, input, bundle, hslot, hes, hbundle, hget⟩

/-- Whatever comes of an execution in a store without copies, only what goes by the output guids is
changed, and what is put there fits. -/
theorem execute_fills (hmemory : vault.MemoryOnly) (hfitting : vault.Fitting) (i : Instance) :
    Yields (execute Registry.builtin i) vault
      (fun outcome after => vault.Agree (· ∉ i.outputs.values) after ∧
        (outcome = .computed → Fills vault i after))
      fun failure after => vault.Agree (· ∉ i.outputs.values) after ∧ ¬ failure.OfFit := by
  rw [execute, yields_bind]
  refine yields_ofExcept (fun _ hverify => ?_) fun failure hfailure => ?_
  · rw [yields_bind, yields_get]
    split
    · refine ⟨.refl _ vault, fun hcomputed => ?_⟩
      cases hcomputed
    rw [yields_bind]
    apply (produce_made hmemory i).mono
    · rintro outputs _ ⟨rfl, hmade⟩
      have hscope : ∀ guid, guid ∉ i.outputs.values → guid ∉ outputs.map (·.1) :=
        fun guid hguid hmem => hguid (hmade.mem_guids_iff.1 hmem)
      rw [yields_bind]
      apply (putAll_fills fun _ _ _ hsplit _ hfilling => hmade.fits hfitting hsplit hfilling).mono
      · intro _ after hfilling
        have hagree := hfilling.rest.mono hscope
        rw [yields_bind, yields_get, (hagree.memoryOnly hmemory).transient]
        exact ⟨hagree, fun _ => hmade.fills hfitting hverify hfilling⟩
      · rintro _ after ⟨hagree, guid, rfl⟩
        exact ⟨hagree.mono hscope, id⟩
    · rintro failure _ ⟨rfl, hfailure⟩
      exact ⟨.refl _ _, hfailure⟩
  · obtain ⟨declared, derived, rfl⟩ := Instance.verify_error hfailure
    exact ⟨.refl _ vault, id⟩

/-- An instance takes the edges under one guid and puts them in reverse under another one. -/
structure Reverses (i : Instance) (input output : Guid) : Prop where
  className : i.className = "ReverseEdges"
  input : i.inputs.get? "es" = some input
  output : i.outputs.get? "reversed" = some output

theorem Fills.reverses {input output : Guid} (h : Fills vault i after)
    (hi : Reverses i input output) : ∃ bundle, vault.get? input = some (.edgeBundle bundle) ∧
      after.get? output = some (.edgeBundle bundle.reverse) := by
  obtain ⟨guid, other, bundle, houtput, hinput, hbundle, hget⟩ := h.reversed hi.className
  cases houtput.symm.trans hi.output
  cases hinput.symm.trans hi.input
  exact ⟨bundle, hbundle, hget⟩

/-! ### Reversing edges -/

/-- The guid of the instance that reverses the edges under a guid. -/
def reversalGuid (input : Guid) : Guid :=
  Derivation.instanceGuid ⟨"ReverseEdges", []⟩ (SortedMap.ofList [("es", input)])

/-- The guid that the reversed edges go by. -/
def reversedGuid (input : Guid) : Guid := Derivation.outputGuid (reversalGuid input) "reversed"

/-- The instance that reverses the edges under a guid, and does nothing else. -/
def reversal (input : Guid) : Instance where
  guid := reversalGuid input
  inputs := SortedMap.ofList [("es", input)]
  outputs := SortedMap.ofList [("reversed", reversedGuid input)]
  description := ⟨"ReverseEdges", []⟩

theorem reverses_reversal (input : Guid) : Reverses (reversal input) input (reversedGuid input) :=
  ⟨rfl, SortedMap.get?_insert_self _ _ _, SortedMap.get?_insert_self _ _ _⟩

theorem values_reversal (input : Guid) :
    (reversal input).outputs.values = [reversedGuid input] := rfl

theorem verify_reversal (input : Guid) : (reversal input).verify = .ok () :=
  Instance.verify_derive ⟨"ReverseEdges", []⟩ (SortedMap.ofList [("es", input)]) ["reversed"]

theorem runsTo_reversal (input : Guid) (bundle : EdgeBundle) :
    (reversal input).RunsTo (SortedMap.ofList [("es", (input, .edgeBundle bundle))])
      [(reversedGuid input, .edgeBundle bundle.reverse)] := by
  let start := Context.start (reversal input)
    (SortedMap.ofList [("es", (input, Entity.edgeBundle bundle))])
  let produced := SortedMap.ofList [("reversed", Entity.edgeBundle bundle.reverse)]
  have hedges : start.edgeBundle "es" = .ok bundle := by
    have hinput : start.inputs.get? "es" = some (input, .edgeBundle bundle) :=
      SortedMap.get?_insert_self _ _ _
    rw [Context.edgeBundle, Context.input, hinput]
    rfl
  have hguid : start.outputGuid "reversed" = .ok (reversedGuid input) := by
    rw [Context.outputGuid, show start.declared.get? "reversed" = _ from
      (reverses_reversal input).output]
  have hknown : Registry.builtin.operations.get? "ReverseEdges" = some Operation.reverseEdges := by
    rfl
  have hrun : Registry.builtin.run (reversal input).description start
      = Operation.reverseEdges.execute () start := by
    rw [reversal, Registry.run, Registry.withOperation, hknown]
    rfl
  refine ⟨{ start with produced }, hrun.trans ?_, ?_⟩
  · exact bind_eq_ok_iff.2 ⟨bundle, hedges, bind_eq_ok_iff.2 ⟨_, hguid, rfl⟩⟩
  · have hcontains : produced.contains "reversed" :=
      SortedMap.contains_ofList_iff.2 List.mem_cons_self
    have hkeys : start.declared.keys = ["reversed"] := rfl
    have hentries : produced.entries = [("reversed", .edgeBundle bundle.reverse)] := rfl
    have hguid' : { start with produced }.outputGuid "reversed" = .ok (reversedGuid input) := hguid
    simp only [Context.outputs, hkeys, hcontains, hentries, List.find?_cons, List.find?_nil]
    simp [hguid']

private theorem produce_reversal {input : Guid} {bundle : EdgeBundle}
    (hbundle : vault.get? input = some (.edgeBundle bundle)) :
    produce Registry.builtin (reversal input) vault
      = .ok [(reversedGuid input, .edgeBundle bundle.reverse)] vault := by
  obtain ⟨context, hrun, houtputs⟩ := runsTo_reversal input bundle
  have hinputs : (reversal input).inputs.entries = [("es", input)] := rfl
  have hproduces : Yields (produce Registry.builtin (reversal input)) vault
      (fun outputs now => outputs = [(reversedGuid input, .edgeBundle bundle.reverse)] ∧
        now = vault) fun _ _ => False := by
    simp only [produce, resolveInputs, hinputs, List.mapM_cons, List.mapM_nil, resolveInput,
      getOrLoad, yields_bind, yields_tryCatch, yields_pure]
    apply (findWith_of_registered hbundle).mono ?_ fun _ _ hfalse => hfalse.elim
    rintro _ _ ⟨rfl, rfl⟩
    rw [hrun, yields_ofExcept_ok, houtputs, yields_ofExcept_ok, List.mergeSort_singleton]
    exact ⟨rfl, rfl⟩
  obtain ⟨outputs, now, hproduce, rfl, rfl⟩ := hproduces.exists_ok
  exact hproduce

/-- Edges that are registered are reversed wherever the output guid is free. -/
theorem execute_reversal {input : Guid} {bundle : EdgeBundle} (hmemory : vault.MemoryOnly)
    (hfitting : vault.Fitting) (hbundle : vault.get? input = some (.edgeBundle bundle))
    (hfree : vault.get? (reversedGuid input) = none) :
    ∃ now, execute Registry.builtin (reversal input) vault = .ok .computed now := by
  have hfits := (hfitting input _ hbundle).reverse
  have hput : putAll [(reversedGuid input, .edgeBundle bundle.reverse)] vault
      = .ok () (vault.insert (reversedGuid input) (.edgeBundle bundle.reverse)) := by
    obtain ⟨found, after, hput, rfl⟩ := (put_of_fits hfree hfits).exists_ok
    simp only [putAll, List.forM_eq_forM, List.forM_cons, List.forM_nil, bind, EStateM.bind, hput]
    rfl
  have hcached : isCached vault (reversal input) = false := by
    rw [Bool.eq_false_iff, Ne, isCached_iff]
    rintro ⟨-, hknown⟩
    have houtput := Instance.mem_values_of_get? (reverses_reversal input).output
    cases hknown (reversedGuid input) houtput with
    | inl hhas =>
      obtain ⟨entity, hentity⟩ := has_iff.1 hhas
      cases hfree.symm.trans hentity
    | inr hpersisted => exact absurd hpersisted (by simp [hmemory.unsaved])
  exact ⟨_, execute_of_putAll (verify_reversal input) hcached (produce_reversal hbundle) hput
    hmemory.transient⟩

private theorem reversedGuid_filled : reversedGuid (Guid.filled 3)
    = Session.digits "17c1ed0e4b647fd7a7252bfbe20bfd58f0a45c3c40f2bb2ee19aeb307d8ff2af" :=
  List.singleton_inj.1 outputs_stray

private theorem reversedGuid_reversed : reversedGuid (reversedGuid (Guid.filled 3))
    = Session.digits "08284fe8c11fbcfbaff4313df87d28d4c325487d48be762637da068918c43da8" := by
  rw [reversedGuid_filled]
  exact Guid.Names.eq (by decide +kernel)

-- The digests in them are not to be computed again.
attribute [local irreducible] reversal reversedGuid

/-- Let all that is registered in a store without copies fit. Then whatever instance is executed,
nothing outside of its output guids is changed, all goes on to fit, the failure is never that
something does not fit, and what is computed fills the declared slots. Edges that are reversed twice
are those that they were. -/
theorem execute_fits (hmemory : vault.MemoryOnly) (hfitting : vault.Fitting) :
    (∀ i, Yields (execute Registry.builtin i) vault
      (fun outcome after => (after.MemoryOnly ∧ after.Fitting) ∧
        vault.Agree (· ∉ i.outputs.values) after ∧ (outcome = .computed → Fills vault i after))
      fun failure after => (after.MemoryOnly ∧ after.Fitting) ∧
        vault.Agree (· ∉ i.outputs.values) after ∧ ¬ failure.OfFit) ∧
    ∀ i j input forward back now last, Reverses i input forward → Reverses j forward back →
      execute Registry.builtin i vault = .ok .computed now →
      execute Registry.builtin j now = .ok .computed last →
      ∃ entity reversed, vault.get? input = some entity ∧ last.get? back = some reversed ∧
        reversed.sameContent entity := by
  have hexecute {vault : Vault} (hmemory : vault.MemoryOnly) (hfitting : vault.Fitting) (i) :=
    (execute_fills hmemory hfitting i).and (moves_execute Registry.builtin i vault)
  refine ⟨fun i => ?_, ?_⟩
  · apply (hexecute hmemory hfitting i).mono
    · rintro outcome after ⟨⟨hagree, hfills⟩, hevolves⟩
      exact ⟨⟨hagree.memoryOnly hmemory, hevolves.fitting hfitting⟩, hagree, hfills⟩
    · rintro failure after ⟨⟨hagree, hfailure⟩, hevolves⟩
      exact ⟨⟨hagree.memoryOnly hmemory, hevolves.fitting hfitting⟩, hagree, hfailure⟩
  · intro i j input forward back now last hi hj hfirst hsecond
    obtain ⟨⟨hagree, hfills⟩, hevolves⟩ := (yields_iff_of_ok hfirst).1 (hexecute hmemory hfitting i)
    obtain ⟨⟨-, hfills'⟩, -⟩ := (yields_iff_of_ok hsecond).1
      (hexecute (hagree.memoryOnly hmemory) (hevolves.fitting hfitting) j)
    obtain ⟨bundle, hbundle, hforward⟩ := (hfills rfl).reverses hi
    obtain ⟨reversed, hreversed, hback⟩ := (hfills' rfl).reverses hj
    cases hforward.symm.trans hreversed
    rw [EdgeBundle.reverse_reverse] at hback
    exact ⟨_, _, hbundle, hback, Entity.sameContent_refl _⟩

/-- Edges between two vertex sets, in a store with nothing else, are reversed and reversed again. -/
theorem execute_fits_reversal :
    let edges : EdgeBundle := ⟨[0, 1], [0, 0], [4, 5], Guid.filled 1, Guid.filled 2⟩
    let vault : Vault := { Vault.inMemory Disk.empty with
      entities := SortedMap.ofList [(Guid.filled 1, .vertexSet ⟨[7, 8]⟩),
        (Guid.filled 2, .vertexSet ⟨[9]⟩), (Guid.filled 3, .edgeBundle edges)] }
    let forward := reversedGuid (Guid.filled 3)
    ∃ now last reversed,
      execute Registry.builtin (reversal (Guid.filled 3)) vault = .ok .computed now ∧
      now.get? forward = some (.edgeBundle ⟨[0, 0], [0, 1], [4, 5], Guid.filled 2, Guid.filled 1⟩) ∧
      execute Registry.builtin (reversal forward) now = .ok .computed last ∧
      last.get? (reversedGuid forward) = some reversed ∧
      reversed.sameContent (.edgeBundle edges) := by
  intro edges vault forward
  have hmemory : vault.MemoryOnly := ⟨rfl, memoryOnly_empty.unsaved⟩
  have hset : vault.registered (Guid.filled 1) = .ok ⟨[7, 8]⟩ := rfl
  have hset' : vault.registered (Guid.filled 2) = .ok ⟨[9]⟩ := rfl
  have hfitting : vault.Fitting := by
    intro guid entity hentity
    have hmem := SortedMap.mem_of_get?_ofList hentity
    simp only [List.mem_cons, Prod.mk.injEq, List.not_mem_nil, or_false] at hmem
    obtain ⟨-, rfl⟩ | ⟨-, rfl⟩ | ⟨-, rfl⟩ := hmem
    · show [(7 : Int64), 8].Nodup
      decide
    · exact List.nodup_singleton _
    · have haligned : edges.Aligned 2 1 := by
        refine ⟨rfl, rfl, ?_, ?_⟩
        · simp [edges]
        · simp [edges]
      exact ⟨_, _, hset, hset', haligned⟩
  obtain ⟨hexecutes, hreverses⟩ := execute_fits hmemory hfitting
  have hfree : vault.get? forward = none := by
    rw [show forward = _ from reversedGuid_filled]
    rfl
  have hedges : vault.get? (Guid.filled 3) = some (.edgeBundle edges) := rfl
  obtain ⟨now, hnow⟩ := execute_reversal hmemory hfitting hedges hfree
  obtain ⟨⟨hmemory', hfitting'⟩, hagree, hfills⟩ := (yields_iff_of_ok hnow).1 (hexecutes _)
  obtain ⟨bundle, hbundle, hforward⟩ := (hfills rfl).reverses (reverses_reversal (Guid.filled 3))
  obtain rfl : edges = bundle := Entity.edgeBundle.inj (Option.some.inj (hedges.symm.trans hbundle))
  have hfree' : now.get? (reversedGuid forward) = none := by
    rw [hagree.entities, show reversedGuid forward = _ from reversedGuid_reversed]
    · rfl
    · rw [values_reversal, reversedGuid_reversed, reversedGuid_filled]
      decide +kernel
  obtain ⟨last, hlast⟩ := execute_reversal hmemory' hfitting' hforward hfree'
  obtain ⟨entity, reversed, hentity, hreversed, hsame⟩ := hreverses _ _ _ _ _ now last
    (reverses_reversal _) (reverses_reversal _) hnow hlast
  rw [← Option.some.inj (hedges.symm.trans hentity)] at hsame
  exact ⟨now, last, reversed, hnow, hforward, hlast, hreversed, hsame⟩

end Executor

end GraphVault
