import GraphVault.Proofs.Executions
import GraphVault.Proofs.Immutability
import GraphVault.Proofs.Layering
import GraphVault.Proofs.Recording

/-!
# Independent instances

The instances of a wave may be executed in any order. What an execution depends on is what is
registered under its inputs and outputs and under what its inputs refer to, and all that it changes
is what is registered under its outputs. So over a store in memory each instance of a wave comes to
just what it comes to alone, even where others fail half-way, and all orders end in one store.
-/

namespace GraphVault

-- Nothing depends on what is read from a disk or written to it.
attribute [local irreducible] EntityDirectory.read EntityDirectory.write EntityDirectory.remove
  EntityDirectory.contains

/-- What work answers, or how it fails. -/
def answer {ε σ α : Type} (work : EStateM ε σ α) (s : σ) : Except ε α :=
  match work s with
  | .ok a _ => .ok a
  | .error e _ => .error e

theorem answer_eq_error {ε σ α : Type} {work : EStateM ε σ α} {s : σ} {e : ε}
    (h : Yields work s (fun _ _ => False) fun failure _ => failure = e) :
    answer work s = .error e := by
  unfold Yields at h
  unfold answer
  generalize work s = result at h ⊢
  cases result with
  | ok a t => exact h.elim
  | error failure t => exact congrArg Except.error h

/-! ### Work on two states -/

section Pairs

variable {ε σ α β : Type} {related : σ → σ → Prop} {good : α → Prop} {work : EStateM ε σ α}

/-- Two results with the same answer or the same failure, in related states. -/
inductive Match (related : σ → σ → Prop) (good : α → Prop) :
    EStateM.Result ε σ α → EStateM.Result ε σ α → Prop where
  | ok {a : α} {s t : σ} (h : related s t) (hgood : good a) : Match related good (.ok a s) (.ok a t)
  | error {e : ε} {s t : σ} (h : related s t) : Match related good (.error e s) (.error e t)

/-- Work that comes to the same in related states, and leaves related states. -/
def Uniform (related : σ → σ → Prop) (good : α → Prop) (work : EStateM ε σ α) : Prop :=
  ∀ s t, related s t → Match related good (work s) (work t)

namespace Uniform

theorem pure {a : α} (h : good a) : Uniform related good (Pure.pure a : EStateM ε σ α) :=
  fun _ _ hst => .ok hst h

theorem throw (e : ε) : Uniform related good (throw e : EStateM ε σ α) := fun _ _ hst => .error hst

theorem ofExcept {result : Except ε α} (h : ∀ a, result = .ok a → good a) :
    Uniform related good (MonadExcept.ofExcept result : EStateM ε σ α) := by
  cases result with
  | ok a => exact pure (h a rfl)
  | error e => exact throw e

theorem bind {good' : β → Prop} {next : α → EStateM ε σ β} (hwork : Uniform related good work)
    (hnext : ∀ a, good a → Uniform related good' (next a)) :
    Uniform related good' (work >>= next) := by
  intro s t hst
  have hmatch := hwork s t hst
  simp only [Bind.bind, EStateM.bind]
  generalize work s = left at hmatch
  generalize work t = right at hmatch
  cases hmatch with
  | ok h hgood => exact hnext _ hgood _ _ h
  | error h => exact .error h

theorem mono {good' : α → Prop} (h : Uniform related good work) (hgood : ∀ a, good a → good' a) :
    Uniform related good' work := by
  intro s t hst
  have hmatch := h s t hst
  generalize work s = left at hmatch
  generalize work t = right at hmatch
  cases hmatch with
  | ok h ha => exact .ok h (hgood _ ha)
  | error h => exact .error h

theorem bind_get {next : σ → EStateM ε σ α}
    (h : ∀ s t, related s t → Match related good (next s s) (next t t)) :
    Uniform related good (get >>= next) := h

theorem tryCatch {handle : ε → EStateM ε σ α} (hwork : Uniform related good work)
    (hhandle : ∀ e, Uniform related good (handle e)) :
    Uniform related good (tryCatch work handle) := by
  intro s t hst
  have hmatch := hwork s t hst
  simp only [MonadExcept.tryCatch, tryCatchThe, MonadExceptOf.tryCatch, EStateM.tryCatch]
  generalize work s = left at hmatch
  generalize work t = right at hmatch
  cases hmatch with
  | ok h hgood => exact .ok h hgood
  | error h => exact hhandle _ _ _ h

theorem mapM {items : List α} {round : α → EStateM ε σ β}
    (h : ∀ a ∈ items, Uniform related (fun _ => True) (round a)) :
    Uniform related (fun _ => True) (items.mapM round) := by
  induction items with
  | nil => exact pure trivial
  | cons a items ih =>
    rw [List.mapM_cons]
    refine bind (h a List.mem_cons_self) fun b _ => ?_
    exact bind (ih fun c hc => h c (List.mem_cons_of_mem _ hc)) fun _ _ => pure trivial

theorem forM {items : List α} {round : α → EStateM ε σ PUnit}
    (h : ∀ a ∈ items, Uniform related (fun _ => True) (round a)) :
    Uniform related (fun _ => True) (items.forM round) := by
  induction items with
  | nil => exact pure trivial
  | cons a items ih =>
    exact bind (h a List.mem_cons_self) fun _ _ => ih fun c hc => h c (List.mem_cons_of_mem _ hc)

/-- As the answers are the same, what is known of those of one side is known of both. -/
theorem and_keeps {inv : σ → Prop} {good' : α → Prop} (h : Uniform related good work)
    (hinv : ∀ s t, related s t → inv s) (hkeeps : Keeps inv (fun _ => True) good' work) :
    Uniform related (fun a => good a ∧ good' a) work := by
  intro s t hst
  have hmatch := h s t hst
  have hyields := hkeeps.yields s (hinv s t hst)
  unfold Yields at hyields
  generalize work s = left at hmatch hyields
  generalize work t = right at hmatch
  cases hmatch with
  | ok h hgood => exact .ok h ⟨hgood, hyields.2⟩
  | error h => exact .error h

theorem settle {s t : σ} (h : Uniform related good work) (hst : related s t) :
    answer work t = answer work s ∧ related (settle work s) (settle work t) := by
  have hmatch := h s t hst
  unfold GraphVault.settle answer
  generalize work s = left at hmatch
  generalize work t = right at hmatch
  cases hmatch with
  | ok h => exact ⟨rfl, h⟩
  | error h => exact ⟨rfl, h⟩

end Uniform

end Pairs

namespace Vault

variable {vault left right left' right' : Vault} {scope reads writes : Guid → Prop} {guid : Guid}
  {entity : Entity}

/-- A store that writes no outputs, over a root without any complete copy. -/
structure MemoryOnly (vault : Vault) : Prop where
  transient : vault.settings.persistOutputs = false
  unsaved : ∀ guid, vault.hasPersisted guid = false

/-- Two stores differ at most in what is registered outside of a scope. -/
structure Agree (scope : Guid → Prop) (left right : Vault) : Prop where
  settings : right.settings = left.settings
  catalog : right.catalog = left.catalog
  disk : right.disk = left.disk
  entities : ∀ guid, scope guid → right.get? guid = left.get? guid

namespace Agree

theorem refl (scope : Guid → Prop) (vault : Vault) : vault.Agree scope vault :=
  ⟨rfl, rfl, rfl, fun _ _ => rfl⟩

theorem mono {scope' : Guid → Prop} (h : left.Agree scope right)
    (hscope : ∀ guid, scope' guid → scope guid) : left.Agree scope' right :=
  ⟨h.settings, h.catalog, h.disk, fun guid hguid => h.entities guid (hscope guid hguid)⟩

theorem trans {between : Vault} (h : left.Agree scope between) (h' : between.Agree scope right) :
    left.Agree scope right where
  settings := h'.settings.trans h.settings
  catalog := h'.catalog.trans h.catalog
  disk := h'.disk.trans h.disk
  entities guid hguid := (h'.entities guid hguid).trans (h.entities guid hguid)

theorem memoryOnly (h : left.Agree scope right) (hmemory : left.MemoryOnly) :
    right.MemoryOnly := by
  refine ⟨h.settings ▸ hmemory.transient, fun guid => ?_⟩
  rw [hasPersisted, h.disk, h.settings]
  exact hmemory.unsaved guid

/-- Stores that differ in nothing are the same. -/
theorem eq (h : left.Agree (fun _ => True) right) : right = left := by
  obtain ⟨settings, entities, catalog, disk⟩ := left
  obtain ⟨settings', entities', catalog', disk'⟩ := right
  obtain ⟨hsettings, hcatalog, hdisk, hentities⟩ := h
  have heq : entities' = entities := SortedMap.ext fun guid => hentities guid trivial
  simp only at hsettings hcatalog hdisk
  rw [hsettings, hcatalog, hdisk, heq]

/-- The same entity may be registered on both sides. -/
theorem insert (h : left.Agree scope right) (guid : Guid) (entity : Entity) :
    (left.insert guid entity).Agree scope (right.insert guid entity) := by
  refine ⟨h.settings, h.catalog, h.disk, fun other hother => ?_⟩
  by_cases heq : other = guid
  · rw [heq, get?_insert_self, get?_insert_self]
  · rw [get?_insert_of_ne _ _ heq, get?_insert_of_ne _ _ heq]
    exact h.entities other hother

/-- What is registered outside of a scope makes no difference to it. -/
theorem of_insert (vault : Vault) (hguid : ¬ scope guid) (entity : Entity) :
    vault.Agree scope (vault.insert guid entity) := by
  refine ⟨rfl, rfl, rfl, fun other hother => get?_insert_of_ne _ _ ?_⟩
  rintro rfl
  exact hguid hother

end Agree

/-- What two stores without copies have come to that agree on what is read, each of which is changed
only in what is written. -/
structure Beside (reads writes : Guid → Prop) (left right left' right' : Vault) : Prop where
  memoryOnly : left'.MemoryOnly
  agree : left'.Agree reads right'
  left : left.Agree (¬ writes ·) left'
  right : right.Agree (¬ writes ·) right'

theorem Beside.insert (h : Beside reads writes left right left' right') (hguid : writes guid)
    (entity : Entity) :
    Beside reads writes left right (left'.insert guid entity) (right'.insert guid entity) where
  memoryOnly := ⟨h.memoryOnly.transient, h.memoryOnly.unsaved⟩
  agree := h.agree.insert guid entity
  left := h.left.trans (.of_insert left' (fun hnot => hnot hguid) entity)
  right := h.right.trans (.of_insert right' (fun hnot => hnot hguid) entity)

/-! ### What is looked up and registered -/

/-- Without copies, what is not registered is not found. -/
theorem uniform_getOrLoad (h : reads guid) :
    Uniform (Beside reads writes left right) (fun _ => True) (getOrLoad guid) := by
  refine .bind_get fun s t hst => ?_
  have hsame := hst.agree.entities guid h
  have hright := hst.agree.memoryOnly hst.memoryOnly
  cases hget : s.get? guid with
  | some entity =>
    simp only [hsame, hget]
    exact .ok hst trivial
  | none =>
    simp only [hsame, hget, hst.memoryOnly.unsaved, hright.unsaved]
    exact .error hst

private theorem uniform_resolve (h : reads guid) :
    Uniform (Beside reads writes left right) (fun _ => True) (resolveWith getOrLoad guid) :=
  (uniform_getOrLoad h).bind fun _ _ => .ofExcept fun _ _ => trivial

private theorem uniform_validate (h : ∀ r ∈ entity.references, reads r) (guid : Guid) :
    Uniform (Beside reads writes left right) (fun _ => True)
      (entity.validate guid (resolveWith getOrLoad)) := by
  cases entity with
  | vertexSet set => exact .ofExcept fun _ _ => trivial
  | edgeBundle bundle =>
    have hsource := h bundle.sourceSet (Entity.mem_references_edgeBundle.2 (.inl rfl))
    have hdestination := h bundle.destinationSet (Entity.mem_references_edgeBundle.2 (.inr rfl))
    refine (uniform_resolve hsource).bind fun _ _ => ?_
    exact (uniform_resolve hdestination).bind fun _ _ => .ofExcept fun _ _ => trivial
  | column type cells =>
    have hset := h cells.vertexSet (Entity.mem_references_column.2 rfl)
    exact (uniform_resolve hset).bind fun _ _ => .ofExcept fun _ _ => trivial

private theorem uniform_register (hreads : reads guid) (hwrites : writes guid) (entity : Entity) :
    Uniform (Beside reads writes left right) (fun _ => True) (register guid entity) := by
  refine .bind_get fun s t hst => ?_
  have hsame := hst.agree.entities guid hreads
  cases hget : s.get? guid with
  | some registered =>
    have hmay : mayReplace t.settings.collision registered entity
        = mayReplace s.settings.collision registered entity := by
      rw [hst.agree.settings]
    simp only [hsame, hget, hmay]
    split
    · exact .ok hst trivial
    split
    · exact .error hst
    · exact .ok (hst.insert hwrites entity) trivial
  | none =>
    simp only [hsame, hget]
    exact .ok (hst.insert hwrites entity) trivial

/-- What is put depends on what is registered under its guid and its references. -/
theorem uniform_put (hreads : reads guid) (hwrites : writes guid)
    (hreferences : ∀ r ∈ entity.references, reads r) :
    Uniform (Beside reads writes left right) (fun _ => True) (put guid entity) :=
  (uniform_validate hreferences guid).bind fun _ _ => uniform_register hreads hwrites entity

end Vault

namespace Executor

open Vault

variable {vault now left right : Vault} {i : Instance} {wave executed order listed : List Instance}
  {dag : Dag} {waves : List (List Instance)} {reads writes : Guid → Prop}

/-- What an execution depends on: what was registered, and what the instance takes and makes. -/
def Reads (vault : Vault) (i : Instance) (guid : Guid) : Prop :=
  vault.has guid ∨ guid ∈ i.inputs.values ∨ guid ∈ i.outputs.values

private theorem uniform_resolveInputs (h : ∀ guid ∈ i.inputs.values, reads guid) :
    Uniform (Beside reads writes left right) (fun _ => True) (resolveInputs i) := by
  refine Uniform.bind (.mapM fun input hinput => ?_) fun _ _ => .pure trivial
  have hguid : input.2 ∈ i.inputs.values := List.mem_map_of_mem hinput
  exact ((uniform_getOrLoad (h _ hguid)).tryCatch fun _ => .throw _).bind fun _ _ => .pure trivial

private theorem uniform_produce (registry : Registry) (h : ∀ guid ∈ i.inputs.values, reads guid) :
    Uniform (Beside reads writes left right) (fun _ => True) (produce registry i) := by
  refine (uniform_resolveInputs h).bind fun inputs _ => ?_
  refine Uniform.bind (.ofExcept fun _ _ => trivial) fun context (_ : True) => ?_
  exact Uniform.bind (.ofExcept fun _ _ => trivial) fun outputs (_ : True) => .pure trivial

/-- Only what is registered can be an input, and whatever else is needed is missing. -/
theorem keeps_bound (vault : Vault) (hinputs : ∀ input ∈ i.inputs.values, ¬ writes input) :
    Keeps (fun now => now.MemoryOnly ∧ vault.Agree (¬ writes ·) now)
      (fun failure => ∃ slot guid, failure = .missingInput slot guid)
      (i.Binds fun guid entity => vault.get? guid = some entity) (resolveInputs i) := by
  refine keeps_resolveInputs fun slot guid hslot => ⟨fun now hnow => ?_⟩
  have hguid := hinputs guid (Instance.mem_values_of_get? hslot)
  have hsame := hnow.2.entities guid hguid
  simp only [resolveInput, yields_tryCatch, getOrLoad, findWith, yields_bind, yields_get]
  cases hget : now.get? guid with
  | some entity => exact ⟨hnow, hsame.symm.trans hget⟩
  | none =>
    simp only [hnow.1.unsaved]
    exact ⟨hnow, slot, guid, if_pos rfl⟩

/-- What an instance makes refers to what was registered or to what goes with it. -/
private theorem reads_of_hands (hfitting : vault.Fitting)
    {inputs : SortedMap String (Guid × Entity)} {outputs : List (Guid × Entity)}
    (hbinds : i.Binds (fun guid entity => vault.get? guid = some entity) inputs)
    (hhands : i.Hands (Makes i inputs) outputs) :
    ∀ output ∈ outputs, ∀ r ∈ output.2.references, Reads vault i r := by
  intro output houtput r hr
  obtain ⟨slot, -, hmakes⟩ := hhands.sound output houtput
  obtain ⟨-, hvertices⟩ | ⟨-, slot, guid, found, hinput, hmem⟩ := hmakes.references r hr
  · exact .inr (.inr (Instance.mem_values_of_get? hvertices))
  have hfound := (hbinds.sound slot guid found hinput).2
  refine .inl (has_iff.2 ?_)
  cases List.mem_cons.1 hmem with
  | inl heq => exact ⟨found, heq ▸ hfound⟩
  | inr hreference =>
    obtain ⟨set, hset⟩ := (hfitting guid found hfound).resolved hreference
    exact ⟨_, registered_eq_ok_iff.1 hset⟩

private theorem isCached_congr (h : ∀ guid ∈ i.outputs.values, reads guid)
    (hmemory : left.MemoryOnly) (hagree : left.Agree reads right) :
    isCached right i = isCached left i := by
  have hright := hagree.memoryOnly hmemory
  rw [Bool.eq_iff_iff, isCached_iff, isCached_iff]
  refine and_congr_right fun _ => forall₂_congr fun guid hguid => ?_
  rw [has_iff, has_iff, hagree.entities guid (h guid hguid), hmemory.unsaved, hright.unsaved]

/-- What is produced goes by the outputs of its instance, and refers to nothing that is not read. -/
private theorem uniform_outputs (hfitting : left.Fitting)
    (hinputs : ∀ input ∈ i.inputs.values, input ∉ i.outputs.values) :
    Uniform (Beside (Reads left i) (· ∈ i.outputs.values) left right)
      (fun outputs => ∀ output ∈ outputs,
        output.1 ∈ i.outputs.values ∧ ∀ r ∈ output.2.references, Reads left i r)
      (produce Registry.builtin i) := by
  have hreads : ∀ guid ∈ i.inputs.values, Reads left i guid := fun guid hguid => .inr (.inl hguid)
  have hbound := (keeps_bound left hinputs).mono (fun _ h => h) fun _ _ => trivial
  have hkeeps := keeps_produce hbound
    (fun inputs _ => (makes_run i inputs).weaken fun _ _ => trivial) fun _ _ => trivial
  refine Uniform.mono ((uniform_produce _ hreads).and_keeps ?_ hkeeps) ?_
  · exact fun s t hst => ⟨hst.memoryOnly, hst.left⟩
  rintro outputs ⟨-, -, inputs, hbinds, hhands⟩ output houtput
  refine ⟨hhands.mem_guids_iff.1 (List.mem_map_of_mem houtput), ?_⟩
  exact reads_of_hands hfitting hbinds hhands output houtput

/-- An execution depends on nothing but what it reads, and changes nothing but its outputs. -/
theorem uniform_execute (hfitting : left.Fitting)
    (hinputs : ∀ input ∈ i.inputs.values, input ∉ i.outputs.values) :
    Uniform (Beside (Reads left i) (· ∈ i.outputs.values) left right) (fun _ => True)
      (execute Registry.builtin i) := by
  have hreads : ∀ guid ∈ i.outputs.values, Reads left i guid := fun guid hguid => .inr (.inr hguid)
  refine Uniform.bind (.ofExcept fun _ _ => trivial) fun _ (_ : True) => .bind_get fun s t hst => ?_
  rw [isCached_congr hreads hst.memoryOnly hst.agree]
  split
  · exact .ok hst trivial
  refine (uniform_outputs hfitting hinputs).bind (fun outputs houtputs => ?_) s t hst
  refine Uniform.bind (.forM fun output houtput => ?_) fun _ (_ : True) => ?_
  · obtain ⟨hmem, hreferences⟩ := houtputs output houtput
    exact (uniform_put (hreads _ hmem) hmem hreferences).bind fun _ _ => .pure trivial
  · refine .bind_get fun s t hst => ?_
    simp only [hst.memoryOnly.transient, (hst.agree.memoryOnly hst.memoryOnly).transient]
    exact .ok hst trivial

/-! ### Waves -/

/-- Instances of which none takes an output of one of them, and no two make the same. -/
structure Apart (wave : List Instance) : Prop where
  inputs : ∀ i ∈ wave, ∀ j ∈ wave, ¬ i.Uses j
  outputs : ∀ i ∈ wave, ∀ j ∈ wave, ∀ output ∈ i.outputs.values, output ∈ j.outputs.values → i = j
  nodup : wave.Nodup

/-- What an instance in a wave depends on is done before the wave. -/
theorem apart_of_waves (hdag : dag.Comprises listed) (hwaves : dag.waves = .ok waves)
    (hwave : wave ∈ waves) : Apart wave := by
  obtain ⟨layers, hlayered, rfl⟩ := Dag.layered_of_waves hwaves
  obtain ⟨guids, hguids, rfl⟩ := List.mem_map.1 hwave
  obtain ⟨n, hn⟩ := List.mem_iff_getElem?.1 hguids
  obtain ⟨-, hready⟩ := hlayered.ready hn
  constructor
  case inputs =>
    intro i hi j hj huses
    obtain ⟨hi, hguid⟩ := hdag.mem_filterMap_iff.1 hi
    obtain ⟨hj, hguid'⟩ := hdag.mem_filterMap_iff.1 hj
    obtain ⟨-, found, hfound, hdone⟩ := (hready.mem_iff i.guid).1 hguid
    obtain rfl : i = found := Option.some.inj ((hdag.get? hi).symm.trans hfound)
    have hdependency := hdag.mem_dependencies_iff.2 ⟨j, hj, rfl, huses⟩
    exact ((hready.mem_iff j.guid).1 hguid').1 (hdone j.guid hdependency)
  case outputs =>
    intro i hi j hj
    have hi := (hdag.mem_filterMap_iff.1 hi).1
    exact hdag.compatible.producers i hi j (hdag.mem_filterMap_iff.1 hj).1
  case nodup =>
    refine hready.nodup.filterMap fun guid other i hi hi' => ?_
    rw [← ((hdag.instances _ _).1 hi).2, ← ((hdag.instances _ _).1 hi').2]

/-- A store in which some instances have been executed, each as if it had been the only one. -/
structure Merged (vault : Vault) (executed : List Instance) (now : Vault) : Prop where
  made : ∀ i ∈ executed, ∀ guid ∈ i.outputs.values,
    now.get? guid = (settle (execute Registry.builtin i) vault).get? guid
  rest : vault.Agree (fun guid => ∀ i ∈ executed, guid ∉ i.outputs.values) now

namespace Merged

theorem start (vault : Vault) : Merged vault [] vault := ⟨nofun, .refl _ vault⟩

/-- The order in which instances have been executed makes no difference. -/
theorem unique {others : List Instance} {now' : Vault} (h : Merged vault executed now)
    (h' : Merged vault others now') (hmem : ∀ i, i ∈ others ↔ i ∈ executed) : now' = now := by
  refine Agree.eq ⟨?_, ?_, ?_, fun guid _ => ?_⟩
  · exact h'.rest.settings.trans h.rest.settings.symm
  · exact h'.rest.catalog.trans h.rest.catalog.symm
  · exact h'.rest.disk.trans h.rest.disk.symm
  by_cases hmade : ∃ i ∈ executed, guid ∈ i.outputs.values
  · obtain ⟨i, hi, hguid⟩ := hmade
    exact (h'.made i ((hmem i).2 hi) guid hguid).trans (h.made i hi guid hguid).symm
  · have hnot : ∀ i ∈ executed, guid ∉ i.outputs.values := fun i hi hguid => hmade ⟨i, hi, hguid⟩
    rw [h.rest.entities guid hnot, h'.rest.entities guid fun i hi => hnot i ((hmem i).1 hi)]

/-- What has been executed makes no difference to what an instance that is apart from it reads. -/
private theorem agree (hreject : vault.settings.collision = .reject) (hapart : Apart wave)
    (h : Merged vault executed now) (hexecuted : ∀ j ∈ executed, j ∈ wave) (hi : i ∈ wave)
    (hnew : i ∉ executed) : vault.Agree (Reads vault i) now := by
  refine ⟨h.rest.settings, h.rest.catalog, h.rest.disk, fun guid hguid => ?_⟩
  by_cases hmade : ∃ j ∈ executed, guid ∈ j.outputs.values
  · obtain ⟨j, hj, houtput⟩ := hmade
    rw [h.made j hj guid houtput]
    rcases hguid with hhas | hinput | houtput'
    · obtain ⟨entity, hentity⟩ := has_iff.1 hhas
      have hkept := (Preserves.additive.moves_execute Registry.builtin j).settle vault
      rw [hentity, hkept.entities hreject guid entity hentity]
    · exact absurd ⟨guid, hinput, houtput⟩ (hapart.inputs i hi j (hexecuted j hj))
    · exact absurd (hapart.outputs i hi j (hexecuted j hj) guid houtput' houtput ▸ hj) hnew
  · exact h.rest.entities guid fun j hj houtput => hmade ⟨j, hj, houtput⟩

/-- Executing one more instance comes to what it comes to alone. -/
theorem execute (hmemory : vault.MemoryOnly) (hreject : vault.settings.collision = .reject)
    (hfitting : vault.Fitting) (hapart : Apart wave) (h : Merged vault executed now)
    (hexecuted : ∀ j ∈ executed, j ∈ wave) (hi : i ∈ wave) (hnew : i ∉ executed) :
    answer (Executor.execute Registry.builtin i) now
        = answer (Executor.execute Registry.builtin i) vault ∧
      Merged vault (executed ++ [i]) (settle (Executor.execute Registry.builtin i) now) := by
  have hinputs : ∀ input ∈ i.inputs.values, input ∉ i.outputs.values :=
    fun input hinput houtput => hapart.inputs i hi i hi ⟨input, hinput, houtput⟩
  have hbeside : Beside (Reads vault i) (· ∈ i.outputs.values) vault now vault now :=
    ⟨hmemory, h.agree hreject hapart hexecuted hi hnew, .refl _ vault, .refl _ now⟩
  obtain ⟨hanswer, hafter⟩ := (uniform_execute hfitting hinputs).settle hbeside
  refine ⟨hanswer, fun j hj guid hguid => ?_, ?_⟩
  · rcases List.mem_append.1 hj with hj | hj
    · have hother : guid ∉ i.outputs.values := fun houtput =>
        hnew (hapart.outputs i hi j (hexecuted j hj) guid houtput hguid ▸ hj)
      exact (hafter.right.entities guid hother).trans (h.made j hj guid hguid)
    · rw [List.mem_singleton.1 hj] at hguid ⊢
      exact hafter.agree.entities guid (.inr (.inr hguid))
  · refine (h.rest.mono fun guid hguid j hj => ?_).trans (hafter.right.mono fun guid hguid => ?_)
    · exact hguid j (List.mem_append_left _ hj)
    · exact hguid i (List.mem_append_right _ (List.mem_singleton_self i))

end Merged

/-- Executes an instance, and tells what came of it. -/
def executeOne (registry : Registry) (i : Instance) : VaultM (Except Failure Outcome) :=
  tryCatch (Except.ok <$> execute registry i) fun failure => return .error failure

/-- Executes instances one after the other, and tells of each what came of it. -/
def executeEach (registry : Registry) (order : List Instance) :
    VaultM (List (Except Failure Outcome)) :=
  order.mapM (executeOne registry)

theorem executeOne_eq (registry : Registry) (i : Instance) (vault : Vault) :
    executeOne registry i vault
      = .ok (answer (execute registry i) vault) (settle (execute registry i) vault) := by
  simp only [executeOne, tryCatch, tryCatchThe, MonadExceptOf.tryCatch, EStateM.tryCatch,
    Functor.map, EStateM.map, answer, settle]
  cases execute registry i vault <;> rfl

theorem executeEach_cons (registry : Registry) (i : Instance) (order : List Instance)
    (vault : Vault) :
    executeEach registry (i :: order) vault
      = ((answer (execute registry i) vault :: ·) <$> executeEach registry order)
        (settle (execute registry i) vault) := by
  simp only [executeEach, List.mapM_cons, bind, EStateM.bind, executeOne_eq, Functor.map,
    EStateM.map]
  rfl

private theorem executeEach_merges (hmemory : vault.MemoryOnly)
    (hreject : vault.settings.collision = .reject) (hfitting : vault.Fitting) (hapart : Apart wave)
    (h : Merged vault executed now) (hnodup : (executed ++ order).Nodup)
    (hmem : ∀ i ∈ executed ++ order, i ∈ wave) :
    ∃ after, executeEach Registry.builtin order now
        = .ok (order.map fun i => answer (execute Registry.builtin i) vault) after ∧
      Merged vault (executed ++ order) after := by
  induction order generalizing executed now with
  | nil => exact ⟨now, rfl, by rwa [List.append_nil]⟩
  | cons i order ih =>
    have hexecuted : ∀ j ∈ executed, j ∈ wave := fun j hj => hmem j (List.mem_append_left _ hj)
    have hi : i ∈ wave := hmem i (List.mem_append_right _ List.mem_cons_self)
    have hnew : i ∉ executed := fun hi =>
      (List.nodup_append.1 hnodup).2.2 i hi i List.mem_cons_self rfl
    obtain ⟨hanswer, hstep⟩ := h.execute hmemory hreject hfitting hapart hexecuted hi hnew
    rw [List.append_cons] at hnodup hmem ⊢
    obtain ⟨after, hafter, hmerged⟩ := ih hstep hnodup hmem
    refine ⟨after, ?_, hmerged⟩
    simp only [executeEach_cons, Functor.map, EStateM.map, hafter, hanswer, List.map_cons]

/-- Over a store in memory that rejects collisions, in which all entities fit, the instances of a
wave can be executed in any order: each one comes to what it comes to alone, be it an outcome or a
failure, and all orders end in the same store. -/
theorem executeEach_wave (hmemory : vault.MemoryOnly)
    (hreject : vault.settings.collision = .reject) (hfitting : vault.Fitting)
    (hdag : Dag.ofList listed = .ok dag) (hwaves : dag.waves = .ok waves) (hwave : wave ∈ waves) :
    ∃ after, ∀ order, order.Perm wave →
      executeEach Registry.builtin order vault
        = .ok (order.map fun i => answer (execute Registry.builtin i) vault) after := by
  have hapart := apart_of_waves (Dag.comprises_of_ofList hdag) hwaves hwave
  have hmerges (order : List Instance) (hperm : order.Perm wave) :=
    executeEach_merges hmemory hreject hfitting hapart (.start vault)
      (hperm.nodup_iff.2 hapart.nodup) fun i hi => hperm.mem_iff.1 hi
  obtain ⟨after, -, hafter⟩ := hmerges wave (.refl wave)
  refine ⟨after, fun order hperm => ?_⟩
  obtain ⟨last, hlast, hmerged⟩ := hmerges order hperm
  obtain rfl : last = after := hafter.unique hmerged fun i => hperm.mem_iff
  exact hlast

/-! ### An instance that fails -/

/-- An instance that takes what nothing makes. -/
def strayInstance : Instance :=
  .derive ⟨"ReverseEdges", []⟩ (SortedMap.ofList [("es", Guid.filled 3)]) ["reversed"]

private theorem guid_stray : strayInstance.guid
    = Session.digits "c0cb3c4f5c539fccc17acba6585d0ed4d7d2fb1a062b0acad23bc88270a0afa4" :=
  Guid.Names.eq (by decide +kernel)

theorem outputs_stray : strayInstance.outputs.values
    = [Session.digits "17c1ed0e4b647fd7a7252bfbe20bfd58f0a45c3c40f2bb2ee19aeb307d8ff2af"] := by
  have hreversed : Derivation.outputGuid strayInstance.guid "reversed"
      = Session.digits "17c1ed0e4b647fd7a7252bfbe20bfd58f0a45c3c40f2bb2ee19aeb307d8ff2af" := by
    rw [guid_stray]
    exact Guid.Names.eq (by decide +kernel)
  rw [← hreversed]
  rfl

private theorem verify_stray : strayInstance.verify = .ok () := Instance.verify_derive _ _ _

private theorem inputs_stray : strayInstance.inputs.entries = [("es", Guid.filled 3)] := rfl

-- The digests in it are not to be computed again.
attribute [local irreducible] strayInstance

private theorem distinct_stray : Session.exampleInstance.guid ≠ strayInstance.guid := by
  rw [guid_stray]
  decide +kernel

/-- What is asked for, what comes of it and what the other instance yields are different. -/
private theorem nodup_stray : (Guid.filled 3
    :: (strayInstance.outputs.values ++ Session.exampleInstance.outputs.values)).Nodup := by
  rw [outputs_stray]
  decide +kernel

private theorem compatible_stray : Dag.Compatible [Session.exampleInstance, strayInstance] := by
  obtain ⟨hstray, hexample, hapart⟩ := List.nodup_append.1 (List.nodup_cons.1 nodup_stray).2
  exact Dag.compatible_pair (Dag.compatible_single Session.verify_exampleInstance hexample)
    (Dag.compatible_single verify_stray hstray) distinct_stray
    fun output houtput hmade => hapart output hmade output houtput rfl

private theorem uses_stray {i j : Instance} (hi : i ∈ [Session.exampleInstance, strayInstance])
    (hj : j ∈ [Session.exampleInstance, strayInstance]) : ¬ i.Uses j := by
  rintro ⟨input, hinput, houtput⟩
  have hfirst : Session.exampleInstance.inputs.values = [] := rfl
  have hsecond : strayInstance.inputs.values = [Guid.filled 3] := by
    rw [SortedMap.values, inputs_stray]
    rfl
  have hfree := (List.nodup_cons.1 nodup_stray).1
  simp only [List.mem_cons, List.not_mem_nil, or_false] at hi hj
  obtain rfl | rfl := hi
  · rw [hfirst] at hinput
    cases hinput
  rw [hsecond, List.mem_singleton] at hinput
  subst hinput
  obtain rfl | rfl := hj
  · exact hfree (List.mem_append_right _ houtput)
  · exact hfree (List.mem_append_left _ houtput)

/-- Instances of which none takes anything of another come in one wave. -/
private theorem exists_wave (hdag : Dag.ofList listed = .ok dag) (hi : i ∈ listed)
    (hnone : ∀ i ∈ listed, ∀ j ∈ listed, ¬ i.Uses j) :
    ∃ waves wave, dag.waves = .ok waves ∧ wave ∈ waves ∧ ∀ j, j ∈ wave ↔ j ∈ listed := by
  have hacyclic (j : Instance) : ¬ Relation.TransGen (Dag.Needs listed) j j := by
    intro hcircle
    obtain ⟨k, ⟨hj, hk, huses⟩, -⟩ := Relation.TransGen.head'_iff.1 hcircle
    exact hnone j hj k hk huses
  obtain ⟨waves, hwaves, htight, -⟩ := Dag.waves_tight hdag hacyclic
  have hfirst {j : Instance} (hj : j ∈ listed) : ∃ wave, waves[0]? = some wave ∧ j ∈ wave := by
    obtain ⟨wave, hwave, hmem⟩ := List.mem_flatten.1 ((htight.mem_iff j).2 hj)
    obtain ⟨n, hn⟩ := List.mem_iff_getElem?.1 hwave
    cases n with
    | zero => exact ⟨wave, hn, hmem⟩
    | succ n =>
      obtain ⟨last, hlast, k, hk, huses⟩ := htight.close n wave hn j hmem
      exact absurd huses (hnone j hj k (htight.mem hlast hk))
  obtain ⟨wave, hwave, -⟩ := hfirst hi
  refine ⟨waves, wave, hwaves, List.mem_of_getElem? hwave, fun j => ⟨htight.mem hwave, ?_⟩⟩
  intro hj
  obtain ⟨other, hother, hmem⟩ := hfirst hj
  rw [hwave, Option.some.injEq] at hother
  exact hother ▸ hmem

theorem memoryOnly_empty : (Vault.inMemory Disk.empty).MemoryOnly := by
  refine ⟨rfl, fun guid => ?_⟩
  rw [Bool.eq_false_iff]
  intro hcontains
  obtain ⟨-, b, -, -, node, hmarker, hne⟩ := EntityDirectory.contains_iff.1 hcontains
  exact hne (Disk.passable_empty _ node hmarker)

private theorem resolveInput_missing {guid : Guid} (hmemory : vault.MemoryOnly)
    (hnone : vault.get? guid = none) (slot : String) :
    Yields (resolveInput slot guid) vault (fun _ _ => False)
      fun failure _ => failure = .missingInput slot guid := by
  simp only [resolveInput, yields_tryCatch, getOrLoad, findWith, yields_bind, yields_get, hnone,
    hmemory.unsaved]
  exact if_pos rfl

/-- Nothing is known to a store that is empty. -/
theorem isCached_empty (i : Instance) : isCached (Vault.inMemory Disk.empty) i = false := by
  rw [Bool.eq_false_iff, Ne, isCached_iff]
  rintro ⟨⟨output, houtput⟩, hknows⟩
  cases hknows output houtput with
  | inl hhas => cases hhas
  | inr hpersisted => exact absurd hpersisted (by simp [memoryOnly_empty.unsaved])

private theorem answer_stray : answer (execute Registry.builtin strayInstance)
    (Vault.inMemory Disk.empty) = .error (.missingInput "es" (Guid.filled 3)) := by
  apply answer_eq_error
  rw [execute, verify_stray, yields_bind, yields_ofExcept_ok, yields_bind, yields_get,
    isCached_empty, if_neg Bool.false_ne_true, yields_bind, produce, yields_bind, resolveInputs, inputs_stray,
    yields_bind, List.mapM_cons, yields_bind, yields_bind]
  exact (resolveInput_missing memoryOnly_empty rfl "es").mono (fun _ _ => False.elim) fun _ _ h => h

theorem executeEach_wave_stray :
    ∃ dag waves wave after, Dag.ofList [Session.exampleInstance, strayInstance] = .ok dag ∧
      dag.waves = .ok waves ∧ wave ∈ waves ∧
      answer (execute Registry.builtin strayInstance) (Vault.inMemory Disk.empty)
        = .error (.missingInput "es" (Guid.filled 3)) ∧
      ∀ order ∈ [[Session.exampleInstance, strayInstance],
          [strayInstance, Session.exampleInstance]],
        order.Perm wave ∧
        executeEach Registry.builtin order (Vault.inMemory Disk.empty)
          = .ok (order.map fun i => answer (execute Registry.builtin i) (Vault.inMemory Disk.empty))
            after := by
  obtain ⟨dag, hdag, hcomprises⟩ := compatible_stray.exists_ofList
  obtain ⟨waves, wave, hwaves, hwave, hmem⟩ :=
    exists_wave hdag List.mem_cons_self fun _ hi _ hj => uses_stray hi hj
  have hfitting : (Vault.inMemory Disk.empty).Fitting := fun _ _ hentity => nomatch hentity
  obtain ⟨after, hafter⟩ := executeEach_wave memoryOnly_empty rfl hfitting hdag hwaves hwave
  have hdistinct : Session.exampleInstance ≠ strayInstance := fun heq =>
    distinct_stray (congrArg Instance.guid heq)
  have hperm : [Session.exampleInstance, strayInstance].Perm wave := by
    refine (List.perm_ext_iff_of_nodup ?_ ?_).2 fun i => (hmem i).symm
    · exact List.nodup_cons.2 ⟨fun h => hdistinct (List.mem_singleton.1 h), List.nodup_singleton _⟩
    · exact (apart_of_waves hcomprises hwaves hwave).nodup
  refine ⟨dag, waves, wave, after, hdag, hwaves, hwave, answer_stray, fun order horder => ?_⟩
  have horder' : order.Perm wave := by
    simp only [List.mem_cons, List.not_mem_nil, or_false] at horder
    rcases horder with rfl | rfl
    · exact hperm
    · exact (List.Perm.swap _ _ _).trans hperm
  exact ⟨horder', hafter order horder'⟩

end Executor

end GraphVault
