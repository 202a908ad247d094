import GraphVault.Proofs.PositionalIntegrity

/-!
# Work that only adds

All work that drops nothing is composed of four steps, which register an entity, write a copy below
one of the two roots, and change the catalog. A relation between stores that holds across each of
the steps therefore holds across the work, whatever comes of it.
-/

namespace GraphVault

/-- A request that is made to the store that is open, and drops nothing. -/
def Request.Adding : Request → Prop
  | .open _ | .close | .remove _ | .purge _ => False
  | _ => True

-- Nothing depends on what these come to.
attribute [local irreducible] EntityDirectory.read EntityDirectory.write EntityDirectory.remove
  EntityDirectory.contains

/-- A relation between stores that holds across every step. -/
structure Additive (r : Vault → Vault → Prop) : Prop where
  register : ∀ guid entity, Moves r (Vault.register guid entity)
  writeData : ∀ stored, Moves r (do Vault.write (← get).settings.dataDir stored)
  writeExchange : ∀ stored, Moves r (do Vault.write (← get).settings.unorderedDir stored)
  modifyCatalog : ∀ change, Moves r (Vault.modifyCatalog change)

namespace Additive

variable {r : Vault → Vault → Prop} [Std.Refl r] [Trans r r r] (h : Additive r)

/-! ### Loading -/

omit [Trans r r r] in
private theorem moves_require (guid : Guid) : Moves r (Vault.require guid) := by
  intro vault
  simp only [Vault.require, yields_bind, yields_get]
  split <;> exact Std.Refl.refl vault

private theorem moves_resolveWith {find : Guid → VaultM Entity}
    (hfind : ∀ guid, Moves r (find guid)) (guid : Guid) :
    Moves r (Vault.resolveWith find guid) :=
  .bind (hfind guid) fun _ => .ofExcept _

private theorem moves_vertexSet (guid : Guid) : Moves r (Vault.vertexSet guid) :=
  .bind (moves_require guid) fun _ => .ofExcept _

private theorem moves_findWith {load : Guid → VaultM Entity} {guid : Guid}
    (hload : Moves r (load guid)) : Moves r (Vault.findWith load guid) := by
  refine .bind .get fun vault => ?_
  split
  · exact .pure _
  · split
    · exact hload
    · exact .throw _

include h

theorem moves_putWith {find : Guid → VaultM Entity} (hfind : ∀ guid, Moves r (find guid))
    (guid : Guid) (entity : Entity) : Moves r (Vault.putWith find guid entity) :=
  .bind (moves_validate (moves_resolveWith hfind) entity guid) fun _ => h.register guid entity

theorem moves_loadWithin (fuel : Nat) (guid : Guid) : Moves r (Vault.loadWithin fuel guid) := by
  induction fuel generalizing guid with
  | zero => exact .throw _
  | succ fuel ih =>
    have hfind (guid : Guid) : Moves r (Vault.findWith (Vault.loadWithin fuel) guid) :=
      moves_findWith (ih guid)
    refine .bind .get fun vault => .bind (.ofExcept _) fun stored => ?_
    refine .bind (.forM fun reference _ => .bind (hfind _) fun _ => .pure _) fun _ => ?_
    exact .bind (moves_ordered_decode moves_vertexSet stored) fun entity =>
      h.moves_putWith hfind guid entity

theorem moves_load (guid : Guid) : Moves r (Vault.load guid) :=
  .bind .get fun _ => h.moves_loadWithin _ guid

theorem moves_getOrLoad (guid : Guid) : Moves r (Vault.getOrLoad guid) :=
  moves_findWith (h.moves_load guid)

theorem moves_resolve (guid : Guid) : Moves r (Vault.resolve guid) :=
  moves_resolveWith h.moves_getOrLoad guid

theorem moves_put (guid : Guid) (entity : Entity) : Moves r (Vault.put guid entity) :=
  h.moves_putWith h.moves_getOrLoad guid entity

/-! ### Writing -/

theorem moves_record (guid : Guid) (entity : Entity) (producer : Option Guid) :
    Moves r (Vault.record guid entity producer) := by
  refine .bind .get fun vault => ?_
  split
  · exact .pure _
  · dsimp only
    split
    · exact .bind (.pure _) fun _ => h.modifyCatalog _
    · exact .bind (.ofExcept _) fun _ => .bind (.pure _) fun _ => h.modifyCatalog _

theorem moves_persistWithin (fuel : Nat) (guid : Guid) (producer : Option Guid) :
    Moves r (Vault.persistWithin fuel guid producer) := by
  induction fuel generalizing guid producer with
  | zero => exact .throw _
  | succ fuel ih =>
    refine .bind (moves_require guid) fun entity => ?_
    refine .bind (.forM fun reference _ => ?_) fun _ => ?_
    · refine .bind .get fun vault => ?_
      split
      · exact .bind (ih _ _) fun _ => .pure _
      · exact .pure _
    · refine .bind (moves_ordered_encode h.moves_resolve guid entity) fun stored => ?_
      -- the root is looked up by the write itself
      have hwrite : Moves r (do
          let vault ← get
          let path ← Vault.write vault.settings.dataDir stored
          Vault.record guid entity producer
          return path) := by
        intro vault
        have hhead := h.writeData stored vault
        rw [yields_bind, yields_get] at hhead
        rw [yields_bind, yields_get, yields_bind]
        apply hhead.mono
        · intro path between hbetween
          apply ((moves_record h guid entity producer).bind (fun _ => .pure path) between).mono
          · exact fun _ _ hlast => Trans.trans hbetween hlast
          · exact fun _ _ hlast => Trans.trans hbetween hlast
        · exact fun _ _ hlast => hlast
      exact hwrite

theorem moves_persistFrom (guid : Guid) (producer : Option Guid) :
    Moves r (Vault.persistFrom guid producer) :=
  .bind .get fun _ => h.moves_persistWithin _ guid producer

theorem moves_exportUnordered (guid : Guid) : Moves r (Vault.exportUnordered guid) := by
  refine .bind (h.moves_getOrLoad guid) fun entity => ?_
  exact (moves_unordered_encode h.moves_resolve guid entity).bind fun _ => h.writeExchange _

theorem moves_importWithin (fuel : Nat) (guid : Guid) : Moves r (Vault.importWithin fuel guid) := by
  induction fuel generalizing guid with
  | zero => exact .throw _
  | succ fuel ih =>
    refine .bind .get fun vault => .bind (.ofExcept _) fun stored => ?_
    refine .bind (.forM fun reference _ => .bind .get fun vault => ?_) fun _ => ?_
    · dsimp only
      split
      · exact .bind (ih _) fun _ => .pure _
      · exact .pure _
    · exact (moves_unordered_decode h.moves_resolve stored).bind fun _ => h.moves_put guid _

/-! ### Executing -/

variable (registry : Registry)

theorem moves_produce (i : Instance) : Moves r (Executor.produce registry i) := by
  refine .bind (.bind (.mapM fun binding _ => ?_) fun _ => .pure _) fun inputs => ?_
  · refine .bind ?_ fun _ => .pure _
    exact .tryCatch (h.moves_getOrLoad _) fun failure => .throw _
  · exact .bind (.ofExcept _) fun context => .bind (.ofExcept _) fun outputs => .pure _

theorem moves_persistOutputs (i : Instance) (outputs : List (Guid × Entity)) :
    Moves r (Executor.persistOutputs i outputs) := by
  refine .bind (.forM fun output _ => ?_) fun _ => h.modifyCatalog _
  exact .bind (h.moves_persistFrom _ _) fun _ => .pure _

theorem moves_execute (i : Instance) : Moves r (Executor.execute registry i) := by
  refine .bind (.ofExcept _) fun _ => .bind .get fun vault => ?_
  split
  · exact .pure _
  · refine .bind (h.moves_produce registry i) fun outputs => ?_
    refine .bind (.forM fun output _ => .bind (h.moves_put _ _) fun _ => .pure _) fun _ => ?_
    refine .bind .get fun vault => ?_
    split
    · exact .bind (h.moves_persistOutputs i outputs) fun _ => .pure _
    · exact .pure _

theorem moves_attempt (i : Instance) : Moves r (Executor.attempt registry i) := by
  refine .tryCatch (.map (h.moves_execute registry i)) fun failure => ?_
  cases failure <;> exact .pure _

theorem moves_run (dag : Dag) : Moves r (Executor.run registry dag) := by
  refine .bind (.ofExcept _) fun waves => .bind (.mapM fun wave _ => ?_) fun _ => .pure _
  refine .bind (.mapM fun i _ => .bind (h.moves_attempt registry i) fun _ => .pure _) fun _ => ?_
  exact .ofExcept _

/-- Whatever comes of a request that drops nothing, the stores before and after it are related. -/
theorem moves_work {request : Request} (hadding : request.Adding) :
    Moves r (request.work registry) := by
  cases request with
  | «open» settings => exact hadding.elim
  | close => exact hadding.elim
  | remove guid => exact hadding.elim
  | purge guid => exact hadding.elim
  | get guid => exact .pure _
  | put guid entity => exact .bind (h.moves_put guid entity) fun _ => .pure _
  | persist guid => exact .bind (h.moves_persistFrom guid none) fun _ => .pure _
  | load guid => exact .bind (h.moves_load guid) fun _ => .pure _
  | getOrLoad guid => exact .bind (h.moves_getOrLoad guid) fun _ => .pure _
  | exportUnordered guid => exact .bind (h.moves_exportUnordered guid) fun _ => .pure _
  | importUnordered guid =>
    exact .bind (.bind .get fun _ => h.moves_importWithin _ guid) fun _ => .pure _
  | execute i => exact .bind (h.moves_execute registry i) fun _ => .pure _
  | run dag => exact .bind (h.moves_run registry dag) fun _ => .pure _

end Additive

namespace Session

variable {registry : Registry} {r : Vault → Vault → Prop} [Std.Refl r] [Trans r r r]

/-- A store that is only added to is related to itself at any time before. -/
theorem History.additive (hr : Additive r) {vault : Vault} {requests : List Request}
    {session : Session}
    (h : History registry (fun _ => Request.Adding) (opened vault) requests session) :
    ∃ now, session = opened now ∧ r vault now := by
  refine h.invariant (fun session => ∃ now, session = opened now ∧ r vault now) ?_ ?_
  · exact ⟨vault, rfl, Std.Refl.refl vault⟩
  · rintro _ request ⟨now, rfl, hnow⟩ hadding
    have hmoves := hr.moves_work registry hadding now
    apply next_of_yields fun answer => ∃ after, answer.2 = opened after ∧ r vault after
    · rintro settings rfl
      exact hadding
    · rintro rfl
      exact hadding
    · apply hmoves.mono
      · exact fun _ after hafter => ⟨after, rfl, Trans.trans hnow hafter⟩
      · exact fun _ after hafter => ⟨after, rfl, Trans.trans hnow hafter⟩

end Session

end GraphVault
