import GraphVault.Proofs.Independence

/-!
# The order of publication

In a store without copies, an entity is accepted if it goes with what is registered under its guid,
and if it fits the vertex sets that are registered. As entities of distinct guids are put, the first
condition stays what it was, and the second is met ever after, for vertex sets come and never go. So
if entities can be put in some order, they can be put with the vertex sets first, and all orders
in which they can be put end in the same store (`Vault.putAll_of_perm`).
-/

namespace GraphVault

-- Nothing depends on what is read from a disk.
attribute [local irreducible] EntityDirectory.read EntityDirectory.contains

variable {registry : Registry} {pairs others front back : List (Guid × Entity)}
  {pair : Guid × Entity} {i : Instance}

namespace Vault

variable {vault start now after last : Vault} {guid r : Guid} {entity offered : Entity}
  {set : VertexSet}

/-! ### Putting one entity -/

/-- What is registered under a guid, if anything, has the same content as an entity or may be
replaced by it. -/
def Accepts (vault : Vault) (guid : Guid) (offered : Entity) : Prop :=
  ∀ registered, vault.get? guid = some registered →
    registered.sameContent offered ∨ mayReplace vault.settings.collision registered offered

/-- What is registered under a guid once an entity has been accepted there. -/
def accepted (vault : Vault) (guid : Guid) (offered : Entity) : Entity :=
  match vault.get? guid with
  | some registered => if registered.sameContent offered then registered else offered
  | none => offered

/-- A store with an entity put that it accepts. -/
def accept (vault : Vault) (guid : Guid) (offered : Entity) : Vault :=
  vault.insert guid (vault.accepted guid offered)

theorem sameContent_accepted (vault : Vault) (guid : Guid) (offered : Entity) :
    (vault.accepted guid offered).sameContent offered := by
  unfold accepted
  split
  · split
    · assumption
    · exact Entity.sameContent_refl offered
  · exact Entity.sameContent_refl offered

/-- A vertex set that is registered is one of its size after anything is accepted. -/
theorem Accepts.keepsSet (h : vault.Accepts guid offered)
    (hset : vault.get? guid = some (.vertexSet set)) :
    ∃ set', vault.accepted guid offered = .vertexSet set' ∧ set'.size = set.size := by
  simp only [accepted, hset]
  split
  · exact ⟨set, rfl, rfl⟩
  · rename_i hother
    exact mayReplace_vertexSet ((h _ hset).resolve_left hother)

/-- What is accepted depends on nothing but what is registered under the same guid. -/
theorem accepts_congr (hsettings : now.settings = vault.settings)
    (hget : now.get? guid = vault.get? guid) :
    (now.Accepts guid offered ↔ vault.Accepts guid offered) ∧
      now.accepted guid offered = vault.accepted guid offered := by
  rw [Accepts, Accepts, accepted, accepted, hsettings, hget]
  exact ⟨.rfl, rfl⟩

private theorem insert_of_registered (h : vault.get? guid = some entity) :
    vault.insert guid entity = vault := by
  refine Agree.eq ⟨rfl, rfl, rfl, fun other _ => ?_⟩
  by_cases heq : other = guid
  · rw [heq, get?_insert_self, h]
  · exact get?_insert_of_ne vault entity heq

theorem register_accepts (guid : Guid) (offered : Entity) (vault : Vault) :
    Yields (register guid offered) vault
      (fun _ after => vault.Accepts guid offered ∧ after = vault.accept guid offered)
      fun failure after => ¬ vault.Accepts guid offered ∧ failure = .collision guid ∧
        after = vault := by
  simp only [register, yields_bind, yields_get, Accepts, accept, accepted]
  cases hget : vault.get? guid with
  | none => exact ⟨by simp, rfl⟩
  | some registered =>
    simp only [Option.some.injEq, forall_eq']
    by_cases hsame : registered.sameContent offered
    · simp only [hsame, if_true]
      exact ⟨.inl trivial, (insert_of_registered hget).symm⟩
    · by_cases hmay : mayReplace vault.settings.collision registered offered
      · simp only [hsame, hmay]
        exact ⟨.inr trivial, rfl⟩
      · simp [hsame, hmay]

/-- Where an entity fits, it is put unless it collides with what is registered. -/
theorem put_of_fitting (hfits : offered.Fits vault.registered) (guid : Guid) :
    Yields (put guid offered) vault
      (fun _ after => vault.Accepts guid offered ∧ after = vault.accept guid offered)
      fun failure after => ¬ vault.Accepts guid offered ∧ failure = .collision guid ∧
        after = vault := by
  have hfollows := Entity.follows_validate (fun g _ => follows_registered vault g) guid ()
    (Entity.validate_eq_ok_iff.2 hfits)
  rw [put, putWith, yields_bind]
  apply (hfollows.yields vault rfl).mono
  · rintro _ _ ⟨rfl, -⟩
    exact register_accepts guid offered _
  · exact fun _ _ h => h.2.elim

/-- Without copies, an entity is invalid if it does not fit what is registered. -/
private theorem validate_of_unfit (hunsaved : ∀ guid, vault.hasPersisted guid = false)
    (hunfit : ¬ offered.Fits vault.registered) (guid : Guid) :
    Yields (offered.validate guid (resolveWith getOrLoad)) vault (fun _ _ => False)
      fun _ _ => True := by
  have hresolve (r : Guid) : Keeps (· = vault) (fun _ => True) (fun _ => True)
      (resolveWith getOrLoad r) := by
    refine Keeps.bind (.bind_get ?_) fun found (_ : True) =>
      .ofExcept (fun _ _ => trivial) fun _ _ => trivial
    rintro now rfl
    cases hget : now.get? r with
    | some found => exact ⟨rfl, trivial⟩
    | none =>
      simp only [hunsaved]
      exact ⟨rfl, trivial⟩
  have hkeeps := (Entity.keeps_validate (fun r (_ : r ∈ offered.references) => hresolve r)
    guid).yields vault rfl
  apply (hkeeps.and (validate_yields finds_getOrLoad offered guid vault)).mono
  · rintro _ after ⟨⟨rfl, -⟩, -, hfits⟩
    exact hunfit hfits
  · exact fun _ _ _ => trivial

/-- An entity is put where it fits and is accepted. -/
theorem put_accepts (hunsaved : ∀ guid, vault.hasPersisted guid = false) (guid : Guid)
    (offered : Entity) :
    Yields (put guid offered) vault
      (fun _ after => (offered.Fits vault.registered ∧ vault.Accepts guid offered) ∧
        after = vault.accept guid offered)
      fun _ _ => ¬ (offered.Fits vault.registered ∧ vault.Accepts guid offered) := by
  by_cases hfits : offered.Fits vault.registered
  · apply (put_of_fitting hfits guid).mono
    · exact fun _ _ h => ⟨⟨hfits, h.1⟩, h.2⟩
    · exact fun _ _ hnot h => hnot.1 h.2
  · rw [put, putWith, yields_bind]
    apply (validate_of_unfit hunsaved hfits guid).mono
    · exact fun _ _ hfalse => hfalse.elim
    · exact fun _ _ _ h => hfits h.1

/-! ### Putting several entities -/

/-- Puts entities one after the other. -/
def putAll (pairs : List (Guid × Entity)) : VaultM Unit :=
  pairs.forM fun (guid, entity) => do let _ ← put guid entity

/-- A store with all of the entities put that it accepts. -/
def acceptAll (vault : Vault) (pairs : List (Guid × Entity)) : Vault :=
  vault.insertAll (pairs.map fun pair => (pair.1, vault.accepted pair.1 pair.2))

/-- Entities that a store accepts, each of which fits when those before it have been put. -/
structure Puttable (vault : Vault) (pairs : List (Guid × Entity)) : Prop where
  accepts : ∀ pair ∈ pairs, vault.Accepts pair.1 pair.2
  fits : ∀ front pair back, pairs = front ++ pair :: back →
    pair.2.Fits (vault.acceptAll front).registered

theorem acceptAll_of_mem (hnodup : (pairs.map (·.1)).Nodup) (h : (guid, entity) ∈ pairs) :
    (vault.acceptAll pairs).get? guid = some (vault.accepted guid entity) := by
  apply get?_insertAll_of_mem
  · rw [List.map_map]
    exact hnodup
  · exact List.mem_map_of_mem h

theorem acceptAll_of_not_mem (vault : Vault) (h : guid ∉ pairs.map (·.1)) :
    (vault.acceptAll pairs).get? guid = vault.get? guid := by
  apply get?_insertAll_of_not_mem
  rw [List.map_map]
  exact h

/-- The order in which entities are put makes no difference. -/
theorem acceptAll_perm (hnodup : (pairs.map (·.1)).Nodup) (hperm : others.Perm pairs) :
    vault.acceptAll others = vault.acceptAll pairs := by
  have hothers : (others.map (·.1)).Nodup := (hperm.map _).nodup_iff.2 hnodup
  have heq (pairs : List (Guid × Entity)) : vault.acceptAll pairs
      = { vault with entities := (vault.acceptAll pairs).entities } := insertAll_eq vault _
  rw [heq others, heq pairs]
  congr 1
  refine SortedMap.ext fun guid => ?_
  by_cases hmem : guid ∈ pairs.map (·.1)
  · obtain ⟨⟨_, entity⟩, hentity, rfl⟩ := List.mem_map.1 hmem
    exact (acceptAll_of_mem hothers (hperm.mem_iff.2 hentity)).trans
      (acceptAll_of_mem hnodup hentity).symm
  · have hmem' : guid ∉ others.map (·.1) := fun h => hmem ((hperm.map _).mem_iff.1 h)
    exact (acceptAll_of_not_mem vault hmem').trans (acceptAll_of_not_mem vault hmem).symm

/-- What is put under one guid is no matter for what is accepted under others. -/
private theorem accept_others (h : pair.1 ∉ pairs.map (·.1)) {other : Guid × Entity}
    (hother : other ∈ pairs) :
    ((vault.accept pair.1 pair.2).Accepts other.1 other.2 ↔ vault.Accepts other.1 other.2) ∧
      (vault.accept pair.1 pair.2).accepted other.1 other.2 = vault.accepted other.1 other.2 := by
  refine accepts_congr rfl (get?_insert_of_ne vault _ ?_)
  intro heq
  exact h (heq ▸ List.mem_map_of_mem hother)

theorem acceptAll_cons (h : pair.1 ∉ pairs.map (·.1)) :
    vault.acceptAll (pair :: pairs) = (vault.accept pair.1 pair.2).acceptAll pairs := by
  have hmap : pairs.map (fun other => (other.1, vault.accepted other.1 other.2))
      = pairs.map fun other =>
        (other.1, (vault.accept pair.1 pair.2).accepted other.1 other.2) :=
    List.map_congr_left fun other hother => by rw [(accept_others h hother).2]
  rw [acceptAll, acceptAll, List.map_cons, hmap]
  rfl

theorem puttable_cons_iff (h : pair.1 ∉ pairs.map (·.1)) :
    vault.Puttable (pair :: pairs) ↔
      (pair.2.Fits vault.registered ∧ vault.Accepts pair.1 pair.2) ∧
        (vault.accept pair.1 pair.2).Puttable pairs := by
  have hfront {front back : List (Guid × Entity)} {other : Guid × Entity}
      (heq : pairs = front ++ other :: back) :
      vault.acceptAll (pair :: front) = (vault.accept pair.1 pair.2).acceptAll front := by
    apply acceptAll_cons
    rw [heq, List.map_append] at h
    exact fun hmem => h (List.mem_append_left _ hmem)
  constructor
  · intro hputtable
    refine ⟨⟨hputtable.fits [] pair pairs rfl, hputtable.accepts pair List.mem_cons_self⟩, ?_, ?_⟩
    · intro other hother
      exact (accept_others h hother).1.2 (hputtable.accepts other (List.mem_cons_of_mem _ hother))
    · rintro front other back heq
      have hfits := hputtable.fits (pair :: front) other back (congrArg (pair :: ·) heq)
      rwa [hfront heq] at hfits
  · rintro ⟨⟨hfits, haccepts⟩, hrest⟩
    refine ⟨fun other hother => ?_, fun front other back heq => ?_⟩
    · cases List.mem_cons.1 hother with
      | inl hself => exact hself ▸ haccepts
      | inr hmem => exact (accept_others h hmem).1.1 (hrest.accepts other hmem)
    · cases front with
      | nil =>
        cases heq
        exact hfits
      | cons first front =>
        obtain ⟨rfl, hpairs⟩ := List.cons.inj heq
        rw [hfront hpairs]
        exact hrest.fits front other back hpairs

/-- Entities are put if they can be, and fail to be put if not. -/
private theorem putAll_yields (hunsaved : ∀ guid, vault.hasPersisted guid = false)
    (hnodup : (pairs.map (·.1)).Nodup) :
    Yields (putAll pairs) vault
      (fun _ after => vault.Puttable pairs ∧ after = vault.acceptAll pairs)
      fun _ _ => ¬ vault.Puttable pairs := by
  induction pairs generalizing vault with
  | nil => exact ⟨⟨nofun, fun front _ _ heq => by cases front <;> cases heq⟩, rfl⟩
  | cons pair pairs ih =>
    rw [List.map_cons, List.nodup_cons] at hnodup
    rw [puttable_cons_iff hnodup.1, acceptAll_cons hnodup.1, putAll]
    simp only [List.forM_eq_forM, List.forM_cons, yields_bind, yields_pure]
    apply (put_accepts hunsaved pair.1 pair.2).mono
    · rintro _ after ⟨hput, rfl⟩
      have hunsaved' : ∀ guid, (vault.accept pair.1 pair.2).hasPersisted guid = false := hunsaved
      apply (ih hunsaved' hnodup.2).mono
      · exact fun _ _ h => ⟨⟨hput, h.1⟩, h.2⟩
      · exact fun _ _ hnot h => hnot h.2
    · exact fun _ _ hnot h => hnot h.1

theorem putAll_eq_ok_iff (hunsaved : ∀ guid, vault.hasPersisted guid = false)
    (hnodup : (pairs.map (·.1)).Nodup) :
    putAll pairs vault = .ok () after ↔
      vault.Puttable pairs ∧ after = vault.acceptAll pairs := by
  have hyields := putAll_yields hunsaved hnodup
  unfold Yields at hyields
  generalize putAll pairs vault = result at hyields ⊢
  cases result with
  | ok _ now =>
    obtain ⟨hputtable, rfl⟩ := hyields
    simp [hputtable, eq_comm]
  | error failure now => simp [hyields]

/-- Vertex sets keep their sizes while entities are put. -/
private theorem keepsSets_acceptAll (haccepts : ∀ pair ∈ pairs, vault.Accepts pair.1 pair.2)
    (hnodup : (pairs.map (·.1)).Nodup) : vault.KeepsSets (vault.acceptAll pairs) := by
  intro guid set hset
  by_cases hmem : guid ∈ pairs.map (·.1)
  · obtain ⟨⟨_, entity⟩, hentity, rfl⟩ := List.mem_map.1 hmem
    obtain ⟨set', hset', hsize⟩ := (haccepts _ hentity).keepsSet hset
    exact ⟨set', (acceptAll_of_mem hnodup hentity).trans (congrArg some hset'), hsize⟩
  · exact ⟨set, (acceptAll_of_not_mem vault hmem).trans hset, rfl⟩

/-- A vertex set that comes before an entity in some order does so where vertex sets come first. -/
private theorem mem_front_of_inOrder (horder : Executor.InOrder (front ++ pair :: back))
    (hr : r ∈ pair.2.references) (hmem : (guid, .vertexSet set) ∈ front ++ pair :: back) :
    (guid, .vertexSet set) ∈ front := by
  obtain ⟨other, entity⟩ := pair
  cases entity with
  | vertexSet _ => cases hr
  | _ =>
    refine (List.mem_append.1 hmem).resolve_right fun hrest => ?_
    cases List.mem_cons.1 hrest with
    | inl heq => cases heq
    | inr hback =>
      have hle := (List.pairwise_cons.1 (List.pairwise_append.1 horder).2.1).1 _ hback
      exact absurd hle (by simp [Entity.publishRank])

/-- If entities can be put, they can be put with the vertex sets first. -/
theorem Puttable.inOrder (h : vault.Puttable pairs) (hnodup : (pairs.map (·.1)).Nodup)
    (hperm : others.Perm pairs) (horder : Executor.InOrder others) : vault.Puttable others := by
  have haccepts : ∀ pair ∈ others, vault.Accepts pair.1 pair.2 :=
    fun pair hpair => h.accepts pair (hperm.mem_iff.1 hpair)
  refine ⟨haccepts, ?_⟩
  rintro front pair back rfl
  have hfront : (front.map (·.1)).Nodup :=
    ((hperm.map _).nodup_iff.2 hnodup).sublist ((List.sublist_append_left front _).map _)
  obtain ⟨front', back', rfl⟩ := List.append_of_mem
    (hperm.mem_iff.1 (List.mem_append_right front (List.mem_cons_self (a := pair) (l := back))))
  refine (h.fits front' pair back' rfl).congr fun r hr set hset => ?_
  simp only [registered_eq_ok_iff] at hset ⊢
  by_cases hmem : r ∈ front'.map (·.1)
  · -- the vertex set is put in either order, and sooner than what refers to it
    obtain ⟨⟨r, entity⟩, hentity, rfl⟩ := List.mem_map.1 hmem
    have hfront' : (front'.map (·.1)).Nodup :=
      hnodup.sublist ((List.sublist_append_left front' _).map _)
    rw [acceptAll_of_mem hfront' hentity, Option.some.injEq] at hset
    have hsame := sameContent_accepted vault r entity
    rw [hset, Entity.sameContent_vertexSet_iff] at hsame
    subst hsame
    have hsooner := mem_front_of_inOrder horder hr
      (hperm.mem_iff.2 (List.mem_append_left _ hentity))
    exact ⟨set, (acceptAll_of_mem hfront hsooner).trans (congrArg some hset), rfl⟩
  · rw [acceptAll_of_not_mem vault hmem] at hset
    exact keepsSets_acceptAll (fun other hother => haccepts other (List.mem_append_left _ hother))
      hfront r set hset

end Vault

namespace Executor

open Vault

variable {vault start after : Vault} {i : Instance}

/-- The outputs of an instance come in order. -/
theorem produce_inOrder {outputs : List (Guid × Entity)}
    (h : produce registry i start = .ok outputs vault) : InOrder outputs := by
  have hyields : Yields (produce registry i) start (fun outputs _ => InOrder outputs)
      fun _ _ => True :=
    yields_of_last (fun _ => yields_of_last fun _ => yields_of_last fun outputs now =>
      yields_pure.2 (inOrder_mergeSort outputs)) start
  unfold Yields at hyields
  rwa [h] at hyields

/-- An instance whose outputs can be published is executed. -/
theorem execute_of_putAll {outputs : List (Guid × Entity)} (hverify : i.verify = .ok ())
    (hcached : isCached start i = false) (hproduce : produce registry i start = .ok outputs vault)
    (hput : putAll outputs vault = .ok () after)
    (htransient : after.settings.persistOutputs = false) :
    execute registry i start = .ok .computed after := by
  have hexecutes : Yields (execute registry i) start
      (fun outcome now => outcome = .computed ∧ now = after) fun _ _ => False := by
    rw [putAll] at hput
    rw [execute, hverify, yields_bind, yields_ofExcept_ok, yields_bind, yields_get, hcached,
      if_neg Bool.false_ne_true, yields_bind, yields_iff_of_ok hproduce, yields_bind,
      yields_iff_of_ok hput, yields_bind, yields_get, htransient, if_neg Bool.false_ne_true]
    exact ⟨rfl, rfl⟩
  obtain ⟨_, _, hresult, rfl, rfl⟩ := hexecutes.exists_ok
  exact hresult

end Executor

namespace Vault

variable {vault after : Vault}

/-- In a store without copies, whatever it does about collisions, entities of distinct guids that can
be put in some order can be put in every order with the vertex sets first, and in whatever order
they can be put, the store comes to be the same. In particular, an instance is executed without fail
if the outputs that are made can be published in some order. -/
theorem putAll_of_perm (hunsaved : ∀ guid, vault.hasPersisted guid = false)
    (hnodup : (pairs.map (·.1)).Nodup) (hput : putAll pairs vault = .ok () after) :
    (∀ others, others.Perm pairs → Executor.InOrder others →
      putAll others vault = .ok () after) ∧
    (∀ others last, others.Perm pairs → putAll others vault = .ok () last → last = after) ∧
    ∀ registry i start outputs, Executor.produce registry i start = .ok outputs vault →
      outputs.Perm pairs → i.verify = .ok () → Executor.isCached start i = false →
      vault.settings.persistOutputs = false →
      Executor.execute registry i start = .ok .computed after := by
  obtain ⟨hputtable, rfl⟩ := (putAll_eq_ok_iff hunsaved hnodup).1 hput
  have hordered (others : List (Guid × Entity)) (hperm : others.Perm pairs)
      (horder : Executor.InOrder others) : putAll others vault = .ok () (vault.acceptAll pairs) := by
    have hothers := (hperm.map _).nodup_iff.2 hnodup
    refine (putAll_eq_ok_iff hunsaved hothers).2 ⟨hputtable.inOrder hnodup hperm horder, ?_⟩
    exact (acceptAll_perm hnodup hperm).symm
  refine ⟨hordered, fun others last hperm hlast => ?_, ?_⟩
  · have hothers := (hperm.map _).nodup_iff.2 hnodup
    rw [((putAll_eq_ok_iff hunsaved hothers).1 hlast).2, acceptAll_perm hnodup hperm]
  · intro registry i start outputs hproduce hperm hverify hcached htransient
    have hpublish := hordered outputs hperm (Executor.produce_inOrder hproduce)
    refine Executor.execute_of_putAll hverify hcached hproduce hpublish ?_
    rwa [acceptAll, insertAll_eq]

/-- A vertex set and a bundle are new, and the others replace what is registered. The vertex set is
put in the second place, behind one whose vertices trade places. -/
theorem putAll_of_perm_overwriting :
    let vault : Vault := { Vault.inMemory Disk.empty with
      settings := { Settings.default with collision := .overwrite }
      entities := SortedMap.ofList [(Guid.filled 1, .vertexSet ⟨[7, 8]⟩),
        (Guid.filled 2, .edgeBundle ⟨[0], [1], [9], Guid.filled 1, Guid.filled 1⟩)] }
    let swapped : Guid × Entity := (Guid.filled 1, .vertexSet ⟨[8, 7]⟩)
    let replaced : Guid × Entity :=
      (Guid.filled 2, .edgeBundle ⟨[1], [0], [9], Guid.filled 1, Guid.filled 3⟩)
    let single : Guid × Entity := (Guid.filled 3, .vertexSet ⟨[5]⟩)
    let back : Guid × Entity :=
      (Guid.filled 4, .edgeBundle ⟨[0], [1], [9], Guid.filled 3, Guid.filled 1⟩)
    ∃ after, putAll [single, replaced, swapped, back] vault = .ok () after ∧
      putAll [swapped, single, back, replaced] vault = .ok () after := by
  intro vault swapped replaced single back
  have hput : ∃ after, putAll [single, replaced, swapped, back] vault = .ok () after := ⟨_, rfl⟩
  obtain ⟨after, hput⟩ := hput
  have hunsaved (guid : Guid) : vault.hasPersisted guid = false :=
    Executor.memoryOnly_empty.unsaved guid
  have hperm : [swapped, single, back, replaced].Perm [single, replaced, swapped, back] := by
    decide
  exact ⟨after, hput, (putAll_of_perm hunsaved (by decide) hput).1 _ hperm (by decide)⟩

end Vault

end GraphVault
