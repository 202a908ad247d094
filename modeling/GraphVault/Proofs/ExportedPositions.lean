import GraphVault.Proofs.Gathering
import GraphVault.Proofs.PositionalIntegrity
import GraphVault.Proofs.Regimes

/-!
# Exported positions

An export looks up the external id at every position without checking the position again. So long as
nothing is dropped that a registered entity refers to, there is one, under either policy and over any
disk (`Session.history_steady`). A vertex set that is dropped and replaced by a smaller one is
outlived by the column that was checked against it (`Session.history_outlived`).
-/

namespace GraphVault

open Vault

-- Of these only what they yield is used.
attribute [local irreducible] EntityDirectory.read EntityDirectory.write EntityDirectory.remove
  EntityDirectory.contains

/-- A failure that is reported, or that stored references form a loop. -/
def Failure.Steady (failure : Failure) : Prop :=
  ∀ cause, failure = .aborted cause → cause = .referenceLoop

theorem Failure.Ordinary.steady {failure : Failure} (h : failure.Ordinary) : failure.Steady :=
  fun cause heq => absurd heq (h cause)

theorem Failure.OfOperation.steady {failure : Failure} (h : failure.OfOperation) :
    failure.Steady := by
  rintro cause rfl
  exact h.elim

namespace Regime

/-- The regime that admits everything. -/
def anything : Regime where
  inv _ := True
  admits _ _ := True
  tolerates := Failure.Steady
  ordinary _ h := h.steady
  loop := by
    intro cause heq
    cases heq
    rfl
  registered _ _ := trivial
  insert _ _ := trivial
  stored _ _ _ := trivial

theorem exchanges_anything : anything.Exchanges := fun _ _ _ => trivial

theorem writes_anything : anything.Writes where
  erase _ _ := trivial
  write {vault _ _ stored} _ _ _ _ :=
    (EntityDirectory.write_yields _ stored vault.disk).mono (fun _ _ _ => trivial)
      fun _ _ _ => trivial
  delete {vault} _ guid :=
    (EntityDirectory.remove_yields _ guid vault.disk).mono (fun _ _ _ => trivial)
      fun _ _ _ => trivial
  recordEntity _ _ _ _ := trivial
  forgetEntity _ _ _ := trivial
  recordInstance _ _ _ := trivial

theorem serves_anything (i : Instance) : anything.Serves Registry.builtin i := by
  intro inputs _
  refine ((makes_run i inputs).weaken fun _ h => h.steady).mono fun context hcontext => ?_
  exact (hcontext.computes_outputs.weaken fun _ h => h.ofOperation.steady).mono
    fun _ _ _ _ => trivial

end Regime

/-! ### Exporting what fits -/

namespace Vault

variable {vault : Vault} {guid : Guid}

/-- Where registered entities fit, no lookup of an export fails. -/
theorem exportUnordered_steady (h : vault.Fitting) (guid : Guid) :
    Yields (exportUnordered guid) vault (fun _ _ => True) fun failure _ => failure.Steady := by
  rw [exportUnordered, yields_bind]
  apply ((finds_getOrLoad guid vault).and
    ((Regime.anything.keeps_getOrLoad guid).yields vault trivial)).mono
  · rintro entity found ⟨⟨hevolves, hentity⟩, -⟩
    have hfits := hevolves.fitting h guid entity hentity
    obtain ⟨stored, hstored⟩ := Unordered.exists_encode guid hfits
    -- all references are registered by now, so that nothing is loaded to write the copy
    have hencode := Unordered.follows_encode (follows_registered found) guid entity stored hstored
    rw [yields_bind]
    apply (hencode.yields found rfl).mono
    · rintro _ after ⟨rfl, rfl⟩
      rw [yields_bind, yields_get, write, yields_bind, onDisk_yields_iff]
      apply (EntityDirectory.write_yields _ _ _).mono
      · exact fun _ _ _ => trivial
      · rintro _ _ ⟨⟨fault, rfl⟩, -⟩
        simp [Failure.Steady]
    · exact fun _ _ hfalse => hfalse.2.elim
  · exact fun failure _ hfailure => hfailure.2.2

end Vault

namespace Session

/-- An entity is dropped only if nothing that is registered refers to it. -/
def Sparing (session : Session) (request : Request) : Prop :=
  ∀ vault guid, session = opened vault → request = .remove guid ∨ request = .purge guid →
    ¬ vault.RefersTo guid

variable {vault : Vault} {session : Session} {request : Request} {requests : List Request}

private theorem Sparing.careful (h : Sparing (opened vault) request)
    (hopen : ∀ settings, request ≠ .open settings) (hclose : request ≠ .close) :
    Careful (opened vault) request := by
  cases request with
  | «open» settings => exact hopen settings rfl
  | close => exact hclose rfl
  | remove guid =>
    rintro _ ⟨⟩
    exact h vault guid rfl (.inl rfl)
  | purge guid =>
    rintro _ ⟨⟩
    exact h vault guid rfl (.inr rfl)
  | _ => exact trivial

private theorem work_steady (h : vault.Fitting) (request : Request) :
    Yields (request.work Registry.builtin) vault (fun _ _ => True)
      fun failure _ => failure.Steady := by
  by_cases hexport : ∃ guid, request = .exportUnordered guid
  · obtain ⟨guid, rfl⟩ := hexport
    rw [Request.work, yields_bind]
    exact exportUnordered_steady h guid
  · have hallows : Regime.anything.Allows Registry.builtin request := by
      cases request with
      | exportUnordered guid => exact hexport ⟨guid, rfl⟩
      | importUnordered guid => exact Regime.exchanges_anything
      | execute i => exact Regime.serves_anything i
      | run dag => exact fun _ i _ => Regime.serves_anything i
      | _ => exact trivial
    apply ((Regime.writes_anything.keeps_work hallows).yields vault trivial).mono
    · exact fun _ _ _ => trivial
    · exact fun _ _ hfailure => hfailure.2

/-- What is registered fits, if a store is open. -/
private def Fits (session : Session) : Prop := ∀ vault, session = opened vault → vault.Fitting

private theorem next_steady (h : session.Fits) (hrequest : Sparing session request) :
    (session.next Registry.builtin request).2.Fits ∧
      ∀ failure, (session.next Registry.builtin request).1 = .error failure → failure.Steady := by
  apply next_of_cases fun answer => answer.2.Fits ∧
    ∀ failure, answer.1 = .error failure → failure.Steady
  case hopen =>
    rintro settings -
    apply (Vault.open_yields settings session.disk).mono
    · rintro vault disk ⟨hvault, -⟩
      refine ⟨?_, nofun⟩
      rintro _ ⟨⟩ guid entity hentity
      rw [hvault] at hentity
      cases hentity
    · rintro failure disk ⟨hfailure, -⟩
      refine ⟨nofun, ?_⟩
      rintro _ ⟨⟩
      rcases hfailure with ⟨fault, rfl⟩ | ⟨fault, rfl⟩
      · exact fun _ => nofun
      · exact fun _ => nofun
  case hclose => exact fun _ => ⟨nofun, nofun⟩
  case hclosed => exact fun _ _ => ⟨nofun, nofun⟩
  case hwork =>
    rintro vault rfl hopen hclose
    have hvault := h vault rfl
    have hfitting {after : Vault} (hupholds : vault.Upholds after) : (opened after).Fits := by
      rintro _ ⟨⟩
      exact hupholds.1 hvault
    have hupholds := request.work_upholds Registry.builtin (hrequest.careful hopen hclose)
    apply (hupholds.and (work_steady hvault request)).mono
    · exact fun _ after hafter => ⟨hfitting hafter.1, nofun⟩
    · rintro failure after ⟨hafter, hsteady⟩
      refine ⟨hfitting hafter, ?_⟩
      rintro _ ⟨⟩
      exact hsteady

/-- Whatever stores over any disk are asked for, if nothing is dropped that a registered entity
refers to, then no position is looked up that is not there, and no operation gives up: all failures
are reported, or are due to a loop of stored references. -/
theorem history_steady {disk : Disk}
    (h : History Registry.builtin Sparing (closed disk) requests session) :
    ∀ request, Sparing session request →
      ∀ failure, (session.next Registry.builtin request).1 = .error failure → failure.Steady := by
  have hfits : session.Fits := by
    apply h.invariant Fits
    · exact nofun
    · exact fun _ _ hsession hrequest => (next_steady hsession hrequest).1
  exact fun _ hrequest => (next_steady hfits hrequest).2

/-- A column over a vertex set is exported, and the vertex set stays as long as the column does. -/
theorem history_steady_column :
    let settings : Settings := ⟨"ordered", "unordered", .overwrite, false, false⟩
    let cells : Attribute ColumnType.double.Cell :=
      ⟨[Double.zero, Double.zero], [true, true], Guid.filled 1⟩
    let requests : List Request := [.open settings, .put (Guid.filled 1) (.vertexSet ⟨[1, 2]⟩),
      .put (Guid.filled 2) (.column .double cells)]
    ∃ session, History Registry.builtin Sparing (closed Disk.empty) requests session ∧
      Sparing session (.exportUnordered (Guid.filled 2)) ∧
      ¬ Sparing session (.remove (Guid.filled 1)) ∧
      ∀ request, Sparing session request →
        ∀ failure, (session.next Registry.builtin request).1 = .error failure → failure.Steady := by
  intro settings cells requests
  have hspares (session : Session) (request : Request)
      (h : ∀ guid, request ≠ .remove guid ∧ request ≠ .purge guid) : Sparing session request := by
    rintro vault guid - (heq | heq)
    · exact absurd heq (h guid).1
    · exact absurd heq (h guid).2
  have hstart : History Registry.builtin Sparing (closed Disk.empty) [] (closed Disk.empty) := .start
  have hopen := hstart.step (hspares _ (.open settings) fun _ => ⟨nofun, nofun⟩)
  have hset := hopen.step
    (hspares _ (.put (Guid.filled 1) (.vertexSet ⟨[1, 2]⟩)) fun _ => ⟨nofun, nofun⟩)
  have hcolumn := hset.step
    (hspares _ (.put (Guid.filled 2) (.column .double cells)) fun _ => ⟨nofun, nofun⟩)
  refine ⟨_, hcolumn, hspares _ _ fun _ => ⟨nofun, nofun⟩, fun hsparing => ?_,
    history_steady hcolumn⟩
  exact hsparing _ (Guid.filled 1) rfl (.inl rfl)
    ⟨Guid.filled 2, .column .double cells, rfl, List.mem_singleton.2 rfl⟩

end Session

/-! ### Vertex sets that are outlived -/

namespace Unordered

variable {type : ColumnType} {cells : Attribute type.Cell} {set : VertexSet} {position : Nat}
  {value : type.Cell}

private theorem cellRow_error {cell : Nat × type.Cell} {failure : Failure}
    (h : cellRow set cell = .error failure) : failure = .aborted .unmappedPosition := by
  cases hid : set.externalId cell.1 with
  | some id => simp [cellRow, external, hid, bind, Except.bind, pure, Except.pure] at h
  | none =>
    simp only [cellRow, external, hid, bind, Except.bind, Except.error.injEq] at h
    exact h.symm

/-- A cell behind the end of a vertex set has no row. -/
theorem mapM_cellRow_of_outside {rows : List (Nat × type.Cell)} (hcell : (position, value) ∈ rows)
    (houtside : set.size ≤ position) :
    rows.mapM (cellRow set) = .error (.aborted .unmappedPosition) := by
  induction rows with
  | nil => cases hcell
  | cons row rows ih =>
    rw [List.mapM_cons]
    cases hrow : cellRow set row with
    | error failure => rw [cellRow_error hrow]; rfl
    | ok first =>
      cases List.mem_cons.1 hcell with
      | inl heq =>
        have hnone : set.externalId position = none := List.getElem?_eq_none houtside
        rw [← heq] at hrow
        simp [cellRow, external, hnone, bind, Except.bind] at hrow
      | inr hrest => rw [ih hrest]; rfl

end Unordered

namespace Vault

variable {vault : Vault} {guid : Guid} {type : ColumnType} {cells : Attribute type.Cell}
  {set : VertexSet} {position : Nat} {value : type.Cell}

/-- A column with a cell behind the end of its vertex set is not exported: the store gives up. -/
theorem exportUnordered_of_outside (hcolumn : vault.get? guid = some (.column type cells))
    (hset : vault.get? cells.vertexSet = some (.vertexSet set))
    (hcell : (position, value) ∈ cells.cells) (houtside : set.size ≤ position) :
    Yields (exportUnordered guid) vault (fun _ _ => False)
      fun failure _ => failure = .aborted .unmappedPosition := by
  rw [exportUnordered, yields_bind]
  apply (findWith_of_registered hcolumn).mono ?_ fun _ _ hfalse => hfalse.elim
  rintro _ after ⟨rfl, rfl⟩
  have hresolve := follows_registered after cells.vertexSet set (registered_eq_ok_iff.2 hset)
  have hencode : Yields (Unordered.encode guid (.column type cells) resolve) after
      (fun _ _ => False) fun failure _ => failure = .aborted .unmappedPosition := by
    rw [Unordered.encode, yields_bind]
    apply (hresolve.yields after rfl).mono ?_ fun _ _ hfalse => hfalse.2.elim
    rintro _ _ ⟨-, rfl⟩
    rw [Unordered.mapM_cellRow_of_outside hcell houtside]
    exact rfl
  rw [yields_bind]
  exact hencode.mono (fun _ _ hfalse => hfalse.elim) fun _ _ heq => heq

end Vault

namespace Session

variable {registry : Registry} {start : Session} {requests : List Request} {vault : Vault}
  {guid : Guid} {type : ColumnType} {cells : Attribute type.Cell} {set : VertexSet}
  {position : Nat} {value : type.Cell}

/-- The vertex set of a column is dropped, and one takes its place that does not have all positions
of the column. -/
theorem History.outlived (h : History registry (fun _ _ => True) start requests (opened vault))
    (hcolumn : vault.get? guid = some (.column type cells)) (hne : guid ≠ cells.vertexSet)
    (hcell : (position, value) ∈ cells.cells) (houtside : set.size ≤ position)
    (hdistinct : set.mapping.Nodup) :
    ∃ session, History registry (fun _ _ => True) start
        (requests ++ [.remove cells.vertexSet] ++ [.put cells.vertexSet (.vertexSet set)]) session ∧
      (session.next registry (.exportUnordered guid)).1 = .error (.aborted .unmappedPosition) := by
  let removed : Vault := { vault with entities := vault.entities.erase cells.vertexSet }
  have hfree : removed.get? cells.vertexSet = none := SortedMap.get?_erase_self _ _
  have hfits : (Entity.vertexSet set).Fits removed.registered := hdistinct
  have hremove : Yields (Vault.remove cells.vertexSet) vault (fun _ after => after = removed)
    fun _ _ => False := rfl
  obtain ⟨_, hfirst, rfl⟩ :=
    h.step_of_yields (.remove cells.vertexSet) trivial trivial rfl hremove
  obtain ⟨_, hsecond, rfl⟩ :=
    hfirst.step_of_yields (.put cells.vertexSet (.vertexSet set)) trivial trivial rfl
      (Vault.put_of_fits hfree hfits)
  refine ⟨_, hsecond, ?_⟩
  have hstays : (removed.insert cells.vertexSet (.vertexSet set)).get? guid
      = some (.column type cells) := by
    rw [Vault.get?_insert_of_ne _ _ hne, Vault.get?, SortedMap.get?_erase_of_ne _ hne]
    exact hcolumn
  have hopen (settings : Settings) : Request.exportUnordered guid ≠ .open settings := by simp
  have hclose : Request.exportUnordered guid ≠ .close := by simp
  apply next_of_yields (fun answer => answer.1 = .error (.aborted .unmappedPosition)) hopen hclose
  rw [Request.work, yields_bind]
  apply (Vault.exportUnordered_of_outside hstays (Vault.get?_insert_self _ _ _) hcell houtside).mono
  · exact fun _ _ hfalse => hfalse.elim
  · rintro _ _ rfl
    rfl

/-- A column of two cells, the vertex set of which is replaced by one of a single vertex. -/
theorem history_outlived :
    let settings : Settings := ⟨"ordered", "unordered", .reject, false, false⟩
    let cells : Attribute ColumnType.double.Cell := ⟨[⟨1⟩, ⟨2⟩], [true, true], Guid.filled 1⟩
    let requests : List Request := [.open settings, .put (Guid.filled 1) (.vertexSet ⟨[1, 2]⟩),
      .put (Guid.filled 2) (.column .double cells), .remove (Guid.filled 1),
      .put (Guid.filled 1) (.vertexSet ⟨[1]⟩)]
    ∃ session, History Registry.builtin (fun _ _ => True) (closed Disk.empty) requests session ∧
      (session.next Registry.builtin (.exportUnordered (Guid.filled 2))).1
        = .error (.aborted .unmappedPosition) := by
  intro settings cells requests
  have hstart : History Registry.builtin (fun _ _ => True) (closed Disk.empty) []
    (closed Disk.empty) := .start
  let first : Vault := ⟨settings, (SortedMap.empty.insert (Guid.filled 1) (.vertexSet ⟨[1, 2]⟩)).insert
    (Guid.filled 2) (.column .double cells), none, Disk.empty⟩
  have hput : History Registry.builtin (fun _ _ => True) (closed Disk.empty) _ (opened first) :=
    hstart.foldl (requests.take 3)
  have hcolumn : first.get? (Guid.filled 2) = some (.column .double cells) := rfl
  have hcell : (1, ⟨2⟩) ∈ cells.cells := List.mem_cons_of_mem _ List.mem_cons_self
  exact hput.outlived hcolumn (by decide) hcell (Nat.le_refl 1) (List.nodup_singleton 1)

end Session

end GraphVault
