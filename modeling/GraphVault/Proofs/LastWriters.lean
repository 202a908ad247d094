import GraphVault.Proofs.FirstCopies

/-!
# The last writer and the first copy

Where a store replaces entities, what was put last is in memory, but it is on disk only if it was the
first that was persisted (`Session.history_first_kept`). What was put later is persisted without
complaint and is gone for the next store (`Session.history_replaced_unsaved`).
-/

namespace GraphVault

open Disk EntityDirectory

namespace Session

variable {site : Site} {registry : Registry} {disk opening : Disk} {settings : Settings}
  {vault first before held now saved last : Vault} {session : Session} {request : Request}
  {requests earlier between later : List Request} {guid : Guid} {entity answer : Entity}
  {path : String}

/-- Entities are put and persisted, and nothing else is asked for. -/
def Writing (_ : Session) : Request → Prop
  | .put _ _ | .persist _ => True
  | _ => False

/-- Entities are put and persisted, but nothing is successfully put under a guid. -/
def Retaining (guid : Guid) : Session → Request → Prop
  | opened vault, .put other entity =>
    other = guid → ∀ found after, Vault.put other entity vault ≠ .ok found after
  | opened _, .persist _ => True
  | _, _ => False

theorem Retaining.writing (h : Retaining guid session request) : Writing session request := by
  cases session with
  | closed disk => exact h.elim
  | opened vault => cases request <;> trivial

private theorem next_writes (h : vault.Steady site) (hallowed : Writing (opened vault) request) :
    ∃ after, ((opened vault).next registry request).2 = opened after ∧ after.Steady site ∧
      vault.Advances site.dataBase after ∧
      ∀ guid, Retaining guid (opened vault) request → after.get? guid = vault.get? guid := by
  have hopen : ∀ settings, request ≠ .open settings := by
    rintro settings rfl
    exact hallowed
  have hclose : request ≠ .close := by
    rintro rfl
    exact hallowed
  apply next_of_yields (fun answer => ∃ after, answer.2 = opened after ∧ after.Steady site ∧
    vault.Advances site.dataBase after ∧
    ∀ guid, Retaining guid (opened vault) request → after.get? guid = vault.get? guid) hopen hclose
  cases request with
  | put other entity =>
    rw [Request.work, yields_bind]
    apply (h.put_yields other entity).remember.mono
    · rintro found after ⟨⟨hsteady, hadvances, -, -, -, hothers⟩, hresult⟩
      refine ⟨after, rfl, hsteady, hadvances, fun guid hspares => hothers guid ?_⟩
      rintro rfl
      exact hspares rfl found after hresult
    · rintro _ _ rfl
      exact ⟨_, rfl, h, .refl _ _, fun _ _ => rfl⟩
  | persist other =>
    rw [Request.work, yields_bind]
    apply (h.persist_yields other).mono
    · rintro _ after ⟨hsteady, hadvances, hentities, -⟩
      exact ⟨after, rfl, hsteady, hadvances, fun guid _ =>
        congrArg (SortedMap.get? · guid) hentities⟩
    · rintro _ _ ⟨rfl, -⟩
      exact ⟨_, rfl, h, .refl _ _, fun _ _ => rfl⟩
  | _ => exact hallowed.elim

/-- However long it is written to, a store keeps its complete copies. -/
theorem History.conserves (h : vault.Steady site)
    (hhistory : History registry Writing (opened vault) requests (opened last)) :
    last.Steady site ∧ vault.Conserves site.dataBase last := by
  obtain ⟨after, hlast, hafter⟩ := hhistory.invariant
    (fun session => ∃ after, session = opened after ∧ after.Steady site ∧
      vault.Conserves site.dataBase after) ⟨vault, rfl, h, .refl _ _⟩ (by
    rintro _ request ⟨now, rfl, hnow, hconserves⟩ hallowed
    obtain ⟨after, hafter, hsteady, hadvances, -⟩ := next_writes hnow hallowed
    exact ⟨after, hafter, hsteady, hconserves.trans hadvances.toConserves⟩)
  cases hlast
  exact hafter

/-- An entity awaits its copy until another one is put in its place. -/
private theorem History.pending (h : vault.Steady site)
    (hpending : vault.Pending site.dataBase guid entity)
    (hhistory : History registry (Retaining guid) (opened vault) requests (opened last)) :
    last.Pending site.dataBase guid entity := by
  obtain ⟨after, hlast, -, hafter⟩ := hhistory.invariant
    (fun session => ∃ after, session = opened after ∧ after.Steady site ∧
      after.Pending site.dataBase guid entity)
    ⟨vault, rfl, h, hpending⟩ (by
    rintro _ request ⟨now, rfl, hnow, hawaits⟩ hallowed
    obtain ⟨after, hafter, hsteady, hadvances, hget⟩ := next_writes hnow hallowed.writing
    exact ⟨after, hafter, hsteady, hawaits.advanced hnow.fitting hadvances (hget guid hallowed)⟩)
  cases hlast
  exact hafter

/-! ### A vertex set that is replaced -/

/-- A vertex set is put and persisted, and then another one of its size. -/
private theorem exists_replaced (hfresh : site.Fresh disk) (hdata : settings.dataDir = site.dataDir)
    (hcollision : settings.collision = .overwrite) (guid : Guid) {set other : VertexSet}
    (hset : set.mapping.Nodup) (hother : other.mapping.Nodup) (hsize : other.size = set.size) :
    ∃ first opening answer held path saved answer' replaced path' last,
      Vault.open settings disk = .ok first opening ∧
      Vault.put guid (.vertexSet set) first = .ok answer held ∧
      Vault.persist guid held = .ok path saved ∧
      Vault.put guid (.vertexSet other) saved = .ok answer' replaced ∧
      Vault.persist guid replaced = .ok path' last ∧
      first.hasPersisted guid = false ∧ last.Steady site ∧
      last.Settled site.dataBase guid (.vertexSet set) := by
  obtain ⟨first, opening, hopen, hfirst, hsettings, hnone, hnew⟩ :=
    (hfresh.open_steady hdata).exists_ok
  have hfits : (Entity.vertexSet set).Fits first.registered := hset
  obtain ⟨answer, held, path, saved, hput, hpersist, hputs, hsaved, hadvances, hgot, hall, hcopy⟩ :=
    hfirst.put_persist_new hfits (hnone guid) (hnew guid)
  obtain rfl : answer = .vertexSet set :=
    Entity.sameContent_vertexSet_iff.1 (Entity.sameContent_symm hputs.content)
  have hsettled : saved.Settled site.dataBase guid (.vertexSet set) := 
    ⟨List.not_mem_nil, hall, hcopy, fun _ hr => absurd hr List.not_mem_nil⟩
  have hmay : ∀ old, saved.get? guid = some old →
      Vault.mayReplace saved.settings.collision old (.vertexSet other) := by
    intro old hold
    rw [hgot, hputs.registered, Option.some.injEq] at hold
    subst hold
    have hpolicy : saved.settings.collision = .overwrite := by
      rw [hadvances.settings, hputs.advances.settings, hsettings, hcollision]
    simp [hpolicy, Vault.mayReplace, Entity.kind, Entity.size, hsize]
  have hfitsOther : (Entity.vertexSet other).Fits saved.registered := hother
  obtain ⟨answer', replaced, hreplace, hreplaced, hreplaces, -, -, hget', -⟩ :=
    (hsaved.put_replaces hfitsOther hmay).exists_ok
  have hpersists := hreplaced.persist_yields guid
  rw [hget'] at hpersists
  obtain ⟨path', last, hpersist', hlast, hstays, -⟩ :=
    (hpersists.mono (fun _ _ h => h) fun _ _ hfails => absurd hfails.2 (Option.some_ne_none _)).exists_ok
  exact ⟨first, opening, _, held, path, saved, answer', replaced, path', last, hopen, hput, hpersist,
    hreplace, hpersist', hnew guid, hlast,
    (hsettled.conserved hreplaces.toConserves).conserved hstays.toConserves⟩

/-- The row files are short if the vertex set is. -/
private theorem limited_vertexSet {vault : Vault} {guid : Guid} {b : Address} {set : VertexSet}
    (h : vault.Settled b guid (.vertexSet set))
    (hrows : (Vault.setCopy guid set).rows.length ≤ 2 * 1024 ^ 3) :
    Vault.Limited b vault.disk [guid] := by
  intro x hx stored hholds
  rw [List.mem_singleton] at hx
  subst hx
  refine h.copy.rows_le (fun found hencode => ?_) hholds
  cases hencode
  exact hrows

/-! ### What the next store loads -/

/-- An entity is put into a store over fresh roots that is only written to, and is then persisted
before another entity is successfully put under its guid. If there was a complete copy under the guid
before, it stays as it was. Otherwise, if the copies that there were of its references are of vertex
sets, and the row files are within the limit of reading, a store that is opened over the same roots
loads the content that was put, whatever is written in the meantime. -/
theorem history_first_kept (hfresh : site.Fresh disk) (hdata : settings.dataDir = site.dataDir)
    (hopen : Vault.open settings disk = .ok first opening)
    (hearlier : History registry Writing (opened first) earlier (opened before))
    (hput : Vault.put guid entity before = .ok answer held)
    (hbetween : History registry (Retaining guid) (opened held) between (opened now))
    (hpersist : Vault.persist guid now = .ok path saved)
    (hlater : History registry Writing (opened saved) later (opened last)) :
    (before.hasPersisted guid → last.hasPersisted guid ∧ ∃ stored,
      before.disk.Holds site.dataBase guid stored ∧ last.disk.Holds site.dataBase guid stored) ∧
    (before.hasPersisted guid = false →
      (∀ r ∈ entity.references, ∀ stored, before.disk.Holds site.dataBase r stored →
        stored.manifest.kind = .vertexSet) →
      Vault.Limited site.dataBase last.disk (guid :: entity.references) →
      ∀ settings, settings.dataDir = site.dataDir → ∃ fresh opening found loaded,
        Vault.open settings last.close = .ok fresh opening ∧
        Vault.getOrLoad guid fresh = .ok found loaded ∧ found.sameContent entity) := by
  have hfirst := hfresh.open_steady hdata
  rw [Yields, hopen] at hfirst
  obtain ⟨hbefore, -⟩ := hearlier.conserves hfirst.1
  have hputs := hbefore.put_yields guid entity
  rw [Yields, hput] at hputs
  obtain ⟨hheld, hputAdvances, hdisk, hsame, hanswer, -⟩ := hputs
  obtain ⟨hnow, hkept⟩ := (hbetween.mono fun _ _ h => h.writing).conserves hheld
  have hpersists := hnow.persist_yields guid
  rw [Yields, hpersist] at hpersists
  obtain ⟨hsaved, hadvances, hentities, found, hfound, hall⟩ := hpersists
  obtain ⟨hlast, hstays⟩ := hlater.conserves hsaved
  have hconserves : before.Conserves site.dataBase last :=
    ((hputAdvances.toConserves.trans hkept).trans hadvances.toConserves).trans hstays
  refine ⟨fun hpersisted => ?_, fun hnew hkinds hlimited settings hsettings => ?_⟩
  · obtain ⟨_, hcopy⟩ := hbefore.copies guid hpersisted
    obtain ⟨stored, -, hstored⟩ := hcopy.copy
    exact ⟨hconserves.persisted guid hpersisted, stored, hstored,
      (hconserves.spares guid hpersisted).holds hstored⟩
  have hsettled : saved.Settled site.dataBase guid answer := by
    have hpending := hbetween.pending hheld (hbefore.pending hputAdvances hdisk hanswer hnew
      (Entity.references_eq_of_sameContent hsame ▸ hkinds))
    have hgot : saved.get? guid = now.get? guid := congrArg (SortedMap.get? · guid) hentities
    rw [hpending.registered, Option.some.injEq] at hfound
    exact (hpending.advanced hnow.fitting hadvances hgot).settled hsaved.fitting (hfound ▸ hall)
  obtain ⟨fresh, opening, read, loaded, hreopen, hread, hcontent⟩ :=
    (hsettled.conserved hstays).reopens hlast
      (Entity.references_eq_of_sameContent hsame ▸ hlimited) hsettings
  exact ⟨fresh, opening, read, loaded, hreopen, hread, Entity.sameContent_trans hcontent hsame⟩

private theorem yields_of_ok {α : Type} {work : VaultM α} {vault after : Vault} {a : α}
    (h : work vault = .ok a after) :
    Yields work vault (fun _ last => last = after) fun _ _ => False := by
  rw [Yields, h]

/-- A vertex set is loaded that another one has replaced in memory. -/
theorem history_first_kept_replaced :
    let settings : Settings := ⟨"data", "exchange", .overwrite, false, false⟩
    let guid := Guid.filled 1
    ∃ first opening answer held path saved last,
      Vault.open settings Disk.empty = .ok first opening ∧
      History Registry.builtin Writing (opened first) [] (opened first) ∧
      Vault.put guid (.vertexSet ⟨[1]⟩) first = .ok answer held ∧
      History Registry.builtin (Retaining guid) (opened held) [] (opened held) ∧
      Vault.persist guid held = .ok path saved ∧
      History Registry.builtin Writing (opened saved)
        ([] ++ [.put guid (.vertexSet ⟨[2]⟩)] ++ [.persist guid]) (opened last) ∧
      first.hasPersisted guid = false ∧ Vault.Limited ["data"] last.disk [guid] ∧
      ∃ fresh reopening found loaded, Vault.open settings last.close = .ok fresh reopening ∧
        Vault.getOrLoad guid fresh = .ok found loaded ∧
        found.sameContent (.vertexSet ⟨[1]⟩) := by
  intro settings guid
  have hnodup (id : Int64) : (⟨[id]⟩ : VertexSet).mapping.Nodup := List.nodup_singleton id
  obtain ⟨first, opening, answer, held, path, saved, answer', replaced, path', last, hopen, hput,
      hpersist, hreplace, hpersist', hnew, -, hsettled⟩ :=
    exists_replaced fresh_sample (show settings.dataDir = sampleSite.dataDir from rfl) rfl guid
      (hnodup 1) (hnodup 2) rfl
  have hstart : History Registry.builtin Writing (opened saved) [] (opened saved) := .start
  obtain ⟨_, hreplaced, rfl⟩ := hstart.step_of_yields (.put guid (.vertexSet ⟨[2]⟩)) trivial trivial rfl
    (yields_of_ok hreplace)
  obtain ⟨_, hlater, rfl⟩ := hreplaced.step_of_yields (.persist guid) trivial trivial rfl
    (yields_of_ok hpersist')
  have hlimited := limited_vertexSet hsettled (by decide)
  exact ⟨first, opening, answer, held, path, saved, _, hopen, .start, hput, .start, hpersist, hlater,
    hnew, hlimited, (history_first_kept fresh_sample rfl hopen .start hput .start hpersist hlater).2
      hnew nofun hlimited settings rfl⟩

/-- What is persisted is what was put first, though the store takes what is put later. -/
theorem history_replaced_unsaved :
    let settings : Settings := ⟨"data", "exchange", .overwrite, false, false⟩
    let guid := Guid.filled 1
    ∃ first opening answer held path saved answer' replaced path' last fresh reopening found loaded,
      Vault.open settings Disk.empty = .ok first opening ∧
      Vault.put guid (.vertexSet ⟨[1]⟩) first = .ok answer held ∧
      Vault.persist guid held = .ok path saved ∧
      Vault.put guid (.vertexSet ⟨[2]⟩) saved = .ok answer' replaced ∧
      Vault.persist guid replaced = .ok path' last ∧
      Vault.open settings last.close = .ok fresh reopening ∧
      Vault.getOrLoad guid fresh = .ok found loaded ∧
      found.sameContent (.vertexSet ⟨[2]⟩) = false := by
  intro settings guid
  have hnodup (id : Int64) : (⟨[id]⟩ : VertexSet).mapping.Nodup := List.nodup_singleton id
  obtain ⟨first, opening, answer, held, path, saved, answer', replaced, path', last, hopen, hput,
      hpersist, hreplace, hpersist', -, hlast, hsettled⟩ :=
    exists_replaced fresh_sample (show settings.dataDir = sampleSite.dataDir from rfl) rfl guid
      (hnodup 1) (hnodup 2) rfl
  have hlimited := limited_vertexSet hsettled (by decide)
  obtain ⟨fresh, reopening, found, loaded, hreopen, hload, hsame⟩ :=
    hsettled.reopens hlast hlimited (show settings.dataDir = sampleSite.dataDir from rfl)
  have hfound : found = .vertexSet ⟨[1]⟩ :=
    Entity.sameContent_vertexSet_iff.1 (Entity.sameContent_symm hsame)
  refine ⟨first, opening, answer, held, path, saved, answer', replaced, path', last, fresh, reopening,
    found, loaded, hopen, hput, hpersist, hreplace, hpersist', hreopen, hload, ?_⟩
  rw [hfound]
  decide

/-! ### A reference whose copy is not of a vertex set -/

section Misreferred

variable {a b c : Guid} {set other : VertexSet} {type : ColumnType} {cells cells' : Attribute type.Cell}

/-- A column whose vertex set has a copy as a column is not loaded. -/
private theorem reopens_without_column (h : vault.Steady site)
    (hdata : settings.dataDir = site.dataDir) (hcells' : cells'.vertexSet = b)
    (hcopy : vault.HasCopy site.dataBase b (.column type cells))
    (hcopy' : vault.HasCopy site.dataBase c (.column type cells'))
    (hpersisted : vault.hasPersisted b) (hpersisted' : vault.hasPersisted c)
    (hrows : (Vault.columnCopy b cells).rows.length ≤ 2 * 1024 ^ 3)
    (hrows' : (Vault.columnCopy c cells').rows.length ≤ 2 * 1024 ^ 3) :
    ∃ fresh reopening, Vault.open settings vault.close = .ok fresh reopening ∧
      ∀ found loaded, Vault.getOrLoad c fresh ≠ .ok found loaded := by
  have hreference : ∀ x ∈ (Entity.column type cells').references, x = b := by
    intro x hx
    exact (Entity.mem_references_column.1 hx).trans hcells'
  refine h.reopens_without hcopy' nofun (fun x hx => ?_)
    (fun x hx => ⟨.column type cells, hreference x hx ▸ hcopy, nofun⟩) ?_ hdata
  · rcases List.mem_cons.1 hx with rfl | hx
    · exact hpersisted'
    · exact hreference x hx ▸ hpersisted
  · intro x hx stored hholds
    rcases List.mem_cons.1 hx with rfl | hx
    · exact hcopy'.rows_le (fun found hfound => by cases hfound; exact hrows') hholds
    · obtain rfl := hreference x hx
      exact hcopy.rows_le (fun found hfound => by cases hfound; exact hrows) hholds

/-- A column over a set is persisted, another set takes its place in memory, and a column over that
one is persisted. -/
private theorem exists_misreferred (hfresh : site.Fresh disk) (hdata : settings.dataDir = site.dataDir)
    (hcollision : settings.collision = .overwrite) (hab : b ≠ a) (hac : c ≠ a) (hbc : c ≠ b)
    (hset : set.mapping.Nodup) (hother : other.mapping.Nodup) (hcells : cells.vertexSet = a)
    (haligned : cells.Aligned set.size) (hcells' : cells'.vertexSet = b)
    (haligned' : cells'.Aligned other.size)
    (hrows : (Vault.columnCopy b cells).rows.length ≤ 2 * 1024 ^ 3)
    (hrows' : (Vault.columnCopy c cells').rows.length ≤ 2 * 1024 ^ 3) :
    ∃ first opening found₁ vault₁ found₂ vault₂ path₁ vault₃ found₃ vault₄ found₄ vault₅ path₂ last
        fresh reopening,
      Vault.open settings disk = .ok first opening ∧
      Vault.put a (.vertexSet set) first = .ok found₁ vault₁ ∧
      Vault.put b (.column type cells) vault₁ = .ok found₂ vault₂ ∧
      Vault.persist b vault₂ = .ok path₁ vault₃ ∧
      Vault.put b (.vertexSet other) vault₃ = .ok found₃ vault₄ ∧
      Vault.put c (.column type cells') vault₄ = .ok found₄ vault₅ ∧
      Vault.persist c vault₅ = .ok path₂ last ∧
      Vault.open settings last.close = .ok fresh reopening ∧
      ∀ found loaded, Vault.getOrLoad c fresh ≠ .ok found loaded := by
  obtain ⟨first, opening, hopen, hfirst, hsettings, hnone, hnew⟩ :=
    (hfresh.open_steady hdata).exists_ok
  -- the first set
  have hfits₁ : (Entity.vertexSet set).Fits first.registered := hset
  obtain ⟨found₁, vault₁, hput₁, htakes₁⟩ := (hfirst.put_new hfits₁ (hnone a)).exists_ok
  obtain rfl : found₁ = .vertexSet set :=
    Entity.sameContent_vertexSet_iff.1 (Entity.sameContent_symm htakes₁.content)
  have hnone₁ (x : Guid) (hx : x ≠ a) : vault₁.get? x = none :=
    (htakes₁.others x hx).trans (hnone x)
  have hnew₁ (x : Guid) : vault₁.hasPersisted x = false :=
    htakes₁.advances.not_persisted (hnew x) (hnone x)
  -- the column over it is persisted
  have hfits₂ : (Entity.column type cells).Fits vault₁.registered :=
    ⟨set, Vault.registered_eq_ok_iff.2 (hcells ▸ htakes₁.registered), haligned⟩
  obtain ⟨found₂, vault₂, path₁, vault₃, hput₂, hpersist₁, htakes₂, hsteady₃, hadvances₃, hget₃,
      hall₃, hcopy₃⟩ :=
    htakes₁.steady.put_persist_new hfits₂ (hnone₁ b hab) (hnew₁ b)
  have hnone₂ : vault₂.get? c = none := (htakes₂.others c hbc).trans (hnone₁ c hac)
  have hnew₃ : vault₃.hasPersisted c = false :=
    hadvances₃.not_persisted
      (htakes₂.advances.not_persisted (hnew₁ c) (hnone₁ c hac)) hnone₂
  -- the other set replaces it
  have hmay : ∀ old, vault₃.get? b = some old →
      Vault.mayReplace vault₃.settings.collision old (.vertexSet other) := by
    intro old hold
    obtain ⟨found, rfl, -⟩ :=
      Entity.sameContent_column_iff.1 (Entity.sameContent_symm htakes₂.content)
    rw [hget₃, htakes₂.registered, Option.some.injEq] at hold
    subst hold
    rw [hadvances₃.settings, htakes₂.advances.settings, htakes₁.advances.settings, hsettings,
      hcollision]
    rfl
  have hfits₃ : (Entity.vertexSet other).Fits vault₃.registered := hother
  obtain ⟨found₃, vault₄, hput₃, htakes₄⟩ := (hsteady₃.put_replaces hfits₃ hmay).exists_ok
  obtain rfl : found₃ = .vertexSet other :=
    Entity.sameContent_vertexSet_iff.1 (Entity.sameContent_symm htakes₄.content)
  have hnone₃ : vault₃.get? c = none := (hget₃ c).trans hnone₂
  -- the column over the other set is persisted
  have hfits₄ : (Entity.column type cells').Fits vault₄.registered :=
    ⟨other, Vault.registered_eq_ok_iff.2 (hcells' ▸ htakes₄.registered), haligned'⟩
  obtain ⟨found₄, vault₅, path₂, last, hput₄, hpersist₂, htakes₅, hlast, hadvances₆, -, hall,
      hcopy⟩ :=
    htakes₄.steady.put_persist_new hfits₄ ((htakes₄.others c hbc).trans hnone₃)
      (htakes₄.advances.not_persisted hnew₃ hnone₃)
  have hstays : vault₃.Conserves site.dataBase last :=
    (htakes₄.advances.toConserves.trans htakes₅.advances.toConserves).trans hadvances₆.toConserves
  have hpersisted := hall₃ b List.mem_cons_self
  obtain ⟨fresh, reopening, hreopen, hnever⟩ := reopens_without_column hlast hdata hcells'
    ((hstays.hasCopy hpersisted hcopy₃).of_sameContent htakes₂.content)
    (hcopy.of_sameContent htakes₅.content) (hstays.persisted b hpersisted)
    (hall c List.mem_cons_self) hrows hrows'
  exact ⟨first, opening, _, vault₁, found₂, vault₂, path₁, vault₃, _, vault₄, found₄, vault₅, path₂,
    last, fresh, reopening, hopen, hput₁, hput₂, hpersist₁, hput₃, hput₄, hpersist₂, hreopen, hnever⟩

/-- A column is persisted over a vertex set that has taken the place of a persisted column, and the
next store cannot load it. -/
theorem history_misreferred_unloadable :
    let settings : Settings := ⟨"data", "exchange", .overwrite, false, false⟩
    let column (set : Guid) : Entity := .column .double ⟨[Double.zero], [true], set⟩
    ∃ first opening found₁ vault₁ found₂ vault₂ path₁ vault₃ found₃ vault₄ found₄ vault₅ path₂ last
        fresh reopening,
      Vault.open settings Disk.empty = .ok first opening ∧
      Vault.put (Guid.filled 1) (.vertexSet ⟨[7]⟩) first = .ok found₁ vault₁ ∧
      Vault.put (Guid.filled 2) (column (Guid.filled 1)) vault₁ = .ok found₂ vault₂ ∧
      Vault.persist (Guid.filled 2) vault₂ = .ok path₁ vault₃ ∧
      Vault.put (Guid.filled 2) (.vertexSet ⟨[5]⟩) vault₃ = .ok found₃ vault₄ ∧
      Vault.put (Guid.filled 3) (column (Guid.filled 2)) vault₄ = .ok found₄ vault₅ ∧
      Vault.persist (Guid.filled 3) vault₅ = .ok path₂ last ∧
      Vault.open settings last.close = .ok fresh reopening ∧
      ∀ found loaded, Vault.getOrLoad (Guid.filled 3) fresh ≠ .ok found loaded := by
  intro settings column
  let cells (set : Guid) : Attribute ColumnType.double.Cell := ⟨[Double.zero], [true], set⟩
  have hset : (⟨[7]⟩ : VertexSet).mapping.Nodup := List.nodup_singleton 7
  have hother : (⟨[5]⟩ : VertexSet).mapping.Nodup := List.nodup_singleton 5
  have hcells (set : Guid) : (cells set).Aligned 1 := ⟨rfl, rfl⟩
  exact exists_misreferred fresh_sample (show settings.dataDir = sampleSite.dataDir from rfl) rfl
    (by decide) (by decide) (by decide) hset hother rfl (hcells (Guid.filled 1)) rfl
    (hcells (Guid.filled 2)) (by decide) (by decide)

end Misreferred

end Session

end GraphVault
