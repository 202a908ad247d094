import GraphVault.Executor

/-!
# Sessions

What happens to a store and its disk over time: a store is opened, asked for one thing after the
other, closed and opened again. A request that fails leaves what was done before its failure.
-/

namespace GraphVault

/-- One request to a store, or the opening or closing of one. -/
inductive Request where
  | «open» (settings : Settings)
  | close
  | put (guid : Guid) (entity : Entity)
  | get (guid : Guid)
  | remove (guid : Guid)
  | purge (guid : Guid)
  | persist (guid : Guid)
  | load (guid : Guid)
  | getOrLoad (guid : Guid)
  | exportUnordered (guid : Guid)
  | importUnordered (guid : Guid)
  | execute (i : Instance)
  | run (dag : Dag)

/-- A store that is open, or the disk that is there while none is. -/
inductive Session where
  | opened (vault : Vault)
  | closed (disk : Disk)

/-- What an open store does upon a request; it answers nothing to being looked into. -/
def Request.work (registry : Registry) : Request → VaultM Unit
  | .open _ | .close | .get _ => pure ()
  | .put guid entity => do let _ ← Vault.put guid entity
  | .remove guid => do let _ ← Vault.remove guid
  | .purge guid => do let _ ← Vault.purge guid
  | .persist guid => do let _ ← Vault.persist guid
  | .load guid => do let _ ← Vault.load guid
  | .getOrLoad guid => do let _ ← Vault.getOrLoad guid
  | .exportUnordered guid => do let _ ← Vault.exportUnordered guid
  | .importUnordered guid => do let _ ← Vault.importUnordered guid
  | .execute i => do let _ ← Executor.execute registry i
  | .run dag => do let _ ← Executor.run registry dag

namespace Session

/-- The disk that is there once no store is open. -/
def disk : Session → Disk
  | opened vault => vault.close
  | closed disk => disk

/-- Opens a store, after closing the one that is open. -/
def reopen (session : Session) (settings : Settings) : Except Failure Unit × Session :=
  match Vault.open settings session.disk with
  | .ok vault _ => (.ok (), opened vault)
  | .error failure disk => (.error failure, closed disk)

/-- Answers a request. Only the opening of a store does something while none is open. -/
def next (registry : Registry) (session : Session) (request : Request) :
    Except Failure Unit × Session :=
  match request, session with
  | .open settings, _ => session.reopen settings
  | .close, _ => (.ok (), closed session.disk)
  | _, closed disk => (.ok (), closed disk)
  | request, opened vault =>
    match request.work registry vault with
    | .ok _ vault => (.ok (), opened vault)
    | .error failure vault => (.error failure, opened vault)

/-- The requests that lead from a session to another, each of them allowed where it is made. -/
inductive History (registry : Registry) (allowed : Session → Request → Prop) (start : Session) :
    List Request → Session → Prop where
  | start : History registry allowed start [] start
  | step {requests : List Request} {session : Session} {request : Request}
      (before : History registry allowed start requests session) (h : allowed session request) :
      History registry allowed start (requests ++ [request]) (session.next registry request).2

end Session

end GraphVault
