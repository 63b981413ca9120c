import Slurm.Lib.FirstMatch

/-!
# Cluster licenses (`slurmctld/licenses.c`)

`Cluster` is the state under the license lock: `cluster_license_list`, which may be
`NULL`, and the counter `next_lic_id`.  Entries come from two sources.  `Config` is the
list that `_build_license_list` and `_parse_hierarchical_resources` make of the
configuration; its entries get their ids from `_set_license_ids`.  `ResRec` is a
resource record of the database; `_add_res_rec_2_lic_list` makes a remote entry of it
and takes the next id itself.

Counters and ids have the widths of the source.
-/

namespace Slurm

/-- `NO_VAL16` -/
def noVal16 : UInt16 := 0xfffe

/-- `INFINITE` -/
def infinite : UInt32 := 0xffffffff

namespace Licenses

open Lib.FirstMatch (modifyFirst)

/-! ## Records -/

/-- `remote`: 0, 1, or 2 for an entry that the running synchronisation has seen. -/
inductive Remote where
  | no
  | yes
  | synced
  deriving DecidableEq

/-- `licenses_t` -/
structure License where
  licId : UInt16
  hresId : UInt16
  name : String
  opOr : Bool
  total : UInt32
  used : UInt32
  remote : Remote
  lastDeficit : UInt32
  lastConsumed : UInt32
  lastUpdate : Int
  nodes : Option String
  mode : UInt8
  deriving DecidableEq

/-- An entry of the configuration. -/
structure ConfEntry where
  name : String
  nodes : Option String
  opOr : Bool
  total : UInt32
  mode : UInt8
  deriving DecidableEq

/-- The entries of the configuration, or no list. -/
abbrev Config := Option (List ConfEntry)

/-- What `_build_license_list` and the parser of `resources.yaml` fill in. -/
def ConfEntry.license (c : ConfEntry) : License where
  licId := noVal16
  hresId := noVal16
  name := c.name
  opOr := c.opOr
  total := c.total
  used := 0
  remote := .no
  lastDeficit := 0
  lastConsumed := 0
  lastUpdate := 0
  nodes := c.nodes
  mode := c.mode

/-- `slurmdb_res_rec_t`, with `allowed` of its cluster record. -/
structure ResRec where
  name : String
  server : String
  isLicense : Bool
  absolute : Bool
  count : UInt32
  allowed : UInt32
  lastConsumed : UInt32
  lastUpdate : Int
  deriving DecidableEq

/-- `"%s@%s"` -/
def ResRec.licenseName (rec : ResRec) : String := rec.name ++ "@" ++ rec.server

/-- The state under `license_mutex`. -/
structure Cluster where
  licenses : Option (List License)
  nextLicId : UInt16
  deriving DecidableEq

/-! ## Finding entries -/

/-- `_license_find_rec_by_nodes` -/
def sameRec (target : License) (e : License) : Bool :=
  decide (e.name = target.name ∧ e.nodes = target.nodes)

/-- `_license_find_remote_rec` -/
def isRemoteRec (name : String) (e : License) : Bool :=
  decide (e.remote ≠ .no ∧ e.name = name)

/-! ## Ids -/

/-- `_foreach_license_set_id`, over the list.  The callback returns 1 at the latest id,
which `list_for_each` does not take for a failure. -/
def setIds : List License → UInt16 → List License × UInt16
  | [], next => ([], next)
  | e :: es, next =>
    if e.licId = noVal16 then
      let rest := setIds es (next + 1)
      ({ e with licId := next } :: rest.1, rest.2)
    else
      let rest := setIds es next
      (e :: rest.1, rest.2)

/-- `_set_license_ids` -/
def setLicenseIds (s : Cluster) : Cluster :=
  match s.licenses with
  | none => s
  | some l => { licenses := some (setIds l s.nextLicId).1, nextLicId := (setIds l s.nextLicId).2 }

/-! ## Configuration -/

/-- `license_init` -/
def licenseInit (conf : Config) : Cluster :=
  setLicenseIds { licenses := conf.map (List.map ConfEntry.license), nextLicId := 0 }

/-- What `license_update` does with an entry of the old list: a remote one moves to the
new list, and of any other one the ids are copied to the new entry of its name and
nodes. -/
def updateEntry (newList : Option (List License)) (e : License) : Option (List License) :=
  if e.remote ≠ .no then some (newList.getD [] ++ [{ e with used := 0 }])
  else newList.map
    (modifyFirst (sameRec e) fun m => { m with licId := e.licId, hresId := e.hresId })

/-- The new list of `license_update`, before ids are set. -/
def updateList (conf : Config) (old : List License) : Option (List License) :=
  old.foldl updateEntry (conf.map (List.map ConfEntry.license))

/-- `license_update` -/
def licenseUpdate (s : Cluster) (conf : Config) : Cluster :=
  match s.licenses with
  | none => { s with licenses := conf.map (List.map ConfEntry.license) }
  | some old => setLicenseIds { s with licenses := updateList conf old }

/-! ## Remote licenses -/

/-- `_handle_consumed` -/
def handleConsumed (e : License) (rec : ResRec) : License :=
  let total := if rec.absolute then rec.allowed else rec.count * rec.allowed / 100
  let external := if total > rec.count then 0 else rec.count - total
  { e with
    total := total
    lastConsumed := rec.lastConsumed
    lastDeficit :=
      if rec.lastConsumed ≤ external + e.used then 0 else rec.lastConsumed - external - e.used
    lastUpdate := rec.lastUpdate }

/-- The entry of `_add_res_rec_2_lic_list`, which is all zero but for what is set. -/
def newRemote (licId : UInt16) (rec : ResRec) (sync : Bool) : License :=
  handleConsumed
    { licId := licId
      hresId := 0
      name := rec.licenseName
      opOr := false
      total := 0
      used := 0
      remote := if sync then .synced else .yes
      lastDeficit := 0
      lastConsumed := 0
      lastUpdate := 0
      nodes := none
      mode := 0 } rec

/-- `_add_res_rec_2_lic_list` -/
def addResRec (l : List License) (next : UInt16) (rec : ResRec) (sync : Bool) : Cluster where
  licenses := some (l ++ [newRemote next rec sync])
  nextLicId := next + 1

/-- The list, made when there was none. -/
def Cluster.list (s : Cluster) : List License := s.licenses.getD []

/-- `license_add_remote` -/
def licenseAddRemote (s : Cluster) (rec : ResRec) : Cluster :=
  if s.list.any (isRemoteRec rec.licenseName) then { s with licenses := some s.list }
  else addResRec s.list s.nextLicId rec false

/-- `license_update_remote` -/
def licenseUpdateRemote (s : Cluster) (rec : ResRec) : Cluster :=
  if s.list.any (isRemoteRec rec.licenseName) then
    { s with
      licenses := some (modifyFirst (isRemoteRec rec.licenseName)
        (fun e => handleConsumed e rec) s.list) }
  else addResRec s.list s.nextLicId rec false

/-- `license_remove_remote` -/
def licenseRemoveRemote (s : Cluster) (rec : ResRec) : Cluster :=
  { s with licenses := some (s.list.eraseP (isRemoteRec rec.licenseName)) }

/-- What `license_sync_remote` does with a record. -/
def syncRec (s : Cluster) (rec : ResRec) : Cluster :=
  if rec.isLicense then
    if s.list.any (isRemoteRec rec.licenseName) then
      { s with
        licenses := some (modifyFirst (isRemoteRec rec.licenseName)
          (fun e => handleConsumed { e with remote := .synced } rec) s.list) }
    else addResRec s.list s.nextLicId rec true
  else s

/-- The last loop of `license_sync_remote`: remote entries that were not in the records
are removed. -/
def syncSweep : List License → List License
  | [] => []
  | e :: es =>
    match e.remote with
    | .no => e :: syncSweep es
    | .yes => syncSweep es
    | .synced => { e with remote := .yes } :: syncSweep es

/-- `license_sync_remote`.  Without records a list is needed. -/
def licenseSyncRemote (s : Cluster) (recs : Option (List ResRec)) : Option Cluster :=
  match recs, s.licenses with
  | none, none => none
  | none, some l => some { s with licenses := some (syncSweep l) }
  | some recs, _ =>
    let synced := recs.foldl syncRec { s with licenses := some s.list }
    some { synced with licenses := some (syncSweep synced.list) }

/-! ## Commands -/

/-- The calls that change the list after `license_init`. -/
inductive Cmd where
  | update (conf : Config)
  | addRemote (rec : ResRec)
  | updateRemote (rec : ResRec)
  | removeRemote (rec : ResRec)
  | syncRemote (recs : Option (List ResRec))

/-- One call. -/
def exec (s : Cluster) : Cmd → Option Cluster
  | .update conf => some (licenseUpdate s conf)
  | .addRemote rec => some (licenseAddRemote s rec)
  | .updateRemote rec => some (licenseUpdateRemote s rec)
  | .removeRemote rec => some (licenseRemoveRemote s rec)
  | .syncRemote recs => licenseSyncRemote s recs

end Licenses

end Slurm

/-!
## Licenses of jobs (`slurmctld/licenses.c`)

A job asks for licenses by a list of entries, all of them or one of them.  `Request` is
such a list as `_build_license_list` and `license_validate` make it, of licenses that
are not hierarchical; the branches for hierarchical resources are left out.
`licenseJobTest`, `licenseJobGet` and `licenseJobReturn` are the calls under the license
lock.  The first two ask `job_test_lic_resv` how many licenses are reserved for others;
its answers, by license id, are a parameter of the call.

`State` adds to the cluster list the jobs that hold licenses, with the entries of their
lists at that time.
-/

namespace Slurm.Licenses

open Lib.FirstMatch (modifyFirst)

/-- A list of licenses that a job asks for. -/
structure Request where
  entries : List License
  /-- One of them is enough. -/
  opOr : Bool
  same_op : ∀ e ∈ entries, e.opOr = opOr
  ids_nodup : (entries.map License.licId).Nodup
  plain : ∀ e ∈ entries, e.hresId = noVal16 ∧ e.mode = 0

/-- Return codes. -/
inductive Rc where
  | success
  | again
  | error
  deriving DecidableEq

/-- What `job_test_lic_resv` answers during a call. -/
abbrev Reserved := UInt16 → UInt32

/-- `_license_find_rec_by_id` -/
def isRec (id : UInt16) (e : License) : Bool := decide (e.licId = id)

/-- The first entry of an id. -/
def findById (l : List License) (id : UInt16) : Option License := l.find? (isRec id)

/-- `_sufficient_licenses` -/
def sufficientLicenses (request m : License) (resv : UInt32) : Bool :=
  if m.total = infinite then true
  else decide (request.total + m.used + m.lastDeficit + resv ≤ m.total)

/-! ## Test -/

/-- `_foreach_license_job_test`, over the list of the job. -/
def jobTestLoop (cluster : List License) (resv : Reserved) : List License → Rc → Rc
  | [], rc => rc
  | e :: es, rc =>
    match findById cluster e.licId with
    | none => .error
    | some m =>
      if e.total > m.total then .error
      else if sufficientLicenses e m 0 = false then jobTestLoop cluster resv es .again
      else if sufficientLicenses e m (resv e.licId) = false then jobTestLoop cluster resv es .again
      else if e.opOr then .success
      else jobTestLoop cluster resv es rc

/-- `license_job_test` -/
def licenseJobTest (cluster : List License) (resv : Reserved) (req : Request) : Rc :=
  jobTestLoop cluster resv req.entries .success

/-! ## Get -/

/-- `match->used += license_entry->total` -/
def charge (cluster : List License) (e : License) : List License :=
  modifyFirst (isRec e.licId) (fun m => { m with used := m.used + e.total }) cluster

/-- What the loop of `license_job_get` leaves: the cluster list, the list of the job, the
return code, `lic_or`, and the entry that the loop was left at. -/
structure GetLoop where
  cluster : List License
  entries : List License
  rc : Rc
  licOr : Bool
  licenseEntry : Option License

/-- The loop of `license_job_get`. -/
def jobGetLoop (resv : Reserved) : List License → List License → Rc → Bool → GetLoop
  | cluster, [], rc, licOr =>
    { cluster := cluster, entries := [], rc := rc, licOr := licOr, licenseEntry := none }
  | cluster, e :: es, rc, _ =>
    match findById cluster e.licId with
    | some m =>
      if e.opOr && !sufficientLicenses e m (resv m.licId) then
        -- Not enough of this license.
        let rest := jobGetLoop resv cluster es rc e.opOr
        { rest with entries := e :: rest.entries }
      else
        let charged := { e with used := e.used + e.total }
        if e.opOr then
          { cluster := charge cluster e
            entries := charged :: es
            rc := rc
            licOr := e.opOr
            licenseEntry := some charged }
        else
          let rest := jobGetLoop resv (charge cluster e) es rc e.opOr
          { rest with entries := charged :: rest.entries }
    | none =>
      let rest := jobGetLoop resv cluster es .error e.opOr
      { rest with entries := e :: rest.entries }

/-- The result of `license_job_get`. -/
structure GetResult where
  cluster : List License
  entries : List License
  rc : Rc

/-- `_set_licenses_alloc`: of alternatives only the one that was allocated stays. -/
def setLicensesAlloc (l : GetLoop) : GetResult :=
  if l.licOr then
    match l.licenseEntry with
    | none => { cluster := l.cluster, entries := l.entries, rc := .error }
    | some e =>
      { cluster := l.cluster, entries := l.entries.filter (isRec e.licId), rc := .success }
  else { cluster := l.cluster, entries := l.entries, rc := .success }

/-- `license_job_get`, of a new allocation. -/
def licenseJobGet (cluster : List License) (resv : Reserved) (req : Request) : GetResult :=
  let l := jobGetLoop resv cluster req.entries .success false
  if l.rc = .success then setLicensesAlloc l
  else { cluster := l.cluster, entries := l.entries, rc := l.rc }

/-! ## Return -/

/-- The used licenses of an entry, less those of a job.  An underflow is an error, and
leaves none used. -/
def discharge (e m : License) : License :=
  { m with used := if e.total ≤ m.used then m.used - e.total else 0 }

/-- `_foreach_license_job_return`, over the list of the job.  The second result is
whether the used licenses of an entry were fewer than those returned. -/
def jobReturnLoop : List License → List License → List License × Bool
  | cluster, [] => (cluster, false)
  | cluster, e :: es =>
    let rest := jobReturnLoop (modifyFirst (isRec e.licId) (discharge e) cluster) es
    match findById cluster e.licId with
    | some m => (rest.1, decide (m.used < e.total) || rest.2)
    | none => rest

/-- `license_job_return` -/
def licenseJobReturn (cluster entries : List License) : List License × Bool :=
  jobReturnLoop cluster entries

/-! ## Runs -/

/-- The cluster list and the jobs that hold licenses. -/
structure State where
  cluster : List License
  holders : List (Nat × List License)

/-- A call for a job.  A `get` comes with what is reserved for others during the test
and during the call itself. -/
inductive JobCmd where
  | get (job : Nat) (req : Request) (tested got : Reserved)
  | ret (job : Nat)

/-- The entries that a job holds. -/
def State.held (s : State) (job : Nat) : Option (List License) :=
  (s.holders.find? fun h => decide (h.1 = job)).map Prod.snd

/-- One call: `license_job_get` right after `license_job_test` succeeded, of a job that
holds nothing, or `license_job_return` of a job that holds licenses. -/
def execJob (s : State) : JobCmd → Option State
  | .get job req tested got =>
    if s.held job = none ∧ licenseJobTest s.cluster tested req = .success then
      let r := licenseJobGet s.cluster got req
      if r.rc = .success then
        some { cluster := r.cluster, holders := (job, r.entries) :: s.holders }
      else some { s with cluster := r.cluster }
    else none
  | .ret job =>
    (s.held job).map fun entries =>
      { cluster := (licenseJobReturn s.cluster entries).1
        holders := s.holders.eraseP fun h => decide (h.1 = job) }

end Slurm.Licenses
