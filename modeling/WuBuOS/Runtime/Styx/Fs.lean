import WuBuOS.Runtime.Cap.Object
import WuBuOS.Runtime.Styx.Paths
import WuBuOS.Runtime.Styx.Serve

/-!
# StyxFS

`runtime/styxfs_callbacks.c`, and `styxfs_init` of `runtime/styxfs_vfs.c`: the functions that the file
system installs.  A fid has a path, in memory of its own that its `file_state` points to, and whatever is
done with the fid is done with what this path is on the host; and it has a capability, which an open is
checked against.

The host is a function that answers calls, and every call is logged, with whether the host has done it.
Memory comes from where the capabilities' comes from; what is read where a path has been freed is `junk`.
`styxfs_init` does not install `styxfs_create_cb`, but a server may.
-/

namespace WuBuOS.Styx

open Bytes Cap
open Function (update)

/-! ## The host -/

/-- A call of the host. -/
inductive HostCall
  | stat (path : CStr)
  | opendir (path : CStr)
  | openRead (path : CStr)
  | pread (path : CStr) (offset count : Nat)
  | openWrite (path : CStr) (append : Bool)
  | pwrite (path : CStr) (offset : Nat) (data : List UInt8)
  | openCreate (path : CStr) (mode : Nat)
  | mkdir (path : CStr)
  | unlink (path : CStr)
  | rmdir (path : CStr)
  | chmod (path : CStr) (mode : Nat)
  | utimensat (path : CStr) (atime mtime : Nat)
  | time
  deriving DecidableEq, Repr

/-- What the host answers: `errno` if it fails, and otherwise what is of interest. -/
structure HostReply where
  ok : Bool
  errno : Nat
  isDir : Bool
  mode : Nat
  size : Nat
  entries : List (CStr × Bool)
  data : List UInt8
  count : Nat

/-- A host, with a state of its own. -/
abbrev Host (H : Type) := HostCall → H → HostReply × H

/-- `styxfs_server_t` without its server, and what it works on. -/
structure FsWorld (H : Type) where
  mounts : List Mount
  nextQidPath : Nat
  readonly : Bool
  fidCaps : Nat → Token
  capSessionPid : Int
  capEnforce : Bool
  reg : Registry
  heap : Nat → Option CStr
  brk : Nat
  junk : CStr
  errno : Nat
  host : H
  log : List (HostCall × Bool)

/-- A server of the file system. -/
abbrev FsServer (H : Type) := Server (FsWorld H)

variable {H : Type}

/-- The file system changes, and not the server. -/
def onWorld (f : FsWorld H → FsWorld H) (srv : FsServer H) : FsServer H := { srv with world := f srv.world }

/-- `errno` is set. -/
def setErrno (e : Nat) (srv : FsServer H) : FsServer H := onWorld (fun w => { w with errno := e }) srv

/-- The host is called. -/
def hostCall (host : Host H) (call : HostCall) (srv : FsServer H) : HostReply × FsServer H :=
  let r := host call srv.world.host
  (r.1, onWorld (fun w =>
    { w with
      host := r.2
      log := (call, r.1.ok) :: w.log
      errno := if r.1.ok then w.errno else r.1.errno }) srv)

/-! ## Paths of fids -/

/-- `malloc`, and the string is copied there; the null pointer if there is no memory.  The number stands for the
allocation, so that no two are the same, though their bytes may be. -/
def strdup (s : CStr) (srv : FsServer H) : Nat × FsServer H :=
  match malloc srv.world.reg with
  | (false, reg) => (0, onWorld (fun w => { w with reg := reg }) srv)
  | (true, reg) =>
    (srv.world.brk, onWorld (fun w =>
      { w with reg := reg, heap := update w.heap w.brk (some s), brk := w.brk + 1 }) srv)

def fidPath (w : FsWorld H) (f : Fid) : CStr :=
  if f.fileState = 0 then root else (w.heap f.fileState).getD w.junk

/-- `free`.  What the code does when a path is given back twice is not modelled. -/
def freePath (p : Nat) (srv : FsServer H) : FsServer H :=
  onWorld (fun w => { w with heap := update w.heap p none }) srv

def fidFreePath (i : Nat) (srv : FsServer H) : FsServer H :=
  if (srv.fids i).fileState = 0 then srv
  else setFid (freePath (srv.fids i).fileState srv) i { srv.fids i with fileState := 0 }

/-- What the path of a fid is on the host. -/
def fidHost (srv : FsServer H) (i : Nat) : CStr :=
  pathToHost srv.world.mounts (fidPath srv.world (srv.fids i))

/-! ## Capabilities of fids -/

/-- `WUBU_CAP_KIND_STYX_NODE`. -/
def kindStyxNode : Nat := 12

/-- The rights that a fid gets. -/
def nodeRights : UInt64 := rightRead ||| rightWrite ||| rightExec

/-- The audience of a fid's capability: the session, and nobody else. -/
def sessionAudience (pid : Int) : List Int := pid :: List.replicate (audienceMax - 1) pidNone

/-- `styxfs_cap_rights_for_mode`. -/
def capRightsForMode (mode : Nat) : UInt64 :=
  let r :=
    match mode % 4 with
    | 0 => rightRead
    | 1 => rightWrite
    | 2 => rightRead ||| rightWrite
    | _ => rightExec
  if mode / 16 % 2 = 1 then r ||| rightWrite else r

/-- A fid's capability is kept. -/
def setCap (fid : Nat) (tok : Token) (srv : FsServer H) : FsServer H :=
  onWorld (fun w => { w with fidCaps := update w.fidCaps (fid % maxFids) tok }) srv

/-- `styxfs_cap_grant`. -/
def capGrant (fid : Nat) (srv : FsServer H) : FsServer H :=
  let pid := if srv.world.capSessionPid = 0 then 9001 else srv.world.capSessionPid
  match wubuCapCreate kindStyxNode nodeRights (some (sessionAudience pid)) 0 fid pid idxNone
      (wubuCapInit srv.world.reg) with
  | (.error _, reg) => onWorld (fun w => { w with capSessionPid := pid, reg := reg }) srv
  | (.ok (_, tok), reg) =>
    setCap fid tok (onWorld (fun w => { w with capSessionPid := pid, reg := reg, capEnforce := true }) srv)

/-- `styxfs_cap_check_open`. -/
def capCheckOpen (fid mode : Nat) (w : FsWorld H) : Bool :=
  if !w.capEnforce then true
  else
    let tok := w.fidCaps (fid % maxFids)
    !tok.isNull && (wubuCapResolve w.capSessionPid tok (capRightsForMode mode) w.reg).isSome

/-- `styxfs_cap_revoke_fid`. -/
def capRevokeFid (fid : Nat) (srv : FsServer H) : FsServer H :=
  let tok := srv.world.fidCaps (fid % maxFids)
  if tok.isNull then srv
  else setCap fid tokenNull (onWorld (fun w => { w with reg := (wubuCapRevoke tok w.reg).2 }) srv)

/-- The capability of a fid is derived for another. -/
def capDeriveFid (fid newfid : Nat) (srv : FsServer H) : FsServer H :=
  let parent := srv.world.fidCaps (fid % maxFids)
  if parent.isNull then capGrant newfid srv
  else
    match wubuCapDerive parent srv.world.capSessionPid nodeRights
        (some (sessionAudience srv.world.capSessionPid)) 0 srv.world.reg with
    | (.error _, reg) => capGrant newfid (onWorld (fun w => { w with reg := reg }) srv)
    | (.ok (_, child), reg) => setCap newfid child (onWorld (fun w => { w with reg := reg }) srv)

def styxfsCapCloneCb (fid newfid : Nat) (srv : FsServer H) : FsServer H :=
  if srv.world.capEnforce then capDeriveFid fid newfid srv else srv

/-! ## Attaching and walking -/

/-- The path of an attach: slashes at its end are taken off, but for one at the beginning. -/
def trimSlashes (path : CStr) : CStr :=
  match path with
  | [] => []
  | c :: rest => c :: (rest.reverse.dropWhile (· == slash)).reverse

/-- The name of an attach: the root, if none is given. -/
def attachName (aname : CStr) : CStr := if aname = [] then root else aname

def styxfsAttachCb (fid : Nat) (aname : CStr) (srv : FsServer H) : Bool × FsServer H :=
  if (attachName aname).head? ≠ some slash then (false, setErrno 22 srv)
  else
    match fidAlloc srv fid with
    | none => (false, srv)
    | some (i, srv) =>
      let path := trimSlashes (attachName aname)
      match strdup path srv with
      | (0, srv) => (false, fidFree srv fid)
      | (p, srv) =>
        let qid : Qid := ⟨0x80, 1, 1 + (path.getLastD 0).toNat⟩
        (true, capGrant fid (setFid srv i { srv.fids i with qid := qid, fileState := p }))

/-- A component of a walk is there: it is the root, or mounted, or a file of the host. -/
def reachable (host : Host H) (next : CStr) (srv : FsServer H) : Bool × FsServer H :=
  if next = root ∨ pathIsMounted srv.world.mounts next = true then (true, srv)
  else
    match hostCall host (.stat (pathToHost srv.world.mounts next)) srv with
    | (st, srv) => (st.ok, srv)

/-- It is a directory: something is mounted at it, or it is one on the host. -/
def isDirectory (host : Host H) (next : CStr) (srv : FsServer H) : Bool × FsServer H :=
  if srv.world.mounts.any (·.path == next) then (true, srv)
  else
    match hostCall host (.stat (pathToHost srv.world.mounts next)) srv with
    | (st, srv) => (st.ok && st.isDir, srv)

/-- `++srv->next_qid_path`. -/
def nextQidPath (srv : FsServer H) : Nat × FsServer H :=
  let path := (srv.world.nextQidPath + 1) % 2 ^ 64
  (path, onWorld (fun w => { w with nextQidPath := path }) srv)

/-- The loop of `styxfs_walk_cb`: where it has come to, and the qids. -/
def walkLoop (host : Host H) : List CStr → CStr → FsServer H → (CStr × List Qid) × FsServer H
  | [], cur, srv => ((cur, []), srv)
  | name :: names, cur, srv =>
    let next := buildPath cur name
    match reachable host next srv with
    | (false, srv) => ((cur, []), srv)
    | (true, srv) =>
      match isDirectory host next srv with
      | (dir, srv) =>
        match nextQidPath srv with
        | (path, srv) =>
          match walkLoop host names next srv with
          | ((cur, qids), srv) => ((cur, ⟨if dir then 0x80 else 0, 1, path⟩ :: qids), srv)

/-- The new fid of a walk: it has come to a path, and has a capability if there are any. -/
def walkTo (fid newfid j : Nat) (qid : Qid) (cur : CStr) (srv : FsServer H) : FsServer H :=
  match strdup cur srv with
  | (p, srv) =>
    let srv := setFid srv j { srv.fids j with qid := qid, fileState := p }
    if srv.world.capEnforce then capDeriveFid fid newfid srv else srv

def styxfsWalkCb (host : Host H) (fid newfid : Nat) (wname : List CStr) (srv : FsServer H) :
    (Bool × List Qid) × FsServer H :=
  match fidLookup srv fid with
  | none => ((false, []), srv)
  | some i =>
    match walkLoop host (wname.take 16) (snprintf (fidPath srv.world (srv.fids i))) srv with
    | ((_, []), srv) => ((true, []), srv)
    | ((cur, q :: qids), srv) =>
      match fidAlloc srv newfid with
      | none => ((false, []), srv)
      | some (j, srv) => ((true, q :: qids), walkTo fid newfid j ((q :: qids).getLastD q) cur srv)

def styxfsOpenCb (fid mode : Nat) (srv : FsServer H) : Except Nat Qid × FsServer H :=
  if !capCheckOpen fid mode srv.world then (.error 13, setErrno 13 srv)
  else
    match fidLookup srv fid with
    | none => (.error srv.world.errno, srv)
    | some i =>
      (.ok (srv.fids i).qid, setFid srv i { srv.fids i with openMode := mode, offset := 0 })

/-! ## Files -/

/-- A directory is asked for, by `DMDIR`. -/
def wantsDir (perm : Nat) : Bool := perm / 0x80000000 % 2 == 1

/-- The call that creates a file or a directory on the host. -/
def creating (path : CStr) (perm : Nat) : HostCall :=
  if wantsDir perm then .mkdir path else .openCreate path (if perm % 512 ≠ 0 then perm % 512 else 420)

/-- What `styxfs_create_cb` does on the host: an `errno`, if it is not possible. -/
def createHost (host : Host H) (path : CStr) (perm mode : Nat) (srv : FsServer H) :
    Option Nat × FsServer H :=
  match hostCall host (.stat path) srv with
  | (st, srv) =>
    if st.ok then
      if perm / 0x20000000 % 2 = 1 ∨ mode / 4096 % 2 = 1 then (some 17, setErrno 17 srv)
      else if wantsDir perm && !st.isDir then (some 20, setErrno 20 srv)
      else if !wantsDir perm && st.isDir then (some 21, setErrno 21 srv)
      else (none, srv)
    else
      match hostCall host (creating path perm) srv with
      | (r, srv) => (if r.ok then none else some srv.world.errno, srv)

/-- What is at a name in a directory of the host. -/
def childHost (srv : FsServer H) (i : Nat) (name : CStr) : CStr := snprintf (fidHost srv i ++ slash :: name)

/-- The path of a name in a directory of the name space. -/
def childPath (parent name : CStr) : CStr :=
  snprintf (parent ++ (if parent.getLast? = some slash then [] else root) ++ name)

def styxfsCreateCb (host : Host H) (fid : Nat) (name : CStr) (perm mode : Nat) (srv : FsServer H) :
    Except Nat Qid × FsServer H :=
  if srv.world.readonly then (.error 13, setErrno 13 srv)
  else if name = [] then (.error 22, setErrno 22 srv)
  else
    match fidLookup srv fid with
    | none => (.error srv.world.errno, srv)
    | some i =>
      let path := childPath (fidPath srv.world (srv.fids i)) name
      match createHost host (childHost srv i name) perm mode srv with
      | (some e, srv) => (.error e, srv)
      | (none, srv) =>
        match strdup path (if (srv.fids i).fileState = 0 then srv else freePath (srv.fids i).fileState srv) with
        | (p, srv) =>
          let qid : Qid :=
            ⟨if wantsDir perm then 0x80 else 0, (srv.fids i).qid.version, (path.getLastD 0).toNat + 1000⟩
          (.ok qid, setFid srv i { srv.fids i with fileState := p, qid := qid })

/-- `styxfs_dir_encode`; nothing if there is no room for the entry. -/
def dirEncode (cap now : Nat) (name : CStr) (isDir : Bool) (qidpath : Nat) : List UInt8 :=
  let need := 41 + 2 + name.length + 3 * (2 + 4)
  if 255 < name.length ∨ cap < need then []
  else
    le 2 (need - 2) ++ le 2 0 ++ le 4 0 ++ le 1 (if isDir then 0x80 else 0) ++ le 4 1 ++ le 8 qidpath ++
      le 4 (if isDir then 0o40755 else 0o100644) ++ le 4 now ++ le 4 now ++ le 8 0 ++
      putstr name ++ putstr (text "wubu") ++ putstr (text "wubu") ++ putstr (text "wubu")

/-- The name of a mount in the directory that it is in, if it is below this one. -/
def mountEntry (path : CStr) (m : Mount) : Option CStr :=
  if !path.isPrefixOf m.path then none
  else if path ≠ root ∧ (m.path.drop path.length).head? ≠ some slash then none
  else
    let name := (m.path.drop (if path.length = 1 then 1 else path.length + 1)).takeWhile (· != slash)
    if name = [] ∨ 64 ≤ name.length then none else some name

/-- The entries of a directory: what is mounted there, and what the host has that is not among it. -/
def dirEntries (mounts : List Mount) (path : CStr) (entries : List (CStr × Bool)) : List (CStr × Bool) :=
  let mounted := ((mounts.filterMap (mountEntry path)).take 256).map fun name => (name, true)
  (entries.foldl (fun l e =>
    if 256 ≤ l.length then l
    else if e.1 = text "." ∨ e.1 = text ".." ∨ l.any (·.1 == e.1) then l
    else l ++ [(e.1.take 63, e.2)]) mounted)

/-- The page of a directory that begins at an offset: the entries that have not been passed yet, and that
there is room for. -/
def dirPage (host : Host H) (offset : Nat) :
    List (CStr × Bool) → Nat → Nat → Nat → FsServer H → List UInt8 × FsServer H
  | [], _, _, _, srv => ([], srv)
  | e :: es, n, start, room, srv =>
    match hostCall host .time srv with
    | (now, srv) =>
      let record := dirEncode 512 now.count e.1 e.2 (n + 100)
      if record = [] then ([], srv)
      else if start + record.length ≤ offset then dirPage host offset es (n + 1) (start + record.length) room srv
      else if room < record.length then ([], srv)
      else
        match dirPage host offset es (n + 1) (start + record.length) (room - record.length) srv with
        | (bytes, srv) => (record ++ bytes, srv)

/-- What has been read, in a buffer. -/
def readBuf (data : List UInt8) : Except Nat (Nat × Buf) := .ok (data.length, fun i => data.getD i 0)

def styxfsReadCb (host : Host H) (fid offset count : Nat) (srv : FsServer H) :
    Except Nat (Nat × Buf) × FsServer H :=
  match fidLookup srv fid with
  | none => (.error srv.world.errno, srv)
  | some i =>
    let path := fidPath srv.world (srv.fids i)
    if (srv.fids i).qid.type = 0x80 then
      match hostCall host (.opendir (fidHost srv i)) srv with
      | (d, srv) =>
        match dirPage host offset
            (dirEntries srv.world.mounts path (if d.ok then d.entries else [])) 0 0 count srv with
        | (bytes, srv) => (readBuf bytes, srv)
    else
      match hostCall host (.openRead (fidHost srv i)) srv with
      | (o, srv) =>
        if !o.ok then (readBuf [], srv)
        else
          match hostCall host (.pread (fidHost srv i) offset count) srv with
          | (r, srv) => (readBuf (if r.ok then r.data.take count else []), srv)

def styxfsWriteCb (host : Host H) (fid offset count : Nat) (data : List UInt8) (srv : FsServer H) :
    Except Nat Nat × FsServer H :=
  if srv.world.readonly then (.error srv.world.errno, srv)
  else
    match fidLookup srv fid with
    | none => (.error srv.world.errno, srv)
    | some i =>
      let path := fidHost srv i
      let n := min count maxData
      let append := (srv.fids i).qid.type / 0x40 % 2 == 1
      match hostCall host (.openWrite path append) srv with
      | (o, srv) =>
        if !o.ok then (.error srv.world.errno, srv)
        else if n = 0 then (.ok 0, srv)
        else
          match hostCall host (.pwrite path (if append then 0 else offset) (data.take n)) srv with
          | (w, srv) => (if w.ok then .ok w.count else .error srv.world.errno, srv)

def styxfsClunkCb (fid : Nat) (srv : FsServer H) : FsServer H :=
  let srv := capRevokeFid fid srv
  match fidLookup srv fid with
  | none => srv
  | some i => fidFreePath i srv

def styxfsRemoveCb (host : Host H) (fid : Nat) (srv : FsServer H) : FsServer H :=
  match fidLookup srv fid with
  | none => srv
  | some i =>
    if srv.world.readonly then srv
    else
      let path := fidHost srv i
      match hostCall host (.unlink path) srv with
      | (r, srv) =>
        let srv := if !r.ok && r.errno == 21 then (hostCall host (.rmdir path) srv).2 else srv
        fidFreePath i srv

/-- The qid in a directory entry: that of a mount is another one. -/
def statQid (mounts : List Mount) (path : CStr) (qid : Qid) : Qid :=
  match mounts.find? (·.path == path) with
  | none => qid
  | some m => ⟨qid.type ||| 0x10, qid.version, 2 ^ 63 + (m.path.getD 1 0).toNat⟩

/-- The last component of a path, as it fits into a directory entry. -/
def baseName (path : CStr) : CStr := ((path.reverse.takeWhile (· != slash)).reverse).take (maxFname - 1)

def styxfsStatCb (host : Host H) (fid : Nat) (srv : FsServer H) : Option Dir × FsServer H :=
  match fidLookup srv fid with
  | none => (none, srv)
  | some i =>
    let f := srv.fids i
    let path := fidPath srv.world f
    match hostCall host (.stat (fidHost srv i)) srv with
    | (st, srv) =>
      match hostCall host .time srv with
      | (now, srv) =>
        (some
          { size := 0
            type := 0
            dev := 0
            qid := statQid srv.world.mounts path f.qid
            mode :=
              if st.ok then (if st.isDir then 0o40000 else 0o100000) ||| (st.mode % 4096)
              else if f.qid.type = 0x80 then 0o40755 else 0o100644
            atime := now.count
            mtime := now.count
            length := if st.ok then st.size else 0
            name := baseName path
            uid := text "wubu"
            gid := text "wubu"
            muid := text "wubu" }, srv)

/-- The mode of a file of the host is changed, if a mode is given. -/
def chmodHost (host : Host H) (path : CStr) (mode : Nat) (srv : FsServer H) : Bool × FsServer H :=
  if mode = 0xFFFFFFFF then (true, srv)
  else
    match hostCall host (.chmod path (mode % 512)) srv with
    | (r, srv) => (r.ok, srv)

def styxfsWstatCb (host : Host H) (fid : Nat) (dir : Dir) (srv : FsServer H) :
    Except Nat Unit × FsServer H :=
  if srv.world.readonly then (.error srv.world.errno, srv)
  else
    match fidLookup srv fid with
    | none => (.error srv.world.errno, srv)
    | some i =>
      let path := fidHost srv i
      match chmodHost host path dir.mode srv with
      | (false, srv) => (.error srv.world.errno, srv)
      | (true, srv) =>
        if dir.mtime = 0xFFFFFFFF ∧ dir.atime = 0xFFFFFFFF then (.ok (), srv)
        else
          let time := fun t => if t = 0xFFFFFFFF then 0 else t
          match hostCall host (.utimensat path (time dir.atime) (time dir.mtime)) srv with
          | (r, srv) => (if r.ok then .ok () else .error srv.world.errno, srv)

/-! ## The server -/

/-- What `styxfs_init` installs, and `styxfs_create_cb` if it is installed as well. -/
def styxfsCallbacks (host : Host H) (creates : Bool) : Callbacks (FsWorld H) where
  clone := some styxfsCapCloneCb
  attach := some styxfsAttachCb
  walk := some (styxfsWalkCb host)
  «open» := some styxfsOpenCb
  read := some (styxfsReadCb host)
  write := some (styxfsWriteCb host)
  clunk := some styxfsClunkCb
  remove := some (styxfsRemoveCb host)
  stat := some (styxfsStatCb host)
  wstat := some (styxfsWstatCb host)
  auth := none
  create := if creates then some (styxfsCreateCb host) else none
  flush := none

/-- `styxfs_init`, and the mounts that have been made then. -/
def styxfsInit (mounts : List Mount) (nextQidPath : Nat) (reg : Registry) (junk : CStr) (host : H) :
    FsServer H where
  fids _ := ⟨false, 0, 0, 0, 0, ⟨0, 0, 0⟩, 0⟩
  msize := 0
  maxMsize := 0
  version := []
  connected := false
  world :=
    { mounts := mounts
      nextQidPath := nextQidPath
      readonly := false
      fidCaps := fun _ => tokenNull
      capSessionPid := 0
      capEnforce := false
      reg := reg
      heap := fun _ => none
      brk := 1
      junk := junk
      errno := 0
      host := host
      log := [] }

end WuBuOS.Styx
