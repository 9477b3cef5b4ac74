import WuBuOS.Runtime.Styx.Wire

/-!
# The 9P server

`runtime/styx_serve.c` and `runtime/styx_fid.c`.  `styx_serve` takes a message apart, calls the function
that the file system has installed for it, and builds the reply.

A callback is given the server, and may do anything to it; what it does beyond that is in the state of
the file system, of type `W`.  Next to the reply, `Served` records the calls that have been made, with
their arguments.  Undefined behaviour is `none`: there are two places where a string of a message may be
used that has not been read.  A function that is given such a string may stop before it gets there, as the
walk of StyxFS does at a name that it does not find; that is `none` as well.
-/

namespace WuBuOS.Styx

open Bytes
open Option (isSome_iff_exists map_some)

universe u

/-! ## The server -/

/-- `STYX_MAX_FIDS`. -/
def maxFids : Nat := 128

/-- `styx_fid_t`. -/
structure Fid where
  inUse : Bool
  fid : Nat
  openFid : Nat
  openMode : Nat
  offset : Nat
  qid : Qid
  fileState : Nat
  deriving DecidableEq, Repr

/-- `styx_server_t`, without the callbacks and the tags, which are not used. -/
structure Server (W : Type u) where
  fids : Nat → Fid
  msize : Nat
  maxMsize : Nat
  version : CStr
  connected : Bool
  world : W

/-- The functions that a file system installs.  What they return is `none` or an `errno` if they
fail; a read gives a number of bytes and a buffer. -/
structure Callbacks (W : Type u) where
  clone : Option (Nat → Nat → Server W → Server W)
  attach : Option (Nat → CStr → Server W → Bool × Server W)
  walk : Option (Nat → Nat → List CStr → Server W → (Bool × List Qid) × Server W)
  «open» : Option (Nat → Nat → Server W → Except Nat Qid × Server W)
  read : Option (Nat → Nat → Nat → Server W → Except Nat (Nat × Buf) × Server W)
  write : Option (Nat → Nat → Nat → List UInt8 → Server W → Except Nat Nat × Server W)
  clunk : Option (Nat → Server W → Server W)
  remove : Option (Nat → Server W → Server W)
  stat : Option (Nat → Server W → Option Dir × Server W)
  wstat : Option (Nat → Dir → Server W → Except Nat Unit × Server W)
  auth : Option (Nat → CStr → CStr → Server W → Option Qid × Server W)
  create : Option (Nat → CStr → Nat → Nat → Server W → Except Nat Qid × Server W)
  flush : Option (Nat → Server W → Server W)

/-- A call of one of them. -/
inductive Invocation
  | clone (fid newfid : Nat)
  | attach (fid : Nat) (aname : CStr)
  | walk (fid newfid : Nat) (wname : List CStr)
  | open (fid mode : Nat)
  | read (fid offset count : Nat)
  | write (fid offset count : Nat) (data : List UInt8)
  | clunk (fid : Nat)
  | remove (fid : Nat)
  | stat (fid : Nat)
  | wstat (fid : Nat) (dir : Dir)
  | auth (afid : Nat) (uname aname : CStr)
  | create (fid : Nat) (name : CStr) (perm mode : Nat)
  | flush (oldtag : Nat)
  deriving DecidableEq, Repr

/-- What has come of a message: the reply, the calls that have been made, and the server then. -/
structure Served (W : Type u) where
  reply : List UInt8
  calls : List Invocation
  srv : Server W

variable {W : Type u}

/-- `styx_fid_lookup`: the slot of a fid. -/
def fidLookup (srv : Server W) (fid : Nat) : Option Nat :=
  (List.range maxFids).find? fun i => (srv.fids i).inUse && (srv.fids i).fid == fid

/-- The slot of a fid is written to. -/
def setFid (srv : Server W) (i : Nat) (f : Fid) : Server W :=
  { srv with fids := Function.update srv.fids i f }

/-- `styx_fid_alloc`: the first slot that is not in use is, for this fid. -/
def fidAlloc (srv : Server W) (fid : Nat) : Option (Nat × Server W) :=
  ((List.range maxFids).find? fun i => !(srv.fids i).inUse).map fun i =>
    (i, setFid srv i ⟨true, fid, 0, 0, 0, ⟨0, 0, 0⟩, 0⟩)

/-- `styx_fid_free`. -/
def fidFree (srv : Server W) (fid : Nat) : Server W :=
  match fidLookup srv fid with
  | none => srv
  | some i => setFid srv i { srv.fids i with inUse := false }

/-! ## Replies -/

def buildRversion (tag msize : Nat) (version : CStr) : List UInt8 :=
  message 101 tag (le 4 msize ++ putstr version)

def buildRattach (tag : Nat) (qid : Qid) : List UInt8 := message 105 tag qid.bytes

def buildRwalk (tag : Nat) (qids : List Qid) : List UInt8 :=
  message 111 tag (le 2 qids.length ++ qids.flatMap Qid.bytes)

def buildRopen (tag : Nat) (qid : Qid) (iounit : Nat) : List UInt8 :=
  message 113 tag (qid.bytes ++ le 4 iounit)

def buildRread (tag : Nat) (data : Buf) (count : Nat) : List UInt8 :=
  let count := min (min count maxData) (maxMsg - 11)
  message 117 tag (le 4 count ++ slice data 0 count)

def buildRwrite (tag count : Nat) : List UInt8 := message 119 tag (le 4 count)

def buildRclunk (tag : Nat) : List UInt8 := message 121 tag []

def buildRremove (tag : Nat) : List UInt8 := message 123 tag []

def buildRauth (tag : Nat) (aqid : Qid) : List UInt8 := message 103 tag aqid.bytes

def buildRcreate (tag : Nat) (qid : Qid) (iounit : Nat) : List UInt8 :=
  message 115 tag (qid.bytes ++ le 4 iounit)

def buildRflush (tag : Nat) : List UInt8 := message 109 tag []

def buildRwstat (tag : Nat) : List UInt8 := message 127 tag []

def buildRstat (tag : Nat) (dir : Dir) : List UInt8 :=
  message 125 tag (le 2 dir.bytes.length ++ dir.bytes)

/-! ## The arms of the dispatch -/

section

variable (cb : Callbacks W) (srv : Server W) (tag : Nat)

/-- An error, without any call. -/
def refuse (msg : String) : Served W := ⟨styxError tag (text msg), [], srv⟩

/-- The version is one that the server knows. -/
def versionOk (version : CStr) : Bool := version.take 6 == text "9P2000"

/-- `STX_TVERSION`. -/
def serveVersion (msize : Nat) (version : CStr) : Served W :=
  if !versionOk version && version != text "9P2000.u" then refuse srv tag "Unknown protocol version"
  else if msize < 64 then refuse srv tag "msize too small"
  else
    let ceiling := min (if srv.maxMsize ≠ 0 then srv.maxMsize else maxMsg) maxMsg
    let srv := { srv with msize := min msize ceiling, version := text "9P2000", connected := true }
    ⟨buildRversion tag srv.msize (text "9P2000"), [], srv⟩

/-- `STX_TAUTH`. -/
def serveAuth (afid : Nat) (uname aname : CStr) : Served W :=
  match cb.auth with
  | none => refuse srv tag "authentication not required"
  | some auth =>
    match auth afid uname aname srv with
    | (none, srv) => ⟨styxError tag (text "Authentication failed"), [.auth afid uname aname], srv⟩
    | (some aqid, srv) => ⟨buildRauth tag aqid, [.auth afid uname aname], srv⟩

/-- `STX_TFLUSH`. -/
def serveFlush (oldtag : Nat) : Served W :=
  match cb.flush with
  | none => ⟨buildRflush tag, [], srv⟩
  | some flush => ⟨buildRflush tag, [.flush oldtag], flush oldtag srv⟩

/-- `STX_TCREATE`. -/
def serveCreate (fid : Nat) (name : CStr) (perm mode : Nat) : Served W :=
  match cb.create with
  | none => refuse srv tag "Create not supported"
  | some create =>
    match create fid name perm mode srv with
    | (.error e, srv) =>
      ⟨styxError tag (failure e "Create failed"), [.create fid name perm mode], srv⟩
    | (.ok qid, srv) => ⟨buildRcreate tag qid 0, [.create fid name perm mode], srv⟩

/-- `STX_TATTACH`. -/
def serveAttach (fid : Nat) (aname : CStr) : Served W :=
  match cb.attach with
  | none =>
    match fidAlloc srv fid with
    | none => refuse srv tag "Out of fids"
    | some (i, srv) =>
      let qid : Qid := ⟨0x80, 1, 1⟩
      ⟨buildRattach tag qid, [], setFid srv i { srv.fids i with qid := qid }⟩
  | some attach =>
    match attach fid aname srv with
    | (false, srv) => ⟨styxError tag (text "Attach failed"), [.attach fid aname], srv⟩
    | (true, srv) =>
      let qid := match fidLookup srv fid with
        | none => ⟨0, 0, 0⟩
        | some i => (srv.fids i).qid
      ⟨buildRattach tag qid, [.attach fid aname], srv⟩

/-- `STX_TWALK` without names: the fid is cloned. -/
def serveClone (i fid newfid : Nat) : Served W :=
  if (fidLookup srv newfid).isSome then refuse srv tag "fid in use"
  else
    match fidAlloc srv newfid with
    | none => refuse srv tag "Out of fids"
    | some (j, srv) =>
      let srv := setFid srv j { srv.fids i with fid := newfid }
      match cb.clone with
      | none => ⟨buildRwalk tag [(srv.fids i).qid], [], srv⟩
      | some clone =>
        let srv := clone fid newfid srv
        ⟨buildRwalk tag [(srv.fids i).qid], [.clone fid newfid], srv⟩

/-- `STX_TWALK`; the names are missing if not all of them have been read. -/
def serveWalk (fid newfid nwname : Nat) (wname : Option (List CStr)) : Option (Served W) :=
  match fidLookup srv fid with
  | none => some (refuse srv tag "Bad fid in walk")
  | some i =>
    if nwname = 0 then some (serveClone cb srv tag i fid newfid)
    else
      match cb.walk with
      | none => some (refuse srv tag "Walk not supported")
      | some walk =>
        wname.map fun wname =>
          match walk fid newfid wname srv with
          | ((false, []), srv) => ⟨styxError tag (text "Walk failed"), [.walk fid newfid wname], srv⟩
          | ((_, qids), srv) => ⟨buildRwalk tag qids, [.walk fid newfid wname], srv⟩

/-- The fid is open now. -/
def setOpen (i mode : Nat) : Server W :=
  setFid srv i { srv.fids i with openMode := mode, offset := 0, openFid := (srv.fids i).fid }

/-- `STX_TOPEN`. -/
def serveOpen (fid mode : Nat) : Served W :=
  match fidLookup srv fid with
  | none => refuse srv tag "Bad fid in open"
  | some i =>
    match cb.open with
    | none => ⟨buildRopen tag (srv.fids i).qid maxData, [], setOpen srv i mode⟩
    | some op =>
      match op fid mode srv with
      | (.error e, srv) => ⟨styxError tag (failure e "Open failed"), [.open fid mode], srv⟩
      | (.ok qid, srv) => ⟨buildRopen tag qid maxData, [.open fid mode], setOpen srv i mode⟩

/-- The most that a read may ask for. -/
def readCap : Nat := min (if 11 < srv.msize then srv.msize - 11 else maxData) maxData

/-- `STX_TREAD`. -/
def serveRead (fid offset count : Nat) : Served W :=
  match fidLookup srv fid with
  | none => refuse srv tag "Bad fid in read"
  | some i =>
    let count := min count (readCap srv)
    match cb.read with
    | none => ⟨buildRread tag (fun _ => 0) 0, [], srv⟩
    | some read =>
      match read fid offset count srv with
      | (.error e, srv) => ⟨styxError tag (failure e "Read failed"), [.read fid offset count], srv⟩
      | (.ok (nread, data), srv) =>
        ⟨buildRread tag data nread, [.read fid offset count],
          setFid srv i { srv.fids i with offset := (offset + nread) % 2 ^ 64 }⟩

/-- `STX_TWRITE`; the bytes are those of the message, `count` of them. -/
def serveWrite (fid offset count : Nat) (data : List UInt8) : Served W :=
  match fidLookup srv fid with
  | none => refuse srv tag "Bad fid in write"
  | some i =>
    let count := min count maxWrite
    match cb.write with
    | none => refuse srv tag "Write not supported"
    | some write =>
      match write fid offset count (data.take count) srv with
      | (.error e, srv) =>
        ⟨styxError tag (failure e "Write failed"), [.write fid offset count (data.take count)], srv⟩
      | (.ok nwritten, srv) =>
        ⟨buildRwrite tag nwritten, [.write fid offset count (data.take count)],
          setFid srv i { srv.fids i with offset := (offset + nwritten) % 2 ^ 64 }⟩

/-- `STX_TCLUNK`. -/
def serveClunk (fid : Nat) : Served W :=
  match fidLookup srv fid with
  | none => refuse srv tag "Bad fid in clunk"
  | some _ =>
    match cb.clunk with
    | none => ⟨buildRclunk tag, [], fidFree srv fid⟩
    | some clunk => ⟨buildRclunk tag, [.clunk fid], fidFree (clunk fid srv) fid⟩

/-- `STX_TREMOVE`. -/
def serveRemove (fid : Nat) : Served W :=
  match cb.remove with
  | none => ⟨buildRremove tag, [], fidFree srv fid⟩
  | some remove => ⟨buildRremove tag, [.remove fid], fidFree (remove fid srv) fid⟩

/-- What is said of a file if nothing else is. -/
def defaultDir (qid : Qid) : Dir where
  size := 0
  type := 0
  dev := 0
  qid := qid
  mode := if qid.type / 0x80 % 2 = 1 then 0x80000000 else 0
  atime := 0
  mtime := 0
  length := 0
  name := text "file"
  uid := text "wubu"
  gid := text "wubu"
  muid := []

/-- `STX_TSTAT`. -/
def serveStat (fid : Nat) : Served W :=
  match fidLookup srv fid with
  | none => refuse srv tag "Bad fid in stat"
  | some i =>
    match cb.stat with
    | none => ⟨buildRstat tag (defaultDir (srv.fids i).qid), [], srv⟩
    | some stat =>
      match stat fid srv with
      | (none, srv) => ⟨styxError tag (text "Stat failed"), [.stat fid], srv⟩
      | (some dir, srv) => ⟨buildRstat tag dir, [.stat fid], srv⟩

/-- `STX_TWSTAT`; the entry is missing if it has not all been read. -/
def serveWstat (fid : Nat) (dir : Option Dir) : Option (Served W) :=
  match cb.wstat with
  | none => some (refuse srv tag "Wstat not supported")
  | some wstat =>
    dir.map fun dir =>
      match wstat fid dir srv with
      | (.error e, srv) => ⟨styxError tag (failure e "Wstat failed"), [.wstat fid dir], srv⟩
      | (.ok (), srv) => ⟨buildRwstat tag, [.wstat fid dir], srv⟩

end

/-! ## Taking a message apart -/

/-- The names of a walk, from a place in the message on.  There is none if one of them cannot be read:
the loop ends there, but the names are used all the same. -/
def walkNames (buf : Buf) (size : Nat) : Nat → Nat → Option (List CStr)
  | _, 0 => some []
  | pos, n + 1 =>
    match getstr buf pos maxFname (size - pos) with
    | none => none
    | some (s, pos) => (walkNames buf size pos n).map (s :: ·)

/-- A string at this place, or nothing. -/
def stringAt (buf : Buf) (pos outsz size : Nat) : CStr :=
  ((getstr buf pos outsz (size - pos)).map Prod.fst).getD []

/-- The directory entry of a `Twstat`.  A string that cannot be read is a null pointer, from which the
next one would be read; only the last may be missing. -/
def wstatDir (buf : Buf) (size : Nat) : Option Dir :=
  (getstr buf 52 maxFname (size - 52)).bind fun name =>
    (getstr buf name.2 maxFname (size - name.2)).bind fun uid =>
      (getstr buf uid.2 maxFname (size - uid.2)).bind fun gid =>
        some
          { size := 0
            type := get buf 13 2
            dev := get buf 15 4
            qid := ⟨get buf 19 1, get buf 20 4, get buf 24 8⟩
            mode := get buf 32 4
            atime := get buf 36 4
            mtime := get buf 40 4
            length := get buf 44 8
            name := name.1
            uid := uid.1
            gid := gid.1
            muid := stringAt buf gid.2 maxFname size }

/-- The two strings of a `Tauth`; the second is empty if it is missing. -/
def authNames (buf : Buf) (size : Nat) : CStr × CStr :=
  match getstr buf 11 maxFname (size - 11) with
  | none => ([], [])
  | some (uname, p) => (uname, stringAt buf p maxFname size)

/-- The `switch` of `styx_serve`. -/
def serveType (cb : Callbacks W) (srv : Server W) (tag : Nat) (buf : Buf) (size : Nat) :
    TType → Option (Served W)
  | .tversion =>
    if size < 13 then some (refuse srv tag "Truncated message")
    else some (serveVersion srv tag (get buf 7 4) (stringAt buf 11 16 size))
  | .tauth =>
    if size < 15 then some (refuse srv tag "Truncated message")
    else some (serveAuth cb srv tag (get buf 7 4) (authNames buf size).1 (authNames buf size).2)
  | .tflush =>
    if size < 9 then some (refuse srv tag "Truncated message")
    else some (serveFlush cb srv tag (get buf 7 2))
  | .tcreate =>
    if size < 13 then some (refuse srv tag "Truncated message")
    else
      match getstr buf 11 maxFname (size - 11) with
      | none => none
      | some (name, p) =>
        if size < p + 5 then some (refuse srv tag "Bad Tcreate")
        else some (serveCreate cb srv tag (get buf 7 4) name (get buf p 4) (get buf (p + 4) 1))
  | .tattach =>
    if size < 15 then some (refuse srv tag "Truncated message")
    else some (serveAttach cb srv tag (get buf 7 4) (stringAt buf 15 maxFname size))
  | .twalk =>
    serveWalk cb srv tag (get buf 7 4) (get buf 11 4) (get buf 15 2)
      (walkNames buf size 17 (min (get buf 15 2) 16))
  | .topen => some (serveOpen cb srv tag (get buf 7 4) (get buf 11 1))
  | .tread => some (serveRead cb srv tag (get buf 7 4) (get buf 11 8) (get buf 19 4))
  | .twrite =>
    if size < 23 + get buf 19 4 then some (refuse srv tag "Write payload overruns message")
    else
      some (serveWrite cb srv tag (get buf 7 4) (get buf 11 8) (get buf 19 4)
        (slice buf 23 (get buf 19 4)))
  | .tclunk => some (serveClunk cb srv tag (get buf 7 4))
  | .tremove => some (serveRemove cb srv tag (get buf 7 4))
  | .tstat => some (serveStat cb srv tag (get buf 7 4))
  | .twstat => serveWstat cb srv tag (get buf 7 4) (wstatDir buf size)

/-- The size that a message declares. -/
def msgSize (buf : Buf) : Nat := get buf 0 4

/-- The tag of a message. -/
def msgTag (buf : Buf) : Nat := get buf 5 2

/-- The type of a message, if there is one with its number. -/
def msgType (buf : Buf) : Option TType := TType.ofCode (get buf 4 1)

/-- `styx_serve`, if there are at least seven bytes: otherwise it returns `-1`. -/
def styxServe (cb : Callbacks W) (srv : Server W) (buf : Buf) (inlen : Nat) : Option (Served W) :=
  if inlen < msgSize buf ∨ maxMsg < msgSize buf then
    some (refuse srv (msgTag buf) "Bad message size")
  else if srv.msize ≠ 0 ∧ srv.msize < msgSize buf then
    some (refuse srv (msgTag buf) "Message exceeds negotiated msize")
  else
    match msgType buf with
    | none => some (refuse srv (msgTag buf) "Unknown message type")
    | some type => serveType cb srv (msgTag buf) buf (msgSize buf) type

/-! ## What is called -/

section

variable {cb : Callbacks W} {srv : Server W} {tag fid : Nat}

theorem serveAuth_calls (h : cb.auth.isSome) (afid : Nat) (uname aname : CStr) :
    (serveAuth cb srv tag afid uname aname).calls = [.auth afid uname aname] := by
  obtain ⟨auth, hauth⟩ := isSome_iff_exists.1 h
  rw [serveAuth, hauth]
  dsimp only
  split <;> rfl

theorem serveFlush_calls (h : cb.flush.isSome) (oldtag : Nat) :
    (serveFlush cb srv tag oldtag).calls = [.flush oldtag] := by
  obtain ⟨flush, hflush⟩ := isSome_iff_exists.1 h
  rw [serveFlush, hflush]

theorem serveCreate_calls (h : cb.create.isSome) (name : CStr) (perm mode : Nat) :
    (serveCreate cb srv tag fid name perm mode).calls = [.create fid name perm mode] := by
  obtain ⟨create, hcreate⟩ := isSome_iff_exists.1 h
  rw [serveCreate, hcreate]
  dsimp only
  split <;> rfl

theorem serveAttach_calls (h : cb.attach.isSome) (aname : CStr) :
    (serveAttach cb srv tag fid aname).calls = [.attach fid aname] := by
  obtain ⟨attach, hattach⟩ := isSome_iff_exists.1 h
  rw [serveAttach, hattach]
  dsimp only
  split <;> rfl

theorem serveClone_calls {i newfid : Nat} (h : cb.clone.isSome) (hnew : fidLookup srv newfid = none)
    (hfree : (fidAlloc srv newfid).isSome) :
    (serveClone cb srv tag i fid newfid).calls = [.clone fid newfid] := by
  obtain ⟨clone, hclone⟩ := isSome_iff_exists.1 h
  obtain ⟨slot, hslot⟩ := isSome_iff_exists.1 hfree
  rw [serveClone, hnew, hslot, hclone]
  rfl

theorem serveWalk_calls {newfid nwname : Nat} (h : cb.walk.isSome) (hfid : (fidLookup srv fid).isSome)
    (hn : nwname ≠ 0) (wname : List CStr) :
    (serveWalk cb srv tag fid newfid nwname (some wname)).map Served.calls = some [.walk fid newfid wname] := by
  obtain ⟨walk, hwalk⟩ := isSome_iff_exists.1 h
  obtain ⟨i, hi⟩ := isSome_iff_exists.1 hfid
  rw [serveWalk, hi, hwalk]
  dsimp only
  rw [if_neg hn, map_some, map_some]
  split <;> rfl

theorem serveOpen_calls (h : cb.open.isSome) (hfid : (fidLookup srv fid).isSome) (mode : Nat) :
    (serveOpen cb srv tag fid mode).calls = [.open fid mode] := by
  obtain ⟨op, hop⟩ := isSome_iff_exists.1 h
  obtain ⟨i, hi⟩ := isSome_iff_exists.1 hfid
  rw [serveOpen, hi, hop]
  dsimp only
  split <;> rfl

theorem serveRead_calls (h : cb.read.isSome) (hfid : (fidLookup srv fid).isSome) (offset count : Nat) :
    (serveRead cb srv tag fid offset count).calls = [.read fid offset (min count (readCap srv))] := by
  obtain ⟨read, hread⟩ := isSome_iff_exists.1 h
  obtain ⟨i, hi⟩ := isSome_iff_exists.1 hfid
  rw [serveRead, hi, hread]
  dsimp only
  split <;> rfl

theorem serveWrite_calls (h : cb.write.isSome) (hfid : (fidLookup srv fid).isSome) (offset : Nat)
    {data : List UInt8} (hdata : data.length ≤ maxWrite) :
    (serveWrite cb srv tag fid offset data.length data).calls = [.write fid offset data.length data] := by
  obtain ⟨write, hwrite⟩ := isSome_iff_exists.1 h
  obtain ⟨i, hi⟩ := isSome_iff_exists.1 hfid
  rw [serveWrite, hi, hwrite]
  dsimp only
  rw [Nat.min_eq_left hdata, List.take_length]
  split <;> rfl

theorem serveClunk_calls (h : cb.clunk.isSome) (hfid : (fidLookup srv fid).isSome) :
    (serveClunk cb srv tag fid).calls = [.clunk fid] := by
  obtain ⟨clunk, hclunk⟩ := isSome_iff_exists.1 h
  obtain ⟨i, hi⟩ := isSome_iff_exists.1 hfid
  rw [serveClunk, hi, hclunk]

theorem serveRemove_calls (h : cb.remove.isSome) : (serveRemove cb srv tag fid).calls = [.remove fid] := by
  obtain ⟨remove, hremove⟩ := isSome_iff_exists.1 h
  rw [serveRemove, hremove]

theorem serveStat_calls (h : cb.stat.isSome) (hfid : (fidLookup srv fid).isSome) :
    (serveStat cb srv tag fid).calls = [.stat fid] := by
  obtain ⟨stat, hstat⟩ := isSome_iff_exists.1 h
  obtain ⟨i, hi⟩ := isSome_iff_exists.1 hfid
  rw [serveStat, hi, hstat]
  dsimp only
  split <;> rfl

theorem serveWstat_calls (h : cb.wstat.isSome) (dir : Dir) :
    (serveWstat cb srv tag fid (some dir)).map Served.calls = some [.wstat fid dir] := by
  obtain ⟨wstat, hwstat⟩ := isSome_iff_exists.1 h
  rw [serveWstat, hwstat]
  dsimp only
  rw [map_some, map_some]
  split <;> rfl

end

end WuBuOS.Styx
