import Mathlib.Data.List.TakeWhile
import WuBuOS.Runtime.Styx.Confine

/-!
# Requests

`runtime/styx_enc.c`.  A client builds a request, and the server takes it apart: `serve_encode` says that
the file system is called with what the client has put in.  With what the server changes on the way: a
read is never asked for more than fits into a reply, the mode of an open is one byte, and the size of a
directory entry is not sent.

What lies at a place of the buffer is said by `At`, which splits at every field (`at_append`), so a layout is read
back field by field: numbers, strings (`getstr_putstr`), the names of a walk (`walkNames_encode`), a directory entry
(`wstatDir_encode`).
-/

namespace WuBuOS.Styx

open Bytes

/-! ## The encoders -/

/-- `styx_build_tversion`. -/
def buildTversion (msize : Nat) (version : CStr) : List UInt8 :=
  message 100 0 (le 4 msize ++ putstr version)

/-- `styx_build_tattach`. -/
def buildTattach (tag fid afid : Nat) (aname : CStr) : List UInt8 :=
  message 104 tag (le 4 fid ++ (le 4 afid ++ putstr aname))

/-- `styx_build_twalk`. -/
def buildTwalk (tag fid newfid : Nat) (wname : List CStr) : List UInt8 :=
  message 110 tag (le 4 fid ++ (le 4 newfid ++ (le 2 wname.length ++ (wname.take 16).flatMap putstr)))

/-- `styx_build_topen`. -/
def buildTopen (tag fid mode : Nat) : List UInt8 := message 112 tag (le 4 fid ++ le 1 mode)

/-- `styx_build_tread`. -/
def buildTread (tag fid offset count : Nat) : List UInt8 :=
  message 116 tag (le 4 fid ++ (le 8 offset ++ le 4 count))

/-- `styx_build_twrite`. -/
def buildTwrite (tag fid offset : Nat) (data : List UInt8) : List UInt8 :=
  message 118 tag (le 4 fid ++ (le 8 offset ++ (le 4 data.length ++ data)))

/-- `styx_build_tclunk`. -/
def buildTclunk (tag fid : Nat) : List UInt8 := message 120 tag (le 4 fid)

/-- `styx_build_tstat`. -/
def buildTstat (tag fid : Nat) : List UInt8 := message 124 tag (le 4 fid)

/-- `styx_build_tauth`. -/
def buildTauth (tag afid : Nat) (uname aname : CStr) : List UInt8 :=
  message 102 tag (le 4 afid ++ (putstr uname ++ putstr aname))

/-- `styx_build_tflush`. -/
def buildTflush (tag oldtag : Nat) : List UInt8 := message 108 tag (le 2 oldtag)

/-- `styx_build_tcreate`. -/
def buildTcreate (tag fid : Nat) (name : CStr) (perm mode : Nat) : List UInt8 :=
  message 114 tag (le 4 fid ++ (putstr name ++ (le 4 perm ++ le 1 mode)))

/-- `styx_build_tremove`. -/
def buildTremove (tag fid : Nat) : List UInt8 := message 122 tag (le 4 fid)

/-- `styx_build_twstat`. -/
def buildTwstat (tag fid : Nat) (dir : Dir) : List UInt8 :=
  message 126 tag (le 4 fid ++ (le 2 dir.bytes.length ++ dir.bytes))

/-! ## Requests -/

/-- What a client asks for. -/
inductive Request
  | version (msize : Nat) (text : CStr)
  | attach (tag fid afid : Nat) (aname : CStr)
  | walk (tag fid newfid : Nat) (wname : List CStr)
  | open (tag fid mode : Nat)
  | read (tag fid offset count : Nat)
  | write (tag fid offset : Nat) (data : List UInt8)
  | clunk (tag fid : Nat)
  | stat (tag fid : Nat)
  | auth (tag afid : Nat) (uname aname : CStr)
  | flush (tag oldtag : Nat)
  | create (tag fid : Nat) (name : CStr) (perm mode : Nat)
  | remove (tag fid : Nat)
  | wstat (tag fid : Nat) (dir : Dir)
  deriving DecidableEq, Repr

/-- The message for it. -/
def Request.encode : Request → List UInt8
  | .version msize text => buildTversion msize text
  | .attach tag fid afid aname => buildTattach tag fid afid aname
  | .walk tag fid newfid wname => buildTwalk tag fid newfid wname
  | .open tag fid mode => buildTopen tag fid mode
  | .read tag fid offset count => buildTread tag fid offset count
  | .write tag fid offset data => buildTwrite tag fid offset data
  | .clunk tag fid => buildTclunk tag fid
  | .stat tag fid => buildTstat tag fid
  | .auth tag afid uname aname => buildTauth tag afid uname aname
  | .flush tag oldtag => buildTflush tag oldtag
  | .create tag fid name perm mode => buildTcreate tag fid name perm mode
  | .remove tag fid => buildTremove tag fid
  | .wstat tag fid dir => buildTwstat tag fid dir

/-- A C string of at most 255 bytes. -/
def Short (s : CStr) : Prop := s.length ≤ 255 ∧ 0 ∉ s

/-- The numbers of a directory entry are as wide as their types, and its strings are short. -/
structure Dir.Valid (d : Dir) : Prop where
  type : d.type < 2 ^ 16
  dev : d.dev < 2 ^ 32
  qtype : d.qid.type < 2 ^ 8
  qversion : d.qid.version < 2 ^ 32
  qpath : d.qid.path < 2 ^ 64
  mode : d.mode < 2 ^ 32
  atime : d.atime < 2 ^ 32
  mtime : d.mtime < 2 ^ 32
  length : d.length < 2 ^ 64
  name : Short d.name
  uid : Short d.uid
  gid : Short d.gid
  muid : Short d.muid

/-- The numbers are as wide as their types; strings, lists of names and data are not too long. -/
def Request.Valid : Request → Prop
  | .version _ text => Short text
  | .attach _ fid _ aname => fid < 2 ^ 32 ∧ Short aname
  | .walk _ fid newfid wname =>
    fid < 2 ^ 32 ∧ newfid < 2 ^ 32 ∧ wname.length ≤ 16 ∧ ∀ s ∈ wname, Short s
  | .open _ fid _ => fid < 2 ^ 32
  | .read _ fid offset count => fid < 2 ^ 32 ∧ offset < 2 ^ 64 ∧ count < 2 ^ 32
  | .write _ fid offset data => fid < 2 ^ 32 ∧ offset < 2 ^ 64 ∧ data.length ≤ maxWrite
  | .clunk _ fid => fid < 2 ^ 32
  | .stat _ fid => fid < 2 ^ 32
  | .auth _ afid uname aname => afid < 2 ^ 32 ∧ Short uname ∧ Short aname
  | .flush _ oldtag => oldtag < 2 ^ 16
  | .create _ fid name perm mode => fid < 2 ^ 32 ∧ Short name ∧ perm < 2 ^ 32 ∧ mode < 2 ^ 8
  | .remove _ fid => fid < 2 ^ 32
  | .wstat _ fid dir => fid < 2 ^ 32 ∧ dir.Valid

/-- The calls that it should lead to. -/
def Request.calls {W : Type} (srv : Server W) : Request → List Invocation
  | .version _ _ => []
  | .attach _ fid _ aname => [.attach fid aname]
  | .walk _ fid newfid [] => [.clone fid newfid]
  | .walk _ fid newfid wname => [.walk fid newfid wname]
  | .open _ fid mode => [.open fid (mode % 256)]
  | .read _ fid offset count => [.read fid offset (min count (readCap srv))]
  | .write _ fid offset data => [.write fid offset data.length data]
  | .clunk _ fid => [.clunk fid]
  | .stat _ fid => [.stat fid]
  | .auth _ afid uname aname => [.auth afid uname aname]
  | .flush _ oldtag => [.flush oldtag]
  | .create _ fid name perm mode => [.create fid name perm mode]
  | .remove _ fid => [.remove fid]
  | .wstat _ fid dir => [.wstat fid { dir with size := 0 }]

/-- The fids that it needs are in use; to clone one, there is also a free slot for the other. -/
def Request.Ready {W : Type} (srv : Server W) : Request → Prop
  | .walk _ fid newfid [] =>
    (fidLookup srv fid).isSome ∧ fidLookup srv newfid = none ∧ (fidAlloc srv newfid).isSome
  | .walk _ fid _ _ => (fidLookup srv fid).isSome
  | .open _ fid _ => (fidLookup srv fid).isSome
  | .read _ fid _ _ => (fidLookup srv fid).isSome
  | .write _ fid _ _ => (fidLookup srv fid).isSome
  | .clunk _ fid => (fidLookup srv fid).isSome
  | .stat _ fid => (fidLookup srv fid).isSome
  | _ => True

/-- All callbacks are installed. -/
structure Callbacks.Installed {W : Type} (cb : Callbacks W) : Prop where
  clone : cb.clone.isSome
  attach : cb.attach.isSome
  walk : cb.walk.isSome
  «open» : cb.open.isSome
  read : cb.read.isSome
  write : cb.write.isSome
  clunk : cb.clunk.isSome
  remove : cb.remove.isSome
  stat : cb.stat.isSome
  wstat : cb.wstat.isSome
  auth : cb.auth.isSome
  create : cb.create.isSome
  flush : cb.flush.isSome

variable {W : Type} {cb : Callbacks W} {srv : Server W} {buf : Buf} {size pos tag : Nat}

/-! ## Reading what has been written -/

/-- A number is read back. -/
theorem get_at {n v : Nat} (h : At buf pos (le n v)) (hv : v < 2 ^ (8 * n)) : Bytes.get buf pos n = v := by
  rw [h.get]
  refine Nat.mod_eq_of_lt ?_
  rwa [show 256 = 2 ^ 8 from rfl, ← Nat.pow_mul]

theorem length_putstr {s : CStr} (h : Short s) : (putstr s).length = 2 + s.length := by
  have hn : min (s.length % 2 ^ 16) (maxFname - 1) = s.length := by
    have := h.1
    rw [maxFname]
    omega
  simp only [putstr, hn, List.length_append, length_le, List.take_length]

/-- **A string is read back.** -/
theorem getstr_putstr {s : CStr} (h : Short s) (hat : At buf pos (putstr s)) (hsize : pos + 2 + s.length ≤ size) :
    getstr buf pos maxFname (size - pos) = some (s, pos + 2 + s.length) := by
  have hlen := h.1
  have hn : min (s.length % 2 ^ 16) (maxFname - 1) = s.length := by
    rw [maxFname]
    omega
  rw [putstr] at hat
  rw [hn, List.take_length, at_append, length_le] at hat
  have hget : Bytes.get buf pos 2 = s.length := hat.1.get.trans (Nat.mod_eq_of_lt (by omega))
  have hmin : min (min (Bytes.get buf pos 2) (maxFname - 1)) (size - pos - 2) = s.length := by
    rw [hget, maxFname]
    omega
  have hzero : s.takeWhile (· ≠ 0) = s :=
    List.takeWhile_eq_self_iff.2 fun x hx => decide_eq_true fun h0 => h.2 (h0 ▸ hx)
  rw [getstr, if_neg (by omega)]
  dsimp only
  rw [hmin, hat.2.slice, hzero]

/-- The names of a walk are read back. -/
theorem walkNames_encode (wname : List CStr) (hs : ∀ s ∈ wname, Short s) :
    ∀ pos, At buf pos (wname.flatMap putstr) → pos + (wname.flatMap putstr).length ≤ size →
      walkNames buf size pos wname.length = some wname := by
  induction wname with
  | nil => exact fun _ _ _ => rfl
  | cons s wname ih =>
    intro pos hat hsize
    have hshort := hs s List.mem_cons_self
    rw [List.flatMap_cons, at_append, length_putstr hshort, ← Nat.add_assoc] at hat
    rw [List.flatMap_cons, List.length_append, length_putstr hshort] at hsize
    rw [List.length_cons, walkNames, getstr_putstr hshort hat.1 (by omega)]
    dsimp only
    rw [ih (fun t ht => hs t (List.mem_cons_of_mem s ht)) _ hat.2 (by omega)]
    rfl

/-- The header of a message is read back. -/
theorem at_message {type : TType} {body : List UInt8} (h : At buf 0 (message type.code tag body))
    (hlen : 7 + body.length ≤ maxMsg) :
    msgSize buf = 7 + body.length ∧ msgType buf = some type ∧ At buf 7 body := by
  have hmax : maxMsg < 256 ^ 4 := by decide
  rw [message, at_append, length_le, At, at_append, length_le] at h
  obtain ⟨hsize, htype, -, hbody⟩ := h
  refine ⟨hsize.get.trans (Nat.mod_eq_of_lt (by omega)), ?_, hbody⟩
  have hcode : Bytes.get buf 4 1 = type.code := by
    change (buf 4).toNat + 256 * 0 = type.code
    rw [show buf 4 = UInt8.ofNat type.code from htype]
    cases type
    all_goals rfl
  rw [msgType, hcode, TType.ofCode_code]

/-- The directory entry of a `Twstat` is read back. -/
theorem wstatDir_encode {d : Dir} (hd : d.Valid) (hat : At buf 13 d.bytes)
    (hsize : 13 + d.bytes.length ≤ size) : wstatDir buf size = some { d with size := 0 } := by
  rw [Dir.bytes] at hat hsize
  have hfixed : d.fixed.length = 39 := by
    simp only [Dir.fixed, List.length_append, length_le]
  simp only [List.length_append, hfixed, length_putstr hd.name, length_putstr hd.uid,
    length_putstr hd.gid, length_putstr hd.muid] at hsize
  rw [at_append, hfixed, at_append, length_putstr hd.name, at_append, length_putstr hd.uid, at_append,
    length_putstr hd.gid] at hat
  obtain ⟨hnum, hname, huid, hgid, hmuid⟩ := hat
  simp only [Dir.fixed, at_append, length_le] at hnum
  obtain ⟨htype, hdev, hqtype, hqversion, hqpath, hmode, hatime, hmtime, hlength⟩ := hnum
  simp only [Nat.reduceAdd, ← Nat.add_assoc] at *
  rw [wstatDir, getstr_putstr hd.name hname (by omega), Option.bind_some,
    getstr_putstr hd.uid huid (by omega), Option.bind_some, getstr_putstr hd.gid hgid (by omega),
    Option.bind_some, stringAt, getstr_putstr hd.muid hmuid (by omega), get_at htype hd.type,
    get_at hdev hd.dev, get_at hqtype hd.qtype, get_at hqversion hd.qversion, get_at hqpath hd.qpath,
    get_at hmode hd.mode, get_at hatime hd.atime, get_at hmtime hd.mtime, get_at hlength hd.length]
  rfl

/-- What the server makes of a message with this header. -/
theorem calls_message (type : TType) {tag : Nat} {body : List UInt8} {inlen : Nat}
    {calls : List Invocation} (h : At buf 0 (message type.code tag body)) (hmax : 7 + body.length ≤ maxMsg)
    (hlen : (message type.code tag body).length ≤ inlen)
    (hmsize : srv.msize = 0 ∨ (message type.code tag body).length ≤ srv.msize)
    (hcalls : At buf 7 body → (serveType cb srv (msgTag buf) buf (7 + body.length) type).map Served.calls =
      some calls) :
    (styxServe cb srv buf inlen).map Served.calls = some calls := by
  obtain ⟨hsize, htype, hbody⟩ := at_message h hmax
  rw [length_message] at hlen hmsize
  rw [styxServe, hsize, htype, if_neg (by omega), if_neg (by omega)]
  exact hcalls hbody

theorem length_names_le (wname : List CStr) (hs : ∀ s ∈ wname, Short s) :
    (wname.flatMap putstr).length ≤ 257 * wname.length := by
  induction wname with
  | nil => exact Nat.le_refl 0
  | cons s wname ih =>
    have hshort := hs s List.mem_cons_self
    have hlen := hshort.1
    have := ih fun t ht => hs t (List.mem_cons_of_mem s ht)
    rw [List.flatMap_cons, List.length_append, length_putstr hshort, List.length_cons]
    omega

/-! ## The requests, one by one -/

theorem serveVersion_calls (msize : Nat) (version : CStr) : (serveVersion srv tag msize version).calls = [] := by
  rw [serveVersion]
  split
  · rfl
  · split <;> rfl

theorem calls_tversion : (serveType cb srv tag buf size .tversion).map Served.calls = some [] := by
  rw [serveType]
  split
  · rfl
  · rw [Option.map_some, serveVersion_calls]

theorem calls_tattach {fid afid : Nat} {aname : CStr} (hcb : cb.Installed)
    (hvalid : fid < 2 ^ 32 ∧ Short aname) (hat : At buf 7 (le 4 fid ++ (le 4 afid ++ putstr aname))) :
    (serveType cb srv tag buf (7 + (le 4 fid ++ (le 4 afid ++ putstr aname)).length) .tattach).map
      Served.calls = some [.attach fid aname] := by
  simp only [at_append, length_le, Nat.reduceAdd] at hat
  simp only [List.length_append, length_le, length_putstr hvalid.2]
  rw [serveType, if_neg (by omega), get_at hat.1 hvalid.1, stringAt,
    getstr_putstr hvalid.2 hat.2.2 (by omega), Option.map_some, serveAttach_calls hcb.attach]
  rfl

theorem calls_twalk {fid newfid : Nat} {wname : List CStr} (hcb : cb.Installed)
    (hvalid : (Request.walk tag fid newfid wname).Valid)
    (hready : (Request.walk tag fid newfid wname).Ready srv) {tag' : Nat}
    (hat : At buf 7
      (le 4 fid ++ (le 4 newfid ++ (le 2 wname.length ++ (wname.take 16).flatMap putstr)))) :
    (serveType cb srv tag' buf (7 + (le 4 fid ++ (le 4 newfid ++
      (le 2 wname.length ++ (wname.take 16).flatMap putstr))).length) .twalk).map Served.calls =
      some ((Request.walk tag fid newfid wname).calls srv) := by
  obtain ⟨hfid, hnewfid, hlen, hshort⟩ := hvalid
  rw [List.take_of_length_le hlen] at hat ⊢
  simp only [at_append, length_le, Nat.reduceAdd] at hat
  obtain ⟨hfidAt, hnewfidAt, hcountAt, hnames⟩ := hat
  rw [serveType, get_at hfidAt hfid, get_at hnewfidAt hnewfid,
    get_at hcountAt (Nat.lt_of_le_of_lt hlen (by decide)), Nat.min_eq_left hlen]
  simp only [List.length_append, length_le]
  rw [walkNames_encode wname hshort 17 hnames (by omega)]
  cases wname with
  | nil =>
    obtain ⟨hfid, hnew, hfree⟩ := hready
    obtain ⟨i, hi⟩ := Option.isSome_iff_exists.1 hfid
    rw [serveWalk, hi]
    exact congrArg some (serveClone_calls hcb.clone hnew hfree)
  | cons s wname => exact serveWalk_calls hcb.walk hready (Nat.succ_ne_zero _) _

theorem calls_topen {fid mode : Nat} (hcb : cb.Installed) (hvalid : fid < 2 ^ 32)
    (hready : (fidLookup srv fid).isSome) (hat : At buf 7 (le 4 fid ++ le 1 mode)) :
    (serveType cb srv tag buf size .topen).map Served.calls = some [.open fid (mode % 256)] := by
  rw [at_append, length_le] at hat
  rw [serveType, get_at hat.1 hvalid, hat.2.get, Nat.pow_one, Option.map_some, serveOpen_calls hcb.open hready]

theorem calls_tread {fid offset count : Nat} (hcb : cb.Installed)
    (hvalid : fid < 2 ^ 32 ∧ offset < 2 ^ 64 ∧ count < 2 ^ 32) (hready : (fidLookup srv fid).isSome)
    (hat : At buf 7 (le 4 fid ++ (le 8 offset ++ le 4 count))) :
    (serveType cb srv tag buf size .tread).map Served.calls = some [.read fid offset (min count (readCap srv))] := by
  simp only [at_append, length_le, Nat.reduceAdd] at hat
  obtain ⟨hfid, hoffset, hcount⟩ := hat
  rw [serveType, get_at hfid hvalid.1, get_at hoffset hvalid.2.1, get_at hcount hvalid.2.2,
    Option.map_some, serveRead_calls hcb.read hready]

theorem calls_twrite {fid offset : Nat} {data : List UInt8} (hcb : cb.Installed)
    (hvalid : fid < 2 ^ 32 ∧ offset < 2 ^ 64 ∧ data.length ≤ maxWrite)
    (hready : (fidLookup srv fid).isSome)
    (hat : At buf 7 (le 4 fid ++ (le 8 offset ++ (le 4 data.length ++ data)))) :
    (serveType cb srv tag buf (7 + (le 4 fid ++ (le 8 offset ++ (le 4 data.length ++ data))).length)
      .twrite).map Served.calls = some [.write fid offset data.length data] := by
  simp only [at_append, length_le, Nat.reduceAdd] at hat
  obtain ⟨hfid, hoffset, hcount, hdata⟩ := hat
  simp only [List.length_append, length_le]
  rw [serveType, get_at hfid hvalid.1, get_at hoffset hvalid.2.1,
    get_at hcount (Nat.lt_of_le_of_lt hvalid.2.2 (by decide)), if_neg (by omega), hdata.slice,
    Option.map_some, serveWrite_calls hcb.write hready offset hvalid.2.2]

theorem calls_tclunk {fid : Nat} (hcb : cb.Installed) (hvalid : fid < 2 ^ 32)
    (hready : (fidLookup srv fid).isSome) (hat : At buf 7 (le 4 fid)) :
    (serveType cb srv tag buf size .tclunk).map Served.calls = some [.clunk fid] := by
  rw [serveType, get_at hat hvalid, Option.map_some, serveClunk_calls hcb.clunk hready]

theorem calls_tstat {fid : Nat} (hcb : cb.Installed) (hvalid : fid < 2 ^ 32)
    (hready : (fidLookup srv fid).isSome) (hat : At buf 7 (le 4 fid)) :
    (serveType cb srv tag buf size .tstat).map Served.calls = some [.stat fid] := by
  rw [serveType, get_at hat hvalid, Option.map_some, serveStat_calls hcb.stat hready]

theorem calls_tremove {fid : Nat} (hcb : cb.Installed) (hvalid : fid < 2 ^ 32) (hat : At buf 7 (le 4 fid)) :
    (serveType cb srv tag buf size .tremove).map Served.calls = some [.remove fid] := by
  rw [serveType, get_at hat hvalid, Option.map_some, serveRemove_calls hcb.remove]

theorem calls_tauth {afid : Nat} {uname aname : CStr} (hcb : cb.Installed)
    (hvalid : afid < 2 ^ 32 ∧ Short uname ∧ Short aname)
    (hat : At buf 7 (le 4 afid ++ (putstr uname ++ putstr aname))) :
    (serveType cb srv tag buf (7 + (le 4 afid ++ (putstr uname ++ putstr aname)).length) .tauth).map
      Served.calls = some [.auth afid uname aname] := by
  obtain ⟨hafid, huname, haname⟩ := hvalid
  simp only [at_append, length_le, length_putstr huname, Nat.reduceAdd, ← Nat.add_assoc] at hat
  obtain ⟨hafidAt, hunameAt, hanameAt⟩ := hat
  simp only [List.length_append, length_le, length_putstr huname, length_putstr haname]
  rw [serveType, if_neg (by omega), get_at hafidAt hafid, authNames, getstr_putstr huname hunameAt (by omega)]
  dsimp only
  rw [stringAt, getstr_putstr haname hanameAt (by omega), Option.map_some, serveAuth_calls hcb.auth]
  rfl

theorem calls_tflush {oldtag : Nat} (hcb : cb.Installed) (hvalid : oldtag < 2 ^ 16) (hat : At buf 7 (le 2 oldtag)) :
    (serveType cb srv tag buf (7 + (le 2 oldtag).length) .tflush).map Served.calls = some [.flush oldtag] := by
  rw [length_le, serveType, if_neg (by decide), get_at hat hvalid, Option.map_some, serveFlush_calls hcb.flush]

theorem calls_tcreate {fid perm mode : Nat} {name : CStr} (hcb : cb.Installed)
    (hvalid : fid < 2 ^ 32 ∧ Short name ∧ perm < 2 ^ 32 ∧ mode < 2 ^ 8)
    (hat : At buf 7 (le 4 fid ++ (putstr name ++ (le 4 perm ++ le 1 mode)))) :
    (serveType cb srv tag buf (7 + (le 4 fid ++ (putstr name ++ (le 4 perm ++ le 1 mode))).length)
      .tcreate).map Served.calls = some [.create fid name perm mode] := by
  obtain ⟨hfid, hname, hperm, hmode⟩ := hvalid
  simp only [at_append, length_le, length_putstr hname, Nat.reduceAdd, ← Nat.add_assoc] at hat
  obtain ⟨hfidAt, hnameAt, hpermAt, hmodeAt⟩ := hat
  simp only [List.length_append, length_le, length_putstr hname]
  rw [serveType, if_neg (by omega), getstr_putstr hname hnameAt (by omega)]
  dsimp only
  rw [if_neg (by omega), get_at hfidAt hfid, get_at hpermAt hperm, get_at hmodeAt hmode, Option.map_some,
    serveCreate_calls hcb.create]

theorem calls_twstat {fid : Nat} {dir : Dir} (hcb : cb.Installed) (hvalid : fid < 2 ^ 32 ∧ dir.Valid)
    (hat : At buf 7 (le 4 fid ++ (le 2 dir.bytes.length ++ dir.bytes))) :
    (serveType cb srv tag buf (7 + (le 4 fid ++ (le 2 dir.bytes.length ++ dir.bytes)).length)
      .twstat).map Served.calls = some [.wstat fid { dir with size := 0 }] := by
  simp only [at_append, length_le, Nat.reduceAdd] at hat
  obtain ⟨hfid, -, hdir⟩ := hat
  simp only [List.length_append, length_le]
  rw [serveType, get_at hfid hvalid.1, wstatDir_encode hvalid.2 hdir (by omega), serveWstat_calls hcb.wstat]

theorem length_dirBytes_le {d : Dir} (hd : d.Valid) : d.bytes.length ≤ 1067 := by
  have hname := hd.name.1
  have huid := hd.uid.1
  have hgid := hd.gid.1
  have hmuid := hd.muid.1
  simp only [Dir.bytes, Dir.fixed, List.length_append, length_le, length_putstr hd.name,
    length_putstr hd.uid, length_putstr hd.gid, length_putstr hd.muid]
  omega

/-- **The file system is called with what the client asks for.** -/
theorem serve_encode (cb : Callbacks W) (srv : Server W) (req : Request) (buf : Buf) (inlen : Nat)
    (hcb : cb.Installed) (hvalid : req.Valid) (hready : req.Ready srv) (hat : At buf 0 req.encode)
    (hlen : req.encode.length ≤ inlen) (hmsize : srv.msize = 0 ∨ req.encode.length ≤ srv.msize) :
    (styxServe cb srv buf inlen).map Served.calls = some (req.calls srv) := by
  have hmax : maxMsg = 65536 := rfl
  cases req with
  | version msize version =>
    refine calls_message .tversion hat ?_ hlen hmsize fun _ => calls_tversion
    have := hvalid.1
    simp only [List.length_append, length_le, length_putstr hvalid]
    omega
  | attach tag fid afid aname =>
    refine calls_message .tattach hat ?_ hlen hmsize (calls_tattach hcb hvalid)
    have := hvalid.2.1
    simp only [List.length_append, length_le, length_putstr hvalid.2]
    omega
  | walk tag fid newfid wname =>
    refine calls_message .twalk hat ?_ hlen hmsize (calls_twalk hcb hvalid hready)
    have hnames := length_names_le wname hvalid.2.2.2
    have := hvalid.2.2.1
    rw [List.take_of_length_le hvalid.2.2.1]
    simp only [List.length_append, length_le]
    omega
  | «open» tag fid mode =>
    refine calls_message .topen hat ?_ hlen hmsize (calls_topen hcb hvalid hready)
    simp only [List.length_append, length_le]
    omega
  | read tag fid offset count =>
    refine calls_message .tread hat ?_ hlen hmsize (calls_tread hcb hvalid hready)
    simp only [List.length_append, length_le]
    omega
  | write tag fid offset data =>
    refine calls_message .twrite hat ?_ hlen hmsize (calls_twrite hcb hvalid hready)
    have : data.length ≤ 8192 := hvalid.2.2
    simp only [List.length_append, length_le]
    omega
  | clunk tag fid =>
    refine calls_message .tclunk hat ?_ hlen hmsize (calls_tclunk hcb hvalid hready)
    rw [length_le]
    omega
  | stat tag fid =>
    refine calls_message .tstat hat ?_ hlen hmsize (calls_tstat hcb hvalid hready)
    rw [length_le]
    omega
  | auth tag afid uname aname =>
    refine calls_message .tauth hat ?_ hlen hmsize (calls_tauth hcb hvalid)
    have huname := hvalid.2.1.1
    have haname := hvalid.2.2.1
    simp only [List.length_append, length_le, length_putstr hvalid.2.1, length_putstr hvalid.2.2]
    omega
  | flush tag oldtag =>
    refine calls_message .tflush hat ?_ hlen hmsize (calls_tflush hcb hvalid)
    rw [length_le]
    omega
  | create tag fid name perm mode =>
    refine calls_message .tcreate hat ?_ hlen hmsize (calls_tcreate hcb hvalid)
    have := hvalid.2.1.1
    simp only [List.length_append, length_le, length_putstr hvalid.2.1]
    omega
  | remove tag fid =>
    refine calls_message .tremove hat ?_ hlen hmsize (calls_tremove hcb hvalid)
    rw [length_le]
    omega
  | wstat tag fid dir =>
    refine calls_message .twstat hat ?_ hlen hmsize (calls_twstat hcb hvalid)
    have := length_dirBytes_le hvalid.2
    simp only [List.length_append, length_le]
    omega

theorem installed_idle (W : Type) : (idleCallbacks W).Installed := by
  constructor <;> rfl

/-- A server with fid 0, and a message size of 64 KB. -/
def fidZero : Server Unit := { oneFid Unit 0 with msize := maxMsg }

theorem isSome_fidZero : (fidLookup fidZero 0).isSome := isSome_oneFid (W := Unit) 0

/-- The message in a buffer of its own. -/
def Request.memory (req : Request) : Buf := fun i => req.encode.getD i 0

/-- A byte is written. -/
theorem serve_encode_write :
    (styxServe (idleCallbacks Unit) fidZero (Request.write 1 0 0 [7]).memory 24).map Served.calls =
      some [.write 0 0 1 [7]] :=
  serve_encode (idleCallbacks Unit) fidZero (.write 1 0 0 [7]) _ 24 (installed_idle Unit)
    ⟨by decide, by decide, by decide⟩ isSome_fidZero (at_getD _) (by decide) (Or.inr (by decide))

/-- A read of 8193 bytes is asked for, and the file system is asked for 8192. -/
theorem read_capped : (Request.read 1 0 0 8193).Valid ∧ (Request.read 1 0 0 8193).Ready fidZero ∧
      (styxServe (idleCallbacks Unit) fidZero (Request.read 1 0 0 8193).memory 23).map Served.calls ≠
        some [.read 0 0 8193] := by
  have hvalid : (Request.read 1 0 0 8193).Valid := ⟨by decide, by decide, by decide⟩
  refine ⟨hvalid, isSome_fidZero, ?_⟩
  have hcalls : (styxServe (idleCallbacks Unit) fidZero (Request.read 1 0 0 8193).memory 23).map
      Served.calls = some [.read 0 0 8192] := by
    decide
  rw [hcalls]
  decide

end WuBuOS.Styx
