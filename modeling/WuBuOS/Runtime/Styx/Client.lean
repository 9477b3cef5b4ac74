import WuBuOS.Runtime.Styx.Encode

/-!
# Taking requests apart on the client side

`runtime/styx_parse.c`.  Each of these functions takes apart the message that one of the functions of
`runtime/styx_enc.c` builds.  `roundTrip_iff` says of which messages they give back what was put in.  The shortest
messages of two kinds are refused: a walk that names nothing has 17 bytes and a write of no data 23, where 18 and 24
are asked for.  All others are accepted, as long as the length of the message does not wrap; a mode is cut to the one
byte that there is for it.
-/

namespace WuBuOS.Styx

open Bytes

/-! ## The parsers -/

/-- `(int)len - pos`, as far as `styx_getstr` can use it: a length that is negative as an `int` is too small. -/
def avail (len : UInt32) (pos : Nat) : Nat := if len.toNat < 2 ^ 31 then len.toNat - pos else 0

/-- The guard that the parsers have in common. -/
def accepts (buf : Option Buf) (len : UInt32) (shortest code : Nat) : Option Buf :=
  buf.bind fun buf => if len.toNat < shortest ∨ get buf 4 1 ≠ code then none else some buf

/-- What a message is taken apart into.  A string that cannot be read is missing. -/
inductive Fields
  | attach (fid afid : Nat) (aname : Option CStr)
  | walk (fid newfid nwname : Nat) (wnames : List CStr)
  | open (fid : Nat) (mode : Int)
  | read (fid offset count : Nat)
  | write (fid offset count : Nat) (data : List UInt8)
  | clunk (fid : Nat)
  | stat (fid : Nat)
  deriving DecidableEq, Repr

/-- `styx_parse_attach`; `outs` says that there is a place for each of the results. -/
def styxParseAttach (buf : Option Buf) (len : UInt32) (outs : Bool) : Option Fields :=
  if outs then
    (accepts buf len 17 104).map fun buf =>
      .attach (get buf 7 4) (get buf 11 4) ((getstr buf 15 maxFname (avail len 15)).map Prod.fst)
  else none

def styxParseOpen (buf : Option Buf) (len : UInt32) : Option Fields :=
  (accepts buf len 12 112).map fun buf => .open (get buf 7 4) (get buf 11 1)

def styxParseRead (buf : Option Buf) (len : UInt32) : Option Fields :=
  (accepts buf len 23 116).map fun buf => .read (get buf 7 4) (get buf 11 8) (get buf 19 4)

/-- `styx_parse_write`, and what is at the data pointer that it gives. -/
def styxParseWrite (buf : Option Buf) (len : UInt32) : Option Fields :=
  (accepts buf len 24 118).map fun buf =>
    .write (get buf 7 4) (get buf 11 8) (get buf 19 4) (slice buf 23 (get buf 19 4))

def styxParseClunk (buf : Option Buf) (len : UInt32) : Option Fields :=
  (accepts buf len 11 120).map fun buf => .clunk (get buf 7 4)

def styxParseStat (buf : Option Buf) (len : UInt32) : Option Fields :=
  (accepts buf len 11 124).map fun buf => .stat (get buf 7 4)

/-- The names from a place in the message on, up to the first that cannot be read. -/
def wnamesFrom (buf : Buf) (len : UInt32) : Nat → Nat → List CStr
  | _, 0 => []
  | pos, n + 1 =>
    match getstr buf pos maxFname (avail len pos) with
    | none => []
    | some (s, pos) => s :: wnamesFrom buf len pos n

def styxParseWalk (buf : Option Buf) (len : UInt32) : Option Fields :=
  (accepts buf len 18 110).map fun buf =>
    .walk (get buf 7 4) (get buf 11 4) (min (get buf 15 2) 16) (wnamesFrom buf len 17 (min (get buf 15 2) 16))

/-! ## Messages -/

/-- What a client puts into a message. -/
inductive Sent
  | attach (fid afid : UInt32) (aname : CStr)
  | walk (fid newfid : UInt32) (wname : List CStr)
  | open (fid : UInt32) (mode : Int32)
  | read (fid : UInt32) (offset : UInt64) (count : UInt32)
  | write (fid : UInt32) (offset : UInt64) (data : List UInt8)
  | clunk (fid : UInt32)
  | stat (fid : UInt32)
  deriving DecidableEq

/-- The message that is built from it. -/
def Sent.build (tag : UInt16) : Sent → List UInt8
  | .attach fid afid aname => buildTattach tag.toNat fid.toNat afid.toNat aname
  | .walk fid newfid wname => buildTwalk tag.toNat fid.toNat newfid.toNat wname
  | .open fid mode => buildTopen tag.toNat fid.toNat (mode.toInt % 256).toNat
  | .read fid offset count => buildTread tag.toNat fid.toNat offset.toNat count.toNat
  | .write fid offset data => buildTwrite tag.toNat fid.toNat offset.toNat data
  | .clunk fid => buildTclunk tag.toNat fid.toNat
  | .stat fid => buildTstat tag.toNat fid.toNat

/-- `*len`, as a function of `styx_enc.c` leaves it. -/
def Sent.len (tag : UInt16) (m : Sent) : UInt32 := UInt32.ofNat (m.build tag).length

/-- The parser that belongs to it. -/
def Sent.parse (m : Sent) (buf : Option Buf) (len : UInt32) : Option Fields :=
  match m with
  | .attach _ _ _ => styxParseAttach buf len true
  | .walk _ _ _ => styxParseWalk buf len
  | .open _ _ => styxParseOpen buf len
  | .read _ _ _ => styxParseRead buf len
  | .write _ _ _ => styxParseWrite buf len
  | .clunk _ => styxParseClunk buf len
  | .stat _ => styxParseStat buf len

/-- The fields that it has been built from. -/
def Sent.fields : Sent → Fields
  | .attach fid afid aname => .attach fid.toNat afid.toNat (some aname)
  | .walk fid newfid wname => .walk fid.toNat newfid.toNat wname.length wname
  | .open fid mode => .open fid.toNat mode.toInt
  | .read fid offset count => .read fid.toNat offset.toNat count.toNat
  | .write fid offset data => .write fid.toNat offset.toNat data.length data
  | .clunk fid => .clunk fid.toNat
  | .stat fid => .stat fid.toNat

/-- Names have at most 255 bytes, and there are at most 16; the length of the data is a `uint32_t`. -/
def Sent.Legal : Sent → Prop
  | .attach _ _ aname => Short aname
  | .walk _ _ wname => wname.length ≤ 16 ∧ ∀ s ∈ wname, Short s
  | .write _ _ data => data.length < 2 ^ 32
  | _ => True

/-- **There is something to walk, or to write**, the length of the message does not wrap, and the mode is a byte. -/
def Sent.Fits : Sent → Prop
  | .walk _ _ wname => wname ≠ []
  | .open _ mode => 0 ≤ mode.toInt ∧ mode.toInt < 256
  | .write _ _ data => data ≠ [] ∧ 23 + data.length < 2 ^ 32
  | _ => True

/-! ## Taking apart what has been built -/

variable {buf : Buf} {tag : UInt16} {len : UInt32} {code shortest pos : Nat} {body : List UInt8}

/-- The type of a message is read back. -/
theorem at_header {n : Nat} (hat : At buf 0 (message code n body)) (hcode : code < 256) :
    get buf 4 1 = code ∧ At buf 7 body := by
  rw [message, at_append, length_le, At, at_append, length_le] at hat
  obtain ⟨-, htype, -, hbody⟩ := hat
  refine ⟨?_, hbody⟩
  show (buf 4).toNat + 256 * 0 = code
  rw [show buf 4 = UInt8.ofNat code from htype]
  exact UInt8.toNat_ofNat_of_lt' hcode

/-- A message that is long enough is accepted by its parser. -/
theorem accepts_of_le {n : Nat} (hat : At buf 0 (message code n body)) (hcode : code < 256)
    (hlen : shortest ≤ len.toNat) : accepts (some buf) len shortest code = some buf := by
  obtain ⟨htype, -⟩ := at_header hat hcode
  exact if_neg (not_or.2 ⟨Nat.not_lt.2 hlen, not_not.2 htype⟩)

theorem accepts_of_lt (h : len.toNat < shortest) : accepts (some buf) len shortest code = none := if_pos (Or.inl h)

theorem avail_of_lt (h : len.toNat < 2 ^ 31) : avail len pos = len.toNat - pos := if_pos h

/-- The length of a message, if it does not wrap. -/
theorem toNat_len {n : Nat} (h : n < 2 ^ 32) : (UInt32.ofNat n).toNat = n := UInt32.toNat_ofNat_of_lt h

theorem attach_roundTrip {fid afid : UInt32} {aname : CStr} (hname : Short aname)
    (hat : At buf 0 (buildTattach tag.toNat fid.toNat afid.toNat aname)) :
    styxParseAttach (some buf) (Sent.len tag (.attach fid afid aname)) true =
      some (.attach fid.toNat afid.toNat (some aname)) := by
  have hlen : (buildTattach tag.toNat fid.toNat afid.toNat aname).length = 17 + aname.length := by
    simp only [buildTattach, length_message, List.length_append, length_le, length_putstr hname]
    omega
  have h255 := hname.1
  have hto : (Sent.len tag (.attach fid afid aname)).toNat = 17 + aname.length :=
    (congrArg (fun n => (UInt32.ofNat n).toNat) hlen).trans (toNat_len (by omega))
  obtain ⟨-, hbody⟩ := at_header hat (by decide)
  simp only [at_append, length_le] at hbody
  obtain ⟨hfid, hafid, haname⟩ := hbody
  rw [styxParseAttach, if_pos rfl, accepts_of_le hat (by decide) (by omega), Option.map_some,
    get_at hfid fid.toNat_lt, get_at hafid afid.toNat_lt, avail_of_lt (by omega),
    getstr_putstr hname haname (by omega)]
  rfl

variable {fid newfid : UInt32}

theorem open_roundTrip {mode : Int32} (hat : At buf 0 (buildTopen tag.toNat fid.toNat (mode.toInt % 256).toNat)) :
    styxParseOpen (some buf) (Sent.len tag (.open fid mode)) = some (.open fid.toNat (mode.toInt % 256)) := by
  obtain ⟨-, hbody⟩ := at_header hat (by decide)
  simp only [at_append, length_le] at hbody
  obtain ⟨hfid, hmode⟩ := hbody
  have hto : (Sent.len tag (.open fid mode)).toNat = 12 := by
    simp [Sent.len, Sent.build, buildTopen, length_message]
  have hpos : 0 ≤ mode.toInt % 256 := Int.emod_nonneg _ (by decide)
  rw [styxParseOpen, accepts_of_le hat (by decide) (by omega), Option.map_some, get_at hfid fid.toNat_lt,
    get_at hmode (by omega), Int.toNat_of_nonneg hpos]

theorem read_roundTrip {fid count : UInt32} {offset : UInt64}
    (hat : At buf 0 (buildTread tag.toNat fid.toNat offset.toNat count.toNat)) :
    styxParseRead (some buf) (Sent.len tag (.read fid offset count)) =
      some (.read fid.toNat offset.toNat count.toNat) := by
  obtain ⟨-, hbody⟩ := at_header hat (by decide)
  simp only [at_append, length_le] at hbody
  obtain ⟨hfid, hoffset, hcount⟩ := hbody
  have hto : (Sent.len tag (.read fid offset count)).toNat = 23 := by
    simp [Sent.len, Sent.build, buildTread, length_message]
  rw [styxParseRead, accepts_of_le hat (by decide) (by omega), Option.map_some, get_at hfid fid.toNat_lt,
    get_at hoffset offset.toNat_lt, get_at hcount count.toNat_lt]

theorem clunk_roundTrip (hat : At buf 0 (buildTclunk tag.toNat fid.toNat)) :
    styxParseClunk (some buf) (Sent.len tag (.clunk fid)) = some (.clunk fid.toNat) := by
  obtain ⟨-, hfid⟩ := at_header hat (by decide)
  have hto : (Sent.len tag (.clunk fid)).toNat = 11 := by
    simp [Sent.len, Sent.build, buildTclunk, length_message]
  rw [styxParseClunk, accepts_of_le hat (by decide) (by omega), Option.map_some, get_at hfid fid.toNat_lt]

theorem stat_roundTrip (hat : At buf 0 (buildTstat tag.toNat fid.toNat)) :
    styxParseStat (some buf) (Sent.len tag (.stat fid)) = some (.stat fid.toNat) := by
  obtain ⟨-, hfid⟩ := at_header hat (by decide)
  have hto : (Sent.len tag (.stat fid)).toNat = 11 := by
    simp [Sent.len, Sent.build, buildTstat, length_message]
  rw [styxParseStat, accepts_of_le hat (by decide) (by omega), Option.map_some, get_at hfid fid.toNat_lt]

theorem len_write (tag : UInt16) (fid : UInt32) (offset : UInt64) (data : List UInt8) :
    (Sent.len tag (.write fid offset data)).toNat = (23 + data.length) % 2 ^ 32 := by
  simp only [Sent.len, Sent.build, buildTwrite, length_message, List.length_append, length_le]
  rw [show 7 + (4 + (8 + (4 + data.length))) = 23 + data.length by omega]
  exact UInt32.toNat_ofNat'

/-- **A write is taken apart again**, unless it is too short. -/
theorem write_roundTrip {offset : UInt64} {data : List UInt8} (hdata : data.length < 2 ^ 32)
    (hat : At buf 0 (buildTwrite tag.toNat fid.toNat offset.toNat data)) :
    styxParseWrite (some buf) (Sent.len tag (.write fid offset data)) =
      if 24 ≤ (23 + data.length) % 2 ^ 32 then some (.write fid.toNat offset.toNat data.length data) else none := by
  obtain ⟨-, hbody⟩ := at_header hat (by decide)
  simp only [at_append, length_le] at hbody
  obtain ⟨hfid, hoffset, hcount, hbytes⟩ := hbody
  have hto := len_write tag fid offset data
  rw [styxParseWrite]
  split
  · rw [accepts_of_le hat (by decide) (by omega), Option.map_some, get_at hfid fid.toNat_lt,
      get_at hoffset offset.toNat_lt, get_at hcount hdata, hbytes.slice]
  · rw [accepts_of_lt (by omega)]
    rfl

theorem length_build_walk {wname : List CStr} (hn : wname.length ≤ 16) :
    (buildTwalk tag.toNat fid.toNat newfid.toNat wname).length = 17 + (wname.flatMap putstr).length := by
  simp only [buildTwalk, length_message, List.length_append, length_le, List.take_of_length_le hn]
  omega

/-- The names are read back. -/
theorem wnamesFrom_putstr (wname : List CStr) (hs : ∀ s ∈ wname, Short s) (hlt : len.toNat < 2 ^ 31) :
    ∀ pos, At buf pos (wname.flatMap putstr) → pos + (wname.flatMap putstr).length ≤ len.toNat →
      wnamesFrom buf len pos wname.length = wname := by
  induction wname with
  | nil => exact fun _ _ _ => rfl
  | cons s wname ih =>
    intro pos hat hsize
    have hshort := hs s List.mem_cons_self
    rw [List.flatMap_cons, at_append, length_putstr hshort, ← Nat.add_assoc] at hat
    rw [List.flatMap_cons, List.length_append, length_putstr hshort] at hsize
    rw [List.length_cons, wnamesFrom, avail_of_lt hlt, getstr_putstr hshort hat.1 (by omega)]
    dsimp only
    rw [ih (fun t ht => hs t (List.mem_cons_of_mem s ht)) _ hat.2 (by omega)]

/-- **A walk is taken apart again**, unless it is too short. -/
theorem walk_roundTrip {wname : List CStr} (hn : wname.length ≤ 16)
    (hs : ∀ s ∈ wname, Short s) (hat : At buf 0 (buildTwalk tag.toNat fid.toNat newfid.toNat wname)) :
    styxParseWalk (some buf) (Sent.len tag (.walk fid newfid wname)) =
      if wname ≠ [] then some (.walk fid.toNat newfid.toNat wname.length wname) else none := by
  have hnames := length_names_le wname hs
  have hto : (Sent.len tag (.walk fid newfid wname)).toNat = 17 + (wname.flatMap putstr).length :=
    (congrArg (fun n => (UInt32.ofNat n).toNat) (length_build_walk hn)).trans (toNat_len (by omega))
  obtain ⟨-, hbody⟩ := at_header hat (by decide)
  simp only [at_append, length_le, List.take_of_length_le hn] at hbody
  obtain ⟨hfid, hnewfid, hcount, hwname⟩ := hbody
  rw [styxParseWalk]
  split
  · rename_i hne
    have hpos : 0 < (wname.flatMap putstr).length := by
      obtain ⟨s, rest, rfl⟩ := List.exists_cons_of_ne_nil hne
      rw [List.flatMap_cons, List.length_append, length_putstr (hs s List.mem_cons_self)]
      omega
    rw [accepts_of_le hat (by decide) (by omega), Option.map_some, get_at hfid fid.toNat_lt,
      get_at hnewfid newfid.toNat_lt, get_at hcount (by omega), Nat.min_eq_left hn,
      wnamesFrom_putstr wname hs (by omega) _ hwname (by omega)]
  · rename_i hempty
    obtain rfl : wname = [] := not_not.1 hempty
    rw [accepts_of_lt (by rw [hto]; decide)]
    rfl

/-- **When a message is taken apart again into what it was built from.** -/
theorem roundTrip_iff (m : Sent) (hm : m.Legal) (tag : UInt16) (buf : Buf) (hat : At buf 0 (m.build tag)) :
    m.parse (some buf) (m.len tag) = some m.fields ↔ m.Fits := by
  cases m with
  | attach fid afid aname => exact iff_of_true (attach_roundTrip hm hat) trivial
  | walk fid newfid wname =>
    refine (Eq.congr_left (walk_roundTrip hm.1 hm.2 hat)).trans ?_
    simp [Sent.fields, Sent.Fits]
  | «open» fid mode =>
    refine (Eq.congr_left (open_roundTrip hat)).trans ?_
    simp only [Sent.fields, Sent.Fits, Option.some.injEq, Fields.open.injEq, true_and]
    omega
  | read fid offset count => exact iff_of_true (read_roundTrip hat) trivial
  | write fid offset data =>
    have hdata : data.length < 2 ^ 32 := hm
    refine (Eq.congr_left (write_roundTrip hm hat)).trans ?_
    simp only [Sent.fields, Sent.Fits, Option.ite_none_right_eq_some, and_true, ← List.length_pos_iff]
    omega
  | clunk fid => exact iff_of_true (clunk_roundTrip hat) trivial
  | stat fid => exact iff_of_true (stat_roundTrip hat) trivial

/-- A walk along one name. -/
theorem roundTrip_iff_walk :
    Sent.parse (.walk 1 2 [text "usr"]) (some fun i => (Sent.build 7 (.walk 1 2 [text "usr"])).getD i 0)
        (Sent.len 7 (.walk 1 2 [text "usr"])) = some (.walk 1 2 1 [text "usr"]) := by
  have hlegal : (Sent.walk 1 2 [text "usr"]).Legal := by
    refine ⟨by decide, fun s hs => ?_⟩
    obtain rfl := List.mem_singleton.1 hs
    exact ⟨by decide, by decide⟩
  exact (roundTrip_iff _ hlegal 7 _ (at_getD _)).2 (List.cons_ne_nil (text "usr") [])

/-- **The shortest messages are refused**: a walk that names nothing, and a write of no data. -/
theorem shortest_refused : Sent.parse (.walk 1 2 []) (some fun i => (Sent.build 7 (.walk 1 2 [])).getD i 0)
        (Sent.len 7 (.walk 1 2 [])) = none ∧
      Sent.parse (.write 1 0 []) (some fun i => (Sent.build 7 (.write 1 0 [])).getD i 0)
        (Sent.len 7 (.write 1 0 [])) = none := by
  decide

end WuBuOS.Styx
