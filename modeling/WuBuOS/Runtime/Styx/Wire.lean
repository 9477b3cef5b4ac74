import WuBuOS.Lib.Bytes

/-!
# The wire format of 9P

`runtime/styx.h`, `runtime/styx_internal.h` and `runtime/styx_names.c`.  A message is its size, its type
and a tag, and then its fields: little-endian numbers, and strings with their length before them.

`styx_getstr` reads a string from a message that may be shorter than the string says, into a buffer that
may be too small for it; what is read is cut to fit both.
-/

namespace WuBuOS.Styx

open Bytes

/-- A message as it comes in; what is behind its end is whatever is in memory there. -/
abbrev Buf := Nat → UInt8

/-- A C string, without the zero at its end. -/
abbrev CStr := List UInt8

/-- `STYX_MAX_MSG`. -/
def maxMsg : Nat := 64 * 1024

/-- `STYX_MAX_FNAME`. -/
def maxFname : Nat := 256

/-- `STYX_MAX_WRITE`. -/
def maxWrite : Nat := 8 * 1024

/-- `STYX_MAX_DATA`. -/
def maxData : Nat := 8 * 1024

/-- The types of the messages that a client sends. -/
inductive TType
  | tversion
  | tauth
  | tattach
  | tflush
  | twalk
  | topen
  | tcreate
  | tread
  | twrite
  | tclunk
  | tremove
  | tstat
  | twstat
  deriving DecidableEq, Repr

/-- The number that stands for a type. -/
def TType.code : TType → Nat
  | .tversion => 100
  | .tauth => 102
  | .tattach => 104
  | .tflush => 108
  | .twalk => 110
  | .topen => 112
  | .tcreate => 114
  | .tread => 116
  | .twrite => 118
  | .tclunk => 120
  | .tremove => 122
  | .tstat => 124
  | .twstat => 126

/-- The type that a number stands for. -/
def TType.ofCode : Nat → Option TType
  | 100 => some .tversion
  | 102 => some .tauth
  | 104 => some .tattach
  | 108 => some .tflush
  | 110 => some .twalk
  | 112 => some .topen
  | 114 => some .tcreate
  | 116 => some .tread
  | 118 => some .twrite
  | 120 => some .tclunk
  | 122 => some .tremove
  | 124 => some .tstat
  | 126 => some .twstat
  | _ => none

theorem TType.ofCode_code (t : TType) : ofCode t.code = some t := by
  cases t
  all_goals rfl

/-- `STX_RERROR`. -/
def rerror : Nat := 107

/-- `styx_write_header`, and what comes behind the header. -/
def message (type tag : Nat) (body : List UInt8) : List UInt8 :=
  le 4 (7 + body.length) ++ (UInt8.ofNat type :: (le 2 tag ++ body))

theorem length_message (type tag : Nat) (body : List UInt8) : (message type tag body).length = 7 + body.length := by
  simp only [message, List.length_append, List.length_cons, length_le]
  omega

/-- `styx_putstr`. -/
def putstr (s : CStr) : List UInt8 :=
  let n := min (s.length % 2 ^ 16) (maxFname - 1)
  le 2 n ++ s.take n

/-- `styx_getstr`: the string as it is used afterwards, which ends at the first zero in it, and where
it ends in the message; nothing if there is no room for its length. -/
def getstr (buf : Buf) (pos outsz avail : Nat) : Option (CStr × Nat) :=
  if avail < 2 then none
  else
    let n := min (min (get buf pos 2) (outsz - 1)) (avail - 2)
    some ((slice buf (pos + 2) n).takeWhile (· ≠ 0), pos + 2 + n)

/-- A text of the source. -/
def text (s : String) : CStr := s.toList.map fun c => UInt8.ofNat c.toNat

def styxError (tag : Nat) (msg : CStr) : List UInt8 := message rerror tag (putstr msg)

/-- `styx_errno_ename`. -/
def errnoEname : Nat → CStr
  | 0 => text "no error"
  | 1 => text "permission denied"
  | 13 => text "permission denied"
  | 2 => text "no such file or directory"
  | 17 => text "file already exists"
  | 20 => text "not a directory"
  | 21 => text "is a directory"
  | 30 => text "read-only filesystem"
  | 28 => text "no space left on device"
  | 36 => text "file name too long"
  | 40 => text "too many symbolic links"
  | 18 => text "cross-device link"
  | 39 => text "directory not empty"
  | 16 => text "resource busy"
  | 4 => text "interrupted"
  | 11 => text "resource temporarily unavailable"
  | 9 => text "bad file descriptor"
  | 24 => text "too many open files in process"
  | 23 => text "too many open files in system"
  | 22 => text "invalid argument"
  | 5 => text "input/output error"
  | 95 => text "operation not supported"
  | 75 => text "value too large"
  | _ => text "unknown error"

/-- The text for a callback that has failed: what `errno` says, if it says anything. -/
def failure (errno : Nat) (msg : String) : CStr := if errno ≠ 0 then errnoEname errno else text msg

/-! ## Files -/

/-- `styx_qid_t`. -/
structure Qid where
  type : Nat
  version : Nat
  path : Nat
  deriving DecidableEq, Repr

/-- `styx_dir_t`. -/
structure Dir where
  size : Nat
  type : Nat
  dev : Nat
  qid : Qid
  mode : Nat
  atime : Nat
  mtime : Nat
  length : Nat
  name : CStr
  uid : CStr
  gid : CStr
  muid : CStr
  deriving DecidableEq, Repr

/-- A qid in a message. -/
def Qid.bytes (q : Qid) : List UInt8 := le 1 q.type ++ le 4 q.version ++ le 8 q.path

/-- The numbers of a directory entry in a message. -/
def Dir.fixed (d : Dir) : List UInt8 :=
  le 2 d.type ++ (le 4 d.dev ++ (le 1 d.qid.type ++ (le 4 d.qid.version ++ (le 8 d.qid.path ++
    (le 4 d.mode ++ (le 4 d.atime ++ (le 4 d.mtime ++ le 8 d.length)))))))

/-- A directory entry in a message. -/
def Dir.bytes (d : Dir) : List UInt8 :=
  d.fixed ++ (putstr d.name ++ (putstr d.uid ++ (putstr d.gid ++ putstr d.muid)))

/-! ## Reading -/

variable {buf buf' : Buf} {pos outsz avail : Nat}

/-- A string depends on the bytes that are there only. -/
theorem getstr_congr (h : ∀ i < pos + avail, buf' i = buf i) :
    getstr buf' pos outsz avail = getstr buf pos outsz avail := by
  rw [getstr, getstr]
  split
  · rfl
  · have hlen : get buf' pos 2 = get buf pos 2 := get_congr fun x _ hx => h x (by omega)
    dsimp only
    rw [hlen]
    congr 2
    congr 1
    refine slice_congr fun i hi => h _ ?_
    omega

end WuBuOS.Styx
