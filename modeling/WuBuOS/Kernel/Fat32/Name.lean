import WuBuOS.Kernel.Fat32.Volume
import Mathlib.Data.List.DropRight

/-!
# Names

`kernel/fat32_name.c` and `kernel/wubu_lfn.c`.  A directory entry has room for a name of eight
characters and an extension of three, padded with blanks.  A longer name, or one with lower case
letters, is kept in addition in entries of its own before the entry it belongs to, thirteen characters
in each.

A C string is the list of its bytes, without the zero at its end.
-/

namespace WuBuOS.Fat32

open Bytes

def toupper (c : UInt8) : UInt8 := if 97 ≤ c ∧ c ≤ 122 then c - 32 else c

/-- `' '`. -/
def blank : UInt8 := 32

/-- `'.'`. -/
def dot : UInt8 := 46

/-- What a C function reads of a string: the bytes before the first zero. -/
def cString (s : List UInt8) : List UInt8 := s.takeWhile (· ≠ 0)

/-- Pad with blanks to a length. -/
def padTo (n : Nat) (s : List UInt8) : List UInt8 := s ++ List.replicate (n - s.length) blank

def nameTo83 (src : List UInt8) : List UInt8 :=
  if src = [dot] then padTo 11 [dot]
  else if src = [dot, dot] then padTo 11 [dot, dot]
  else
    let base := (src.take 8).takeWhile (· ≠ dot)
    let rest := src.drop base.length
    let rest := if rest.head? = some dot then rest.tail else rest
    padTo 8 (base.map toupper) ++ padTo 3 ((rest.take 3).map toupper)

/-- Without the blanks at the end. -/
def trimBlanks (s : List UInt8) : List UInt8 := s.rdropWhile (· = blank)

/-- `name_from_83`, into a buffer that is large enough. -/
def nameFrom83 (name83 : List UInt8) : List UInt8 :=
  let base := trimBlanks (name83.take 8)
  let ext := trimBlanks (name83.drop 8)
  if ext ≠ [] ∧ name83.head? ≠ some dot then base ++ dot :: ext else base

/-- `lfn_checksum`, which is also `wubu_lfn_checksum`. -/
def lfnChecksum (name83 : List UInt8) : UInt8 :=
  name83.foldl
    (fun (sum c : UInt8) => (if sum &&& 1 = 1 then (0x80 : UInt8) else 0) + (sum >>> 1) + c) 0

/-- `name_cmp(a, b) == 0`. -/
def nameEq (a b : List UInt8) : Bool := (cString a).map toupper == (cString b).map toupper

/-! ## Long names -/

/-- `WUBU_LFN_CHARS_PER_ENTRY`. -/
def lfnChars : Nat := 13

/-- `WUBU_LFN_MAX_NAME`. -/
def lfnMaxName : Nat := 260

/-- `WUBU_LFN_MAX_ENTRIES`. -/
def lfnMaxEntries : Nat := 20

/-- `FAT32_ATTR_LFN`. -/
def attrLfn : Nat := 0x0F

/-- Where the `i`-th character of a long-name entry is. -/
def lfnCharPos (i : Nat) : Nat :=
  if i < 5 then 1 + 2 * i else if i < 11 then 14 + 2 * (i - 5) else 28 + 2 * (i - 11)

/-- The `i`-th character that a chunk puts in its entry. -/
def lfnChar (chunk : List UInt8) (i : Nat) : Nat :=
  if i < chunk.length then (chunk.getD i 0).toNat else if i = chunk.length then 0 else 0xFFFF

/-- `wubu_lfn_encode_chunk`, of the chunk number `offset`. -/
def wubuLfnEncodeChunk (chunk : List UInt8) (offset totalEntries : Nat) (checksum : UInt8) : Buf :=
  let ordinal := offset + 1 + if offset + 1 = totalEntries then 0x40 else 0
  let entry := put (put (put (fun _ => 0) 0 1 ordinal) 11 1 attrLfn) 13 1 checksum.toNat
  (List.range lfnChars).foldl (fun e i => put e (lfnCharPos i) 2 (lfnChar chunk i)) entry

/-- The name needs entries of its own: it is long, or has lower case letters. -/
def needsLfn (name : List UInt8) : Bool :=
  name.length > 12 || name.any fun c => 97 ≤ c && c ≤ 122

/-- The 8.3 name that `wubu_lfn_build_entries` computes the checksum of. -/
def lfn83 (name : List UInt8) : List UInt8 :=
  let base := (name.take 8).takeWhile (· ≠ dot)
  let rest := name.drop base.length
  let ext := if rest.head? = some dot then rest.tail.take 3 else []
  padTo 8 (base.map toupper) ++ padTo 3 (ext.map toupper)

/-- `wubu_lfn_build_entries`: the entries in the order they have on disk, the last chunk first. -/
def wubuLfnBuildEntries (name : List UInt8) : List Buf :=
  if name.length = 0 ∨ lfnMaxName < name.length then []
  else if needsLfn name then
    let total := min ((name.length + lfnChars - 1) / lfnChars) lfnMaxEntries
    let checksum := lfnChecksum (lfn83 name)
    (List.range total).reverse.map fun k =>
      wubuLfnEncodeChunk ((name.drop (k * lfnChars)).take lfnChars) k total checksum
  else []

end WuBuOS.Fat32
