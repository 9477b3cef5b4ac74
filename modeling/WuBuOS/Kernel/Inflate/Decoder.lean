import Mathlib.Data.Int.NatAbs

/-!
# The inflater

`wubu_inflate.c` decodes a DEFLATE stream straight into the caller's buffer.  It reads the source
through a bit reader (`Br`), which holds the bits that were fetched and not yet used, the next one
lowest, and feeds zero bits behind the end of the source.  Code words are decoded one bit at a time
from the number of words of each length and the symbols sorted by length (`Huff`).

The bytes written so far are the list `out`; the sink refuses a byte behind the capacity with `-2`,
and everything else that is wrong is `-1`.  The loops of the source that are bounded by what they
read run on a fuel that covers their longest run: a round of `brFill` adds eight bits, one of
`readLengths` at least one length, and one of `blockDecode` at least one byte of output.
-/

namespace WuBuOS.Inflate

/-! ## The bit reader -/

/-- `wubu_br`; `len` is the length of the data. -/
structure Br where
  /-- The source. -/
  data : List UInt8
  /-- The next byte of it to fetch. -/
  pos : Nat
  /-- The bits fetched and not yet used. -/
  bitbuf : Nat
  /-- How many they are. -/
  bitcnt : Nat

/-- One round of the loop in `br_get`: eight more bits, zeros at the end of the data. -/
def brFetch (b : Br) : Br :=
  if b.data.length ≤ b.pos then { b with bitcnt := b.bitcnt + 8 }
  else
    { b with
      bitbuf := b.bitbuf ||| (b.data.getD b.pos 0).toNat <<< b.bitcnt
      pos := b.pos + 1
      bitcnt := b.bitcnt + 8 }

/-- Fetch until there are `n` bits. -/
def brFill (n : Nat) : Nat → Br → Br
  | 0, b => b
  | k + 1, b => if b.bitcnt < n then brFill n k (brFetch b) else b

def brGet (b : Br) (n : Nat) : Nat × Br :=
  let b := brFill n n b
  (b.bitbuf &&& (1 <<< n - 1), { b with bitbuf := b.bitbuf >>> n, bitcnt := b.bitcnt - n })

def brAlign (b : Br) : Br := { b with bitbuf := 0, bitcnt := 0 }

/-! ## Codes -/

/-- `wubu_huff`. -/
structure Huff where
  /-- The number of words of each length. -/
  cnt : Nat → Nat
  /-- The symbols, by length. -/
  sym : Nat → Nat

/-- `cnt[i] = v`. -/
def store (f : Nat → Nat) (i v : Nat) : Nat → Nat := fun x => if x = i then v else f x

/-- The counts of `huff_build`; symbols without a word do not count. -/
def huffCnt (lengths : List Nat) (len : Nat) : Nat := if len = 0 then 0 else lengths.count len

/-- The words of each length in turn, from the room `left` by those before; there is no result when
they need more. -/
def huffLeft (cnt : Nat → Nat) : Nat → Nat → Nat → Option Nat
  | 0, _, left => some left
  | k + 1, len, left =>
    if 2 * left < cnt len then none else huffLeft cnt k (len + 1) (2 * left - cnt len)

/-- Where the symbols of each length start. -/
def huffOffs (cnt : Nat → Nat) : Nat → Nat
  | 0 => 0
  -- `cnt[0]` is zero, and so is `offs[1]`
  | len + 1 => huffOffs cnt len + cnt len

/-- The second loop of `huff_build`: put each symbol in the next place of its length. -/
def huffSort : List Nat → Nat → (Nat → Nat) → (Nat → Nat) → Nat → Nat
  | [], _, _, sym => sym
  | len :: ls, i, offs, sym =>
    if len = 0 then huffSort ls (i + 1) offs sym
    else huffSort ls (i + 1) (store offs len (offs len + 1)) (store sym (offs len) i)

def huffBuild (lengths : List Nat) : Except Int Huff :=
  let cnt := huffCnt lengths
  match huffLeft cnt 15 1 1 with
  | none => .error (-1)
  | some left =>
    if left ≠ 0 ∧ (lengths.length = 0 ∨ left ≠ 1) then .error (-1)
    else .ok ⟨cnt, huffSort lengths 0 (huffOffs cnt) fun _ => 0⟩

/-- The loop of `huff_decode`, with `len` bits to be read so far.  `code` is never below `first`. -/
def huffDecodeFrom (h : Huff) : Nat → Nat → Nat → Nat → Nat → Br → Except Int (Nat × Br)
  | 0, _, _, _, _, _ => .error (-1)
  | k + 1, len, code, first, index, b =>
    let code := code ||| (brGet b 1).1
    let count := h.cnt len
    if code - first < count then .ok (h.sym (index + (code - first)), (brGet b 1).2)
    else
      huffDecodeFrom h k (len + 1) (code <<< 1) ((first + count) <<< 1) (index + count)
        (brGet b 1).2

def huffDecode (b : Br) (h : Huff) : Except Int (Nat × Br) := huffDecodeFrom h 15 1 0 0 0 b

/-! ## Blocks -/

def sinkPut (cap : Nat) (out : List UInt8) (c : UInt8) : Except Int (List UInt8) :=
  if cap ≤ out.length then .error (-2) else .ok (out ++ [c])

/-- `k_len_base`. -/
def lenBase : List Nat :=
  [3, 4, 5, 6, 7, 8, 9, 10, 11, 13, 15, 17, 19, 23, 27, 31, 35, 43, 51, 59, 67, 83, 99, 115, 131, 163,
    195, 227, 258]

/-- `k_len_extra`. -/
def lenExtra : List Nat :=
  [0, 0, 0, 0, 0, 0, 0, 0, 1, 1, 1, 1, 2, 2, 2, 2, 3, 3, 3, 3, 4, 4, 4, 4, 5, 5, 5, 5, 0]

/-- `k_dist_base`. -/
def distBase : List Nat :=
  [1, 2, 3, 4, 5, 7, 9, 13, 17, 25, 33, 49, 65, 97, 129, 193, 257, 385, 513, 769, 1025, 1537, 2049,
    3073, 4097, 6145, 8193, 12289, 16385, 24577]

/-- `k_dist_extra`. -/
def distExtra : List Nat :=
  [0, 0, 0, 0, 1, 1, 2, 2, 3, 3, 4, 4, 5, 5, 6, 6, 7, 7, 8, 8, 9, 9, 10, 10, 11, 11, 12, 12, 13, 13]

/-- Copy bytes from `distance` back, one at a time, so that a copy may run into itself. -/
def copyBack (cap distance : Nat) : Nat → List UInt8 → Except Int (List UInt8)
  | 0, out => .ok out
  | k + 1, out => do
    let out ← sinkPut cap out (out.getD (out.length - distance) 0)
    copyBack cap distance k out

def blockDecode (lit dist : Huff) (cap : Nat) : Nat → Br → List UInt8 → Except Int (Br × List UInt8)
  | 0, _, _ => .error (-1)
  | fuel + 1, b, out => do
    let (sym, b) ← huffDecode b lit
    if sym = 256 then .ok (b, out)
    else if sym < 256 then do
      let out ← sinkPut cap out (UInt8.ofNat sym)
      blockDecode lit dist cap fuel b out
    else if 29 ≤ sym - 257 then .error (-1)
    else do
      let (e, b) := brGet b (lenExtra.getD (sym - 257) 0)
      let length := lenBase.getD (sym - 257) 0 + e
      let (ds, b) ← huffDecode b dist
      if 30 ≤ ds then .error (-1)
      else do
        let (e, b) := brGet b (distExtra.getD ds 0)
        let distance := distBase.getD ds 0 + e
        if out.length < distance then .error (-1)
        else do
          let out ← copyBack cap distance length out
          blockDecode lit dist cap fuel b out

def fixedLitlen : List Nat :=
  List.replicate 144 8 ++ List.replicate 112 9 ++ List.replicate 24 7 ++ List.replicate 8 8

def fixedDist : List Nat := List.replicate 32 5

/-- `ORD`. -/
def order : List Nat := [16, 17, 18, 0, 8, 7, 9, 6, 10, 5, 11, 4, 12, 3, 13, 2, 14, 1, 15]

/-- Read the lengths of the code for the code lengths, into the places `ORD` gives. -/
def readOrder : List Nat → Br → List Nat → List Nat × Br
  | [], b, cl => (cl, b)
  | o :: os, b, cl => readOrder os (brGet b 3).2 (cl.set o (brGet b 3).1)

/-- `while (rep-- > 0 && i < n) lengths[i++] = v`. -/
def repeatLength (n v : Nat) : Nat → List Nat → List Nat
  | 0, ls => ls
  | rep + 1, ls => if ls.length < n then repeatLength n v rep (ls ++ [v]) else ls

/-- The loop of `block_dynamic`: the code lengths, run-length coded, until there are `n`. -/
def readLengths (clh : Huff) (n : Nat) : Nat → Br → List Nat → Except Int (List Nat × Br)
  | 0, b, ls => .ok (ls, b)
  | fuel + 1, b, ls =>
    if ls.length < n then do
      let (s, b) ← huffDecode b clh
      if s < 16 then readLengths clh n fuel b (ls ++ [s])
      else if s = 16 then
        if ls.length = 0 then .error (-1)
        else
          let (e, b) := brGet b 2
          readLengths clh n fuel b (repeatLength n (ls.getD (ls.length - 1) 0) (e + 3) ls)
      else if s = 17 then
        let (e, b) := brGet b 3
        readLengths clh n fuel b (repeatLength n 0 (e + 3) ls)
      else if s = 18 then
        let (e, b) := brGet b 7
        readLengths clh n fuel b (repeatLength n 0 (e + 11) ls)
      else .error (-1)
    else .ok (ls, b)

def blockDynamic (cap : Nat) (b : Br) (out : List UInt8) : Except Int (Br × List UInt8) := do
  let (e, b) := brGet b 5
  let hlit := e + 257
  let (e, b) := brGet b 5
  let hdist := e + 1
  let (e, b) := brGet b 4
  let hclen := e + 4
  let (cl, b) := readOrder (order.take hclen) b (List.replicate 19 0)
  let clh ← huffBuild cl
  let (lengths, b) ← readLengths clh (hlit + hdist) (hlit + hdist) b []
  let lit ← huffBuild (lengths.take hlit)
  let dist ← huffBuild (lengths.drop hlit)
  blockDecode lit dist cap (cap + 1) b out

/-- The bytes of a stored block. -/
def storedCopy (cap : Nat) : Nat → Br → List UInt8 → Except Int (Br × List UInt8)
  | 0, b, out => .ok (b, out)
  | k + 1, b, out =>
    if b.data.length ≤ b.pos then .error (-1)
    else do
      let out ← sinkPut cap out (b.data.getD b.pos 0)
      storedCopy cap k { b with pos := b.pos + 1 } out

/-- A stored block; the complement of its length is skipped.  A position is a `uint32_t`. -/
def blockStored (cap : Nat) (b : Br) (out : List UInt8) : Except Int (Br × List UInt8) :=
  let b := brAlign b
  if b.data.length < (b.pos + 4) % 2 ^ 32 then .error (-1)
  else
    let len := (b.data.getD b.pos 0).toNat ||| (b.data.getD (b.pos + 1) 0).toNat <<< 8
    storedCopy cap len { b with pos := (b.pos + 4) % 2 ^ 32 } out

/-- A block with the fixed codes. -/
def blockFixed (cap : Nat) (b : Br) (out : List UInt8) : Except Int (Br × List UInt8) := do
  let lit ← huffBuild fixedLitlen
  let dist ← huffBuild fixedDist
  blockDecode lit dist cap (cap + 1) b out

/-- The branch on the type of the block. -/
def blockOf (cap btype : Nat) (b : Br) (out : List UInt8) : Except Int (Br × List UInt8) :=
  if btype = 0 then blockStored cap b out
  else if btype = 1 then blockFixed cap b out
  else if btype = 2 then blockDynamic cap b out
  else .error (-1)

/-- The loop of `inflate_raw`, with the blocks that the guard still lets pass. -/
def inflateLoop (cap : Nat) : Nat → Br → List UInt8 → Except Int (List UInt8 × Nat)
  | 0, _, _ => .error (-1)
  | guard + 1, b, out => do
    let (bfinal, b) := brGet b 1
    let (btype, b) := brGet b 2
    let (b, out) ← blockOf cap btype b out
    if bfinal ≠ 0 then .ok (out, b.pos) else inflateLoop cap guard b out

/-- `inflate_raw`: the decoded bytes and how many bytes of the source were fetched. -/
def inflateRaw (src : List UInt8) (cap : Nat) : Except Int (List UInt8 × Nat) :=
  inflateLoop cap 1000000 ⟨src, 0, 0, 0⟩ []

end WuBuOS.Inflate
