import WuBuOS.Lib.Bytes

/-!
# The LZX decompressor

`wubu_lzx.c`: a cabinet is unpacked one block of data at a time, into a window that is kept from one call to the
next.  The bit reader starts again at every call; everything else is kept, also when a call fails in the middle.

The window is the part of the code that is checked: every index into it has to be less than its size, or the code
is `wild`.  A run also says where it comes to, wherever it is about to use the window unchecked (`Point`).

Nothing in the reader knows where the input ends, so the input is all the memory from its first byte on.
-/

namespace WuBuOS.Lzx

/-! ## Bits -/

/-- The memory from the input on. -/
abbrev Input := Nat → UInt8

/-- `lzx_br`; the number of bits in store can fall below zero. -/
structure Br where
  ip : Nat
  bitbuf : UInt32
  bitsleft : Int

/-- The rounds of `lzx_ensure`.  Of the count of a shift the machine uses five bits. -/
def ensureFrom (inp : Input) (n : Int) : Nat → Br → Br
  | 0, br => br
  | k + 1, br =>
    if br.bitsleft < n then
      let w := UInt32.ofNat ((inp (br.ip + 1)).toNat <<< 8 ||| (inp br.ip).toNat)
      let sh := UInt32.ofNat ((16 - br.bitsleft) % 32).toNat
      ensureFrom inp n k ⟨br.ip + 2, br.bitbuf ||| w <<< sh, br.bitsleft + 16⟩
    else br

def lzxEnsure (inp : Input) (n : Int) (br : Br) : Br := ensureFrom inp n (n - br.bitsleft).toNat br

/-- The first bits of the buffer. -/
def Br.top (br : Br) (n : Nat) : Nat := (br.bitbuf >>> UInt32.ofNat (32 - n)).toNat

/-- So many bits are used up. -/
def Br.drop (br : Br) (n : Nat) : Br := ⟨br.ip, br.bitbuf <<< UInt32.ofNat n, br.bitsleft - n⟩

def lzxReadBits (inp : Input) (br : Br) (n : Nat) : Nat × Br :=
  if n = 0 then (0, br)
  else
    let br := lzxEnsure inp n br
    (br.top n, br.drop n)

/-! ## Codes -/

/-- A table of symbols, and one of code lengths. -/
structure Code where
  table : Nat → Nat
  len : Nat → Nat

/-- `while (n--) a[i++] = v`. -/
def fill (a : Nat → Nat) (i n v : Nat) : Nat → Nat := fun k => if i ≤ k ∧ k < i + n then v else a k

/-- The tables while they are made: the next position, the next node and the entries. -/
structure Build where
  pos : Nat
  nextSymbol : Nat
  table : Nat → Nat

/-- A symbol whose code fits in the index of the table. -/
def placeShort (tableMask bitMask sym : Nat) (b : Build) : Except (Nat → Nat) Build :=
  if tableMask < b.pos + bitMask then .error b.table
  else .ok { b with pos := b.pos + bitMask, table := fill b.table b.pos bitMask sym }

/-- Walk down from an entry, bit after bit, and make the nodes that are missing. -/
def descend (pos : Nat) : Nat → Nat → Nat → Nat → (Nat → Nat) → Nat × Nat × (Nat → Nat)
  | 0, _, leaf, next, table => (leaf, next, table)
  | k + 1, depth, leaf, next, table =>
    let made := table leaf = 0
    let table := if made then fill (fill table (next <<< 1) 2 0) leaf 1 (next % 2 ^ 16) else table
    let next := if made then next + 1 else next
    descend pos k (depth + 1) (table leaf <<< 1 ||| (pos >>> (15 - depth)) &&& 1) next table

/-- A symbol whose code is longer than the index. -/
def placeLong (tableMask bitMask depth sym : Nat) (b : Build) : Except (Nat → Nat) Build :=
  let (leaf, next, table) := descend b.pos depth 0 (b.pos >>> 16) b.nextSymbol b.table
  let table := fill table leaf 1 sym
  if tableMask < b.pos + bitMask then .error table else .ok ⟨b.pos + bitMask, next, table⟩

/-- All the symbols with codes of this length. -/
def placeAll (nsyms bitNum : Nat) (length : Nat → Nat) (place : Nat → Build → Except (Nat → Nat) Build) (b : Build) :
    Except (Nat → Nat) Build :=
  (List.range nsyms).foldlM (fun b sym => if length sym = bitNum then place sym b else .ok b) b

/-- `lzx_make_decode_table`, with the table as it is left if it fails. -/
def makeTable (nsyms nbits : Nat) (length table : Nat → Nat) : Except (Nat → Nat) (Nat → Nat) := do
  let tableMask := 1 <<< nbits
  let b ← (List.range nbits).foldlM
    (fun b k => placeAll nsyms (k + 1) length (placeShort tableMask (tableMask >>> (k + 1))) b)
    ⟨0, tableMask >>> 1, table⟩
  if b.pos = tableMask then .ok b.table
  else do
    let b := { b with pos := b.pos <<< 16, table := fill b.table b.pos (tableMask - b.pos) 0 }
    let tableMask := tableMask <<< 16
    let b ← (List.range (16 - nbits)).foldlM
      (fun b k => placeAll nsyms (nbits + 1 + k) length (placeLong tableMask (1 <<< (15 - k)) (k + 1)) b) b
    if b.pos = tableMask then .ok b.table
    else
      -- an incomplete code is taken, if no word of it is long
      let table := fill b.table (b.pos >>> 16) ((tableMask >>> 16) - (b.pos >>> 16)) 0
      if (List.range nsyms).any fun sym => nbits < length sym then .error table else .ok table

/-- Whether the table was made, and the code with it. -/
def lzxMakeDecodeTable (nsyms nbits : Nat) (c : Code) : Bool × Code :=
  match makeTable nsyms nbits c.len c.table with
  | .ok table => (true, ⟨table, c.len⟩)
  | .error table => (false, ⟨table, c.len⟩)

/-- Walk down the nodes behind the index. -/
def walk (table : Nat → Nat) (maxsyms bitbuf : Nat) : Nat → Nat → Option Nat
  | 0, _ => none
  | k + 1, i =>
    let i := table (i <<< 1 ||| (bitbuf >>> k) &&& 1)
    if maxsyms ≤ i then walk table maxsyms bitbuf k i else some i

/-- The symbol whose code comes next. -/
def symbol (table : Nat → Nat) (maxsyms tablebits : Nat) (br : Br) : Option Nat :=
  let i := table (br.top tablebits)
  if maxsyms ≤ i then walk table maxsyms br.bitbuf.toNat (32 - tablebits) i else some i

def lzxHuffDecode (inp : Input) (c : Code) (maxsyms tablebits : Nat) (br : Br) : Option (Nat × Br) :=
  let br := lzxEnsure inp 16 br
  (symbol c.table maxsyms tablebits br).map fun i => (i, br.drop (c.len i))

/-- The difference of two lengths, as a byte. -/
def lenDiff (a b : Nat) : Nat :=
  let z : Int := (a : Int) - b
  ((if z < 0 then z + 17 else z) % 256).toNat

def pretreeNumElements : Nat := 20

def pretreeTablebits : Nat := 6

/-- The loop of `lzx_read_lens`: whether it gets to the end, and the lengths so far.  Every round reads one. -/
def readLensFrom (inp : Input) (pre : Code) (last : Nat) : Nat → Nat → (Nat → Nat) → Br → Bool × (Nat → Nat) × Br
  | 0, _, lens, br => (true, lens, br)
  | k + 1, x, lens, br =>
    if last ≤ x then (true, lens, br)
    else
      match lzxHuffDecode inp pre pretreeNumElements pretreeTablebits br with
      | none => (false, lens, br)
      | some (z, br) =>
        if z = 17 then
          let (y, br) := lzxReadBits inp br 4
          readLensFrom inp pre last k (x + (y + 4)) (fill lens x (y + 4) 0) br
        else if z = 18 then
          let (y, br) := lzxReadBits inp br 5
          readLensFrom inp pre last k (x + (y + 20)) (fill lens x (y + 20) 0) br
        else if z = 19 then
          let (y, br) := lzxReadBits inp br 1
          match lzxHuffDecode inp pre pretreeNumElements pretreeTablebits br with
          | none => (false, lens, br)
          | some (z, br) =>
            readLensFrom inp pre last k (x + (y + 4)) (fill lens x (y + 4) (lenDiff (lens x) z)) br
        else readLensFrom inp pre last k (x + 1) (fill lens x 1 (lenDiff (lens x) z)) br

/-- The lengths of the code for the lengths, four bits each. -/
def readPretree (inp : Input) : Nat → Nat → (Nat → Nat) → Br → (Nat → Nat) × Br
  | 0, _, lens, br => (lens, br)
  | k + 1, x, lens, br =>
    let (y, br) := lzxReadBits inp br 4
    readPretree inp k (x + 1) (fill lens x 1 y) br

/-- What `lzx_read_lens` leaves: whether it succeeded, the code for the lengths, the lengths and the reader. -/
structure Lens where
  done : Bool
  pretree : Code
  lens : Nat → Nat
  br : Br

def lzxReadLens (inp : Input) (pre : Code) (lens : Nat → Nat) (first last : Nat) (br : Br) : Lens :=
  let (plen, br) := readPretree inp pretreeNumElements 0 pre.len br
  let (made, pre) := lzxMakeDecodeTable pretreeNumElements pretreeTablebits ⟨pre.table, plen⟩
  if made then
    let (done, lens, br) := readLensFrom inp pre last (last - first) first lens br
    ⟨done, pre, lens, br⟩
  else ⟨false, pre, lens, br⟩

end WuBuOS.Lzx
