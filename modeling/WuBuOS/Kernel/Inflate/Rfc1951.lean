import WuBuOS.Lib.Bytes
import WuBuOS.Lib.Canonical

/-!
# The DEFLATE format

What RFC 1951 says a stream is, as a grammar over its bits.  A stream is a row of blocks up to one
marked as the last (`Stream`); a block is stored, or coded with the fixed codes, or brings its own
(`BlockAt`); a coded block is a row of literals and copies up to the end-of-block symbol (`Symbols`).
Each relation goes from the output and the bits before to the output and the bits behind.

A code may leave words unused: RFC 1951 asks for a distance code of a single word, or of none, to be
taken, and does not rule out others.  What no code may do is to give the same stream two readings, so
`Fits` is all that is asked of it.
-/

namespace WuBuOS.Inflate

open Bits Canonical

/-! ## Lengths and distances -/

/-- The extra bits behind a length symbol. -/
def lengthExtra (s : Nat) : Nat := if s < 265 ∨ s = 285 then 0 else (s - 261) / 4

/-- The shortest length of a length symbol: four to each number of extra bits, and 258 by itself. -/
def lengthBase (s : Nat) : Nat :=
  if s < 265 then s - 254
  else if s = 285 then 258
  else 3 + (4 + (s - 261) % 4) * 2 ^ lengthExtra s

/-- The extra bits behind a distance symbol. -/
def distanceExtra (d : Nat) : Nat := d / 2 - 1

/-- The least distance of a distance symbol: two to each number of extra bits. -/
def distanceBase (d : Nat) : Nat :=
  if d < 2 then d + 1 else 1 + (2 + d % 2) * 2 ^ distanceExtra d

/-- The output with `length` bytes from `distance` back added; where the copy is longer than it
reaches back, it repeats. -/
def copied (out : List UInt8) (length distance : Nat) : List UInt8 :=
  out ++ (List.range length).map fun k => out.getD (out.length - distance + k % distance) 0

/-! ## Coded data -/

/-- The symbols of a block, up to the end of it. -/
inductive Symbols (lit dist : List Nat) (out' : List UInt8) (rest : List Bool) :
    List UInt8 → List Bool → Prop
  | done {bits : List Bool} (h : Decodes lit bits 256 rest) : Symbols lit dist out' rest out' bits
  | literal {out : List UInt8} {bits r : List Bool} {s : Nat} (hs : s < 256)
      (h : Decodes lit bits s r) (ht : Symbols lit dist out' rest (out ++ [UInt8.ofNat s]) r) :
      Symbols lit dist out' rest out bits
  | copy {out : List UInt8} {bits r r' : List Bool} {s d e f : Nat} (hs : 257 ≤ s ∧ s ≤ 285)
      (h : Decodes lit bits s (lsb (lengthExtra s) e ++ r)) (he : e < 2 ^ lengthExtra s)
      (hd : d < 30) (h' : Decodes dist r d (lsb (distanceExtra d) f ++ r'))
      (hf : f < 2 ^ distanceExtra d) (hback : distanceBase d + f ≤ out.length)
      (ht : Symbols lit dist out' rest (copied out (lengthBase s + e) (distanceBase d + f)) r') :
      Symbols lit dist out' rest out bits

/-- The code lengths of a block, until there are `n`.  A repetition may run from the literals into
the distances, and not behind them. -/
inductive Lengths (cl : List Nat) (n : Nat) (all : List Nat) (rest : List Bool) :
    List Nat → List Bool → Prop
  | done (h : all.length = n) : Lengths cl n all rest all rest
  | length {acc : List Nat} {bits r : List Bool} {s : Nat} (hn : acc.length < n) (hs : s < 16)
      (h : Decodes cl bits s r) (ht : Lengths cl n all rest (acc ++ [s]) r) :
      Lengths cl n all rest acc bits
  | previous {acc : List Nat} {bits r : List Bool} {v e : Nat} (hn : acc.length + 1 + (e + 3) ≤ n)
      (he : e < 2 ^ 2) (h : Decodes cl bits 16 (lsb 2 e ++ r))
      (ht : Lengths cl n all rest (acc ++ [v] ++ List.replicate (e + 3) v) r) :
      Lengths cl n all rest (acc ++ [v]) bits
  | zeros {acc : List Nat} {bits r : List Bool} {e : Nat} (hn : acc.length + (e + 3) ≤ n)
      (he : e < 2 ^ 3) (h : Decodes cl bits 17 (lsb 3 e ++ r))
      (ht : Lengths cl n all rest (acc ++ List.replicate (e + 3) 0) r) :
      Lengths cl n all rest acc bits
  | manyZeros {acc : List Nat} {bits r : List Bool} {e : Nat} (hn : acc.length + (e + 11) ≤ n)
      (he : e < 2 ^ 7) (h : Decodes cl bits 18 (lsb 7 e ++ r))
      (ht : Lengths cl n all rest (acc ++ List.replicate (e + 11) 0) r) :
      Lengths cl n all rest acc bits

/-! ## Blocks -/

/-- What kind of block, and with which codes: that of the code lengths, of the literals and of the
distances. -/
inductive Block where
  | stored
  | fixed
  | dynamic (cl lit dist : List Nat)

/-- The two bits that name the kind. -/
def Block.type : Block → Nat
  | stored => 0
  | fixed => 1
  | dynamic _ _ _ => 2

/-- The fixed code of literals and lengths. -/
def fixedLengths : List Nat :=
  (List.range 288).map fun s => if s < 144 then 8 else if s < 256 then 9 else if s < 280 then 7 else 8

/-- The fixed code of distances. -/
def fixedDistances : List Nat := (List.range 32).map fun _ => 5

/-- The order in which the lengths of the code for the code lengths stand. -/
def lengthOrder : List Nat := [16, 17, 18, 0, 8, 7, 9, 6, 10, 5, 11, 4, 12, 3, 13, 2, 14, 1, 15]

/-- The code for the code lengths, from its lengths in that order; those left off are zero. -/
def lengthCode (cs : List Nat) : List Nat :=
  (List.range 19).map fun s => cs.getD (lengthOrder.idxOf s) 0

/-- A block behind the three bits that begin it. -/
inductive BlockAt : Block → List UInt8 → List Bool → List UInt8 → List Bool → Prop
  /- Stored data starts with the next byte.  The stream is one of bytes, so that the bits in between
  are as many as the bits left over when those behind are taken in eights. -/
  | stored {out data : List UInt8} {bits rest : List Bool} (hn : data.length < 2 ^ 16)
      (h : bits.drop (bits.length % 8) = ofBytes
        (Bytes.le 2 data.length ++ (Bytes.le 2 (2 ^ 16 - 1 - data.length) ++ data)) ++ rest) :
      BlockAt .stored out bits (out ++ data) rest
  | fixed {out out' : List UInt8} {bits rest : List Bool}
      (h : Symbols fixedLengths fixedDistances out' rest out bits) : BlockAt .fixed out bits out' rest
  | dynamic {out out' : List UInt8} {bits r r' rest : List Bool} {hlit hdist hclen : Nat}
      {cs all : List Nat} (hl : hlit < 30) (hd : hdist < 2 ^ 5) (hc : hclen < 2 ^ 4)
      (hcs : cs.length = hclen + 4) (hcs' : ∀ c ∈ cs, c < 2 ^ 3)
      (h : bits = lsb 5 hlit ++ (lsb 5 hdist ++ (lsb 4 hclen ++ (cs.flatMap (lsb 3) ++ r))))
      (hcl : Fits 15 (lengthCode cs))
      (hall : Lengths (lengthCode cs) (hlit + 257 + (hdist + 1)) all r' [] r)
      (hlit' : Fits 15 (all.take (hlit + 257))) (hdist' : Fits 15 (all.drop (hlit + 257)))
      (ht : Symbols (all.take (hlit + 257)) (all.drop (hlit + 257)) out' rest out r') :
      BlockAt (.dynamic (lengthCode cs) (all.take (hlit + 257)) (all.drop (hlit + 257)))
        out bits out' rest

/-- The blocks of a stream, up to the one marked as the last. -/
inductive Stream (out' : List UInt8) (rest : List Bool) :
    List Block → List UInt8 → List Bool → Prop
  | last {out : List UInt8} {r : List Bool} {blk : Block} (h : BlockAt blk out r out' rest) :
      Stream out' rest [blk] out (true :: (lsb 2 blk.type ++ r))
  | more {out mid : List UInt8} {r r' : List Bool} {blk : Block} {blks : List Block}
      (h : BlockAt blk out r mid r') (ht : Stream out' rest blks mid r') :
      Stream out' rest (blk :: blks) out (false :: (lsb 2 blk.type ++ r))

end WuBuOS.Inflate
