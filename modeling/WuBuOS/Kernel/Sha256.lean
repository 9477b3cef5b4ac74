import Mathlib.Data.Vector.Basic
import WuBuOS.Lib.Blockwise

/-!
# SHA-256

`kernel/wubu_sha256.c`.  The context keeps the words of the state, the number of bits, and the bytes that do
not fill a block yet.  `update_append` says that the pieces in which the bytes come make no difference.
-/

namespace WuBuOS.Sha256

open Blockwise

/-! ## The compression function -/

abbrev Word := BitVec 32

/-- `K`. -/
def roundConstants : List Word :=
  [0x428a2f98, 0x71374491, 0xb5c0fbcf, 0xe9b5dba5,
    0x3956c25b, 0x59f111f1, 0x923f82a4, 0xab1c5ed5,
    0xd807aa98, 0x12835b01, 0x243185be, 0x550c7dc3,
    0x72be5d74, 0x80deb1fe, 0x9bdc06a7, 0xc19bf174,
    0xe49b69c1, 0xefbe4786, 0x0fc19dc6, 0x240ca1cc,
    0x2de92c6f, 0x4a7484aa, 0x5cb0a9dc, 0x76f988da,
    0x983e5152, 0xa831c66d, 0xb00327c8, 0xbf597fc7,
    0xc6e00bf3, 0xd5a79147, 0x06ca6351, 0x14292967,
    0x27b70a85, 0x2e1b2138, 0x4d2c6dfc, 0x53380d13,
    0x650a7354, 0x766a0abb, 0x81c2c92e, 0x92722c85,
    0xa2bfe8a1, 0xa81a664b, 0xc24b8b70, 0xc76c51a3,
    0xd192e819, 0xd6990624, 0xf40e3585, 0x106aa070,
    0x19a4c116, 0x1e376c08, 0x2748774c, 0x34b0bcb5,
    0x391c0cb3, 0x4ed8aa4a, 0x5b9cca4f, 0x682e6ff3,
    0x748f82ee, 0x78a5636f, 0x84c87814, 0x8cc70208,
    0x90befffa, 0xa4506ceb, 0xbef9a3f7, 0xc67178f2]

def rotr32 (x : Word) (n : Nat) : Word := x >>> n ||| x <<< (32 - n)

def ch (x y z : Word) : Word := (x &&& y) ^^^ (~~~x &&& z)

def maj (x y z : Word) : Word := (x &&& y) ^^^ (x &&& z) ^^^ (y &&& z)

/-- `S0` and `S1`. -/
def bigSigma0 (x : Word) : Word := rotr32 x 2 ^^^ rotr32 x 13 ^^^ rotr32 x 22

def bigSigma1 (x : Word) : Word := rotr32 x 6 ^^^ rotr32 x 11 ^^^ rotr32 x 25

/-- `s0` and `s1`. -/
def smallSigma0 (x : Word) : Word := rotr32 x 7 ^^^ rotr32 x 18 ^^^ (x >>> 3)

def smallSigma1 (x : Word) : Word := rotr32 x 17 ^^^ rotr32 x 19 ^^^ (x >>> 10)

/-- `state`, and the working variables of `sha256_compress`. -/
structure State where
  a : Word
  b : Word
  c : Word
  d : Word
  e : Word
  f : Word
  g : Word
  h : Word
  deriving DecidableEq

/-- The word at a place of a block. -/
def be32 (p : List UInt8) (i : Nat) : Word :=
  (p.getD i 0).toBitVec.setWidth 32 <<< 24 ||| (p.getD (i + 1) 0).toBitVec.setWidth 32 <<< 16 |||
    (p.getD (i + 2) 0).toBitVec.setWidth 32 <<< 8 ||| (p.getD (i + 3) 0).toBitVec.setWidth 32

/-- The second loop of `sha256_compress`, with so many words to go. -/
def schedule : Nat → List Word → List Word
  | 0, w => w
  | n + 1, w =>
    let i := w.length
    schedule n (w ++ [smallSigma1 (w.getD (i - 2) 0) + w.getD (i - 7) 0 + smallSigma0 (w.getD (i - 15) 0) +
      w.getD (i - 16) 0])

/-- One turn of the third loop, for a constant and a word. -/
def round (s : State) (kw : Word × Word) : State :=
  let t1 := s.h + bigSigma1 s.e + ch s.e s.f s.g + kw.1 + kw.2
  let t2 := bigSigma0 s.a + maj s.a s.b s.c
  ⟨t1 + t2, s.a, s.b, s.c, s.d + t1, s.e, s.f, s.g⟩

/-- `sha256_compress`. -/
def compress (s : State) (block : List UInt8) : State :=
  let w := schedule 48 ((List.range 16).map fun i => be32 block (4 * i))
  let t := (roundConstants.zip w).foldl round s
  ⟨s.a + t.a, s.b + t.b, s.c + t.c, s.d + t.d, s.e + t.e, s.f + t.f, s.g + t.g, s.h + t.h⟩

/-! ## The calls -/

/-- `wubu_sha256_ctx`; of `buf` there are the bytes that count. -/
structure Ctx where
  state : State
  bitlen : BitVec 64
  buf : List UInt8

/-- `wubu_sha256_init`. -/
def init : Ctx where
  state := ⟨0x6a09e667, 0xbb67ae85, 0x3c6ef372, 0xa54ff53a, 0x510e527f, 0x9b05688c, 0x1f83d9ab, 0x5be0cd19⟩
  bitlen := 0
  buf := []

/-- The loop of `wubu_sha256_update`, with so many turns at most. -/
def updateLoop : Nat → State → List UInt8 → State × List UInt8
  | 0, s, p => (s, p)
  | n + 1, s, p => if p.length < 64 then (s, p) else updateLoop n (compress s (p.take 64)) (p.drop 64)

/-- `wubu_sha256_update`. -/
def update (c : Ctx) (data : List UInt8) : Ctx :=
  let bitlen := c.bitlen + BitVec.ofNat 64 data.length * 8
  let rest (s : State) (p : List UInt8) : Ctx :=
    let r := updateLoop p.length s p
    ⟨r.1, bitlen, r.2⟩
  if c.buf.length ≠ 0 then
    let need := 64 - c.buf.length
    if data.length < need then { c with bitlen := bitlen, buf := c.buf ++ data }
    else rest (compress c.state (c.buf ++ data.take need)) (data.drop need)
  else rest c.state data

/-- The bytes of a word, the highest first. -/
def beBytes (n : Nat) (w : BitVec (8 * n)) : List UInt8 :=
  (List.range n).map fun i => ⟨(w >>> (8 * (n - 1 - i))).setWidth 8⟩

/-- A digest. -/
abbrev Digest := List.Vector UInt8 32

def digestOf (s : State) : Digest :=
  ⟨beBytes 4 s.a ++ beBytes 4 s.b ++ beBytes 4 s.c ++ beBytes 4 s.d ++ beBytes 4 s.e ++ beBytes 4 s.f ++
    beBytes 4 s.g ++ beBytes 4 s.h, rfl⟩

/-- `wubu_sha256_final`. -/
def final (c : Ctx) : Digest :=
  let bitlen := c.bitlen
  let c := update c [0x80]
  let rem := 64 - c.buf.length
  let rem := if rem < 8 then rem + 64 else rem
  let c := if 8 < rem then update c (List.replicate (rem - 8) 0) else c
  digestOf (update c (beBytes 8 bitlen)).state

/-- `wubu_sha256`. -/
def sha256 (data : List UInt8) : Digest := final (update init data)

/-! ## Pieces -/

theorem updateLoop_eq (n : Nat) (s : State) (p : List UInt8) : updateLoop n s p = absorbN 64 compress n s p := by
  induction n generalizing s p with
  | zero => rfl
  | succ n ih => rw [updateLoop, absorbN, ih]

variable {c : Ctx}

/-- There is room in the buffer. -/
def Ctx.Ok (c : Ctx) : Prop := c.buf.length < 64

theorem init_ok : init.Ok := by
  unfold Ctx.Ok
  decide

/-- **An update** absorbs what is in the buffer and the new bytes. -/
theorem update_eq (hc : c.Ok) (data : List UInt8) :
    update c data = ⟨(absorb 64 compress c.state (c.buf ++ data)).1, c.bitlen + BitVec.ofNat 64 data.length * 8,
      (absorb 64 compress c.state (c.buf ++ data)).2⟩ := by
  have hfeed : update c data = ⟨(feed 64 compress c.state c.buf data).1,
      c.bitlen + BitVec.ofNat 64 data.length * 8, (feed 64 compress c.state c.buf data).2⟩ := by
    unfold update feed
    simp only [updateLoop_eq]
    split
    · split <;> rfl
    · rfl
  rw [hfeed, feed_eq hc]

theorem update_ok (hc : c.Ok) (data : List UInt8) : (update c data).Ok := by
  rw [update_eq hc]
  exact length_absorb_lt (by decide) ..

theorem bits_append (n : BitVec 64) (data data' : List UInt8) :
    n + BitVec.ofNat 64 data.length * 8 + BitVec.ofNat 64 data'.length * 8 =
      n + BitVec.ofNat 64 (data ++ data').length * 8 := by
  rw [List.length_append, BitVec.ofNat_add, BitVec.add_assoc, ← BitVec.add_mul]

/-- **The bytes may come in one piece or in two.** -/
theorem update_append (hc : c.Ok) (data data' : List UInt8) :
    update (update c data) data' = update c (data ++ data') := by
  rw [update_eq (update_ok hc data), update_eq hc data, update_eq hc (data ++ data'), ← List.append_assoc,
    absorb_append (by decide) _ (c.buf ++ data)]
  rw [bits_append]

example : (sha256 []).toList.take 4 = [0xe3, 0xb0, 0xc4, 0x42] := by decide +kernel

end WuBuOS.Sha256
