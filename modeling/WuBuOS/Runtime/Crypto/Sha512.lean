import WuBuOS.Kernel.Sha256

/-!
# SHA-512 and SHA-384

`runtime/wubu_crypto_sha512.c` is `kernel/wubu_sha256.c` with words of 64 bits, blocks of 128 bytes and eighty
rounds.  SHA-384 is SHA-512 from another initial value, cut off after 48 bytes.
-/

namespace WuBuOS.Sha512

open Blockwise

/-! ## The compression function -/

abbrev Word := BitVec 64

/-- `K`. -/
def roundConstants : List Word :=
  [0x428a2f98d728ae22, 0x7137449123ef65cd, 0xb5c0fbcfec4d3b2f, 0xe9b5dba58189dbbc,
    0x3956c25bf348b538, 0x59f111f1b605d019, 0x923f82a4af194f9b, 0xab1c5ed5da6d8118,
    0xd807aa98a3030242, 0x12835b0145706fbe, 0x243185be4ee4b28c, 0x550c7dc3d5ffb4e2,
    0x72be5d74f27b896f, 0x80deb1fe3b1696b1, 0x9bdc06a725c71235, 0xc19bf174cf692694,
    0xe49b69c19ef14ad2, 0xefbe4786384f25e3, 0x0fc19dc68b8cd5b5, 0x240ca1cc77ac9c65,
    0x2de92c6f592b0275, 0x4a7484aa6ea6e483, 0x5cb0a9dcbd41fbd4, 0x76f988da831153b5,
    0x983e5152ee66dfab, 0xa831c66d2db43210, 0xb00327c898fb213f, 0xbf597fc7beef0ee4,
    0xc6e00bf33da88fc2, 0xd5a79147930aa725, 0x06ca6351e003826f, 0x142929670a0e6e70,
    0x27b70a8546d22ffc, 0x2e1b21385c26c926, 0x4d2c6dfc5ac42aed, 0x53380d139d95b3df,
    0x650a73548baf63de, 0x766a0abb3c77b2a8, 0x81c2c92e47edaee6, 0x92722c851482353b,
    0xa2bfe8a14cf10364, 0xa81a664bbc423001, 0xc24b8b70d0f89791, 0xc76c51a30654be30,
    0xd192e819d6ef5218, 0xd69906245565a910, 0xf40e35855771202a, 0x106aa07032bbd1b8,
    0x19a4c116b8d2d0c8, 0x1e376c085141ab53, 0x2748774cdf8eeb99, 0x34b0bcb5e19b48a8,
    0x391c0cb3c5c95a63, 0x4ed8aa4ae3418acb, 0x5b9cca4f7763e373, 0x682e6ff3d6b2b8a3,
    0x748f82ee5defb2fc, 0x78a5636f43172f60, 0x84c87814a1f0ab72, 0x8cc702081a6439ec,
    0x90befffa23631e28, 0xa4506cebde82bde9, 0xbef9a3f7b2c67915, 0xc67178f2e372532b,
    0xca273eceea26619c, 0xd186b8c721c0c207, 0xeada7dd6cde0eb1e, 0xf57d4f7fee6ed178,
    0x06f067aa72176fba, 0x0a637dc5a2c898a6, 0x113f9804bef90dae, 0x1b710b35131c471b,
    0x28db77f523047d84, 0x32caab7b40c72493, 0x3c9ebe0a15c9bebc, 0x431d67c49c100d4c,
    0x4cc5d4becb3e42b6, 0x597f299cfc657e2a, 0x5fcb6fab3ad6faec, 0x6c44198c4a475817]

def rotr64 (x : Word) (n : Nat) : Word := x >>> n ||| x <<< (64 - n)

def ch64 (x y z : Word) : Word := (x &&& y) ^^^ (~~~x &&& z)

def maj64 (x y z : Word) : Word := (x &&& y) ^^^ (x &&& z) ^^^ (y &&& z)

/-- `S0_512` and `S1_512`. -/
def bigSigma0 (x : Word) : Word := rotr64 x 28 ^^^ rotr64 x 34 ^^^ rotr64 x 39

def bigSigma1 (x : Word) : Word := rotr64 x 14 ^^^ rotr64 x 18 ^^^ rotr64 x 41

/-- `s0_512` and `s1_512`. -/
def smallSigma0 (x : Word) : Word := rotr64 x 1 ^^^ rotr64 x 8 ^^^ (x >>> 7)

def smallSigma1 (x : Word) : Word := rotr64 x 19 ^^^ rotr64 x 61 ^^^ (x >>> 6)

/-- `state`, and the working variables of `sha512_compress`. -/
structure State where
  a : Word
  b : Word
  c : Word
  d : Word
  e : Word
  f : Word
  g : Word
  h : Word
  deriving DecidableEq

/-- The word at a place of a block. -/
def be64 (p : List UInt8) (i : Nat) : Word :=
  (p.getD i 0).toBitVec.setWidth 64 <<< 56 ||| (p.getD (i + 1) 0).toBitVec.setWidth 64 <<< 48 |||
    (p.getD (i + 2) 0).toBitVec.setWidth 64 <<< 40 ||| (p.getD (i + 3) 0).toBitVec.setWidth 64 <<< 32 |||
    (p.getD (i + 4) 0).toBitVec.setWidth 64 <<< 24 ||| (p.getD (i + 5) 0).toBitVec.setWidth 64 <<< 16 |||
    (p.getD (i + 6) 0).toBitVec.setWidth 64 <<< 8 ||| (p.getD (i + 7) 0).toBitVec.setWidth 64

/-- The second loop of `sha512_compress`, with so many words to go. -/
def schedule : Nat → List Word → List Word
  | 0, w => w
  | n + 1, w =>
    let i := w.length
    schedule n (w ++ [smallSigma1 (w.getD (i - 2) 0) + w.getD (i - 7) 0 + smallSigma0 (w.getD (i - 15) 0) +
      w.getD (i - 16) 0])

/-- One turn of the third loop, for a constant and a word. -/
def round (s : State) (kw : Word × Word) : State :=
  let t1 := s.h + bigSigma1 s.e + ch64 s.e s.f s.g + kw.1 + kw.2
  let t2 := bigSigma0 s.a + maj64 s.a s.b s.c
  ⟨t1 + t2, s.a, s.b, s.c, s.d + t1, s.e, s.f, s.g⟩

/-- `sha512_compress`. -/
def compress (s : State) (block : List UInt8) : State :=
  let w := schedule 64 ((List.range 16).map fun i => be64 block (8 * i))
  let t := (roundConstants.zip w).foldl round s
  ⟨s.a + t.a, s.b + t.b, s.c + t.c, s.d + t.d, s.e + t.e, s.f + t.f, s.g + t.g, s.h + t.h⟩

/-! ## The calls -/

/-- `struct wubu_sha512_ctx`; of `buf` there are the bytes that count. -/
structure Ctx where
  state : State
  bitlen : BitVec 64
  buf : List UInt8

/-- `wubu_sha512_init`. -/
def init512 : Ctx where
  state := ⟨0x6a09e667f3bcc908, 0xbb67ae8584caa73b, 0x3c6ef372fe94f82b, 0xa54ff53a5f1d36f1,
    0x510e527fade682d1, 0x9b05688c2b3e6c1f, 0x1f83d9abfb41bd6b, 0x5be0cd19137e2179⟩
  bitlen := 0
  buf := []

/-- `wubu_sha384_init`. -/
def init384 : Ctx where
  state := ⟨0xcbbb9d5dc1059ed8, 0x629a292a367cd507, 0x9159015a3070dd17, 0x152fecd8f70e5939,
    0x67332667ffc00b31, 0x8eb44a8768581511, 0xdb0c2e0d64f98fa7, 0x47b5481dbefa4fa4⟩
  bitlen := 0
  buf := []

/-- `wubu_sha512_update`: the buffer is filled up first, and the loop over the whole blocks follows. -/
def update (c : Ctx) (data : List UInt8) : Ctx :=
  let r := feed 128 compress c.state c.buf data
  ⟨r.1, c.bitlen + BitVec.ofNat 64 data.length * 8, r.2⟩

/-- The digest of SHA-512. -/
abbrev Digest := List.Vector UInt8 64

def digestOf (s : State) : Digest :=
  ⟨Sha256.beBytes 8 s.a ++ Sha256.beBytes 8 s.b ++ Sha256.beBytes 8 s.c ++ Sha256.beBytes 8 s.d ++
    Sha256.beBytes 8 s.e ++ Sha256.beBytes 8 s.f ++ Sha256.beBytes 8 s.g ++ Sha256.beBytes 8 s.h, rfl⟩

/-- `wubu_sha512_final`: the high half of the length is zero. -/
def final512 (c : Ctx) : Digest :=
  let bitlen := c.bitlen
  let c := update c [0x80]
  let rem := 128 - c.buf.length
  let rem := if rem < 16 then rem + 128 else rem
  let c := if 16 < rem then update c (List.replicate (rem - 16) 0) else c
  digestOf (update c (List.replicate 8 0 ++ Sha256.beBytes 8 bitlen)).state

/-- `wubu_sha384_final`. -/
def final384 (c : Ctx) : List.Vector UInt8 48 := ⟨(final512 c).toList.take 48, by simp⟩

/-! ## Pieces -/

variable {c : Ctx}

/-- There is room in the buffer. -/
def Ctx.Ok (c : Ctx) : Prop := c.buf.length < 128

/-- **An update** absorbs what is in the buffer and the new bytes. -/
theorem update_eq (hc : c.Ok) (data : List UInt8) :
    update c data = ⟨(absorb 128 compress c.state (c.buf ++ data)).1, c.bitlen + BitVec.ofNat 64 data.length * 8,
      (absorb 128 compress c.state (c.buf ++ data)).2⟩ := by
  rw [update, feed_eq hc]

theorem update_ok (hc : c.Ok) (data : List UInt8) : (update c data).Ok := by
  rw [update_eq hc]
  exact length_absorb_lt (by decide) ..

/-- **The bytes may come in one piece or in two.** -/
theorem update_append (hc : c.Ok) (data data' : List UInt8) :
    update (update c data) data' = update c (data ++ data') := by
  rw [update_eq (update_ok hc data), update_eq hc data, update_eq hc (data ++ data'), ← List.append_assoc,
    absorb_append (by decide) _ (c.buf ++ data)]
  rw [Sha256.bits_append]

end WuBuOS.Sha512
