import Mathlib.Data.Nat.Find
import Mathlib.Data.Nat.NthRoot.Defs
import Mathlib.Data.Nat.Prime.Basic
import WuBuOS.Lib.Blockwise

/-!
# The SHA-2 family

FIPS 180-4, for messages of whole bytes.  The functions of the family differ in the length of their words,
the number of their rounds and the distances of their rotations (`Variant`); `hash` is the one description of
all of them: pad the message (`padding`), cut it into blocks and fold the compression function over them.
The constants are computed from the primes they are defined by.

An implementation keeps the message schedule in an array that it fills from left to right, and `rolled` is
that; `rolled_eq` says that it holds the words of the standard's recursion.
-/

namespace Sha2

open Blockwise

/-! ## The functions -/

/-- What the functions with words of `n` bits have of their own. -/
structure Variant (n : Nat) where
  /-- The bytes of a word. -/
  bytes : Nat
  /-- There is at least one. -/
  bytes_pos : 0 < bytes
  /-- The rounds for a block. -/
  rounds : Nat
  /-- The three rotations of `Σ0`. -/
  upper0 : Nat × Nat × Nat
  /-- The three rotations of `Σ1`. -/
  upper1 : Nat × Nat × Nat
  /-- The two rotations of `σ0` and its shift. -/
  lower0 : Nat × Nat × Nat
  /-- The two rotations of `σ1` and its shift. -/
  lower1 : Nat × Nat × Nat

/-- Words of 32 bits. -/
def narrow : Variant 32 := ⟨4, by decide, 64, (2, 13, 22), (6, 11, 25), (7, 18, 3), (17, 19, 10)⟩

/-- Words of 64 bits. -/
def wide : Variant 64 := ⟨8, by decide, 80, (28, 34, 39), (14, 18, 41), (1, 8, 7), (19, 61, 6)⟩

variable {n : Nat}

def ch (x y z : BitVec n) : BitVec n := (x &&& y) ^^^ (~~~x &&& z)

def maj (x y z : BitVec n) : BitVec n := (x &&& y) ^^^ (x &&& z) ^^^ (y &&& z)

/-- Three rotations. -/
def upper (r : Nat × Nat × Nat) (x : BitVec n) : BitVec n :=
  x.rotateRight r.1 ^^^ x.rotateRight r.2.1 ^^^ x.rotateRight r.2.2

/-- Two rotations and a shift. -/
def lower (r : Nat × Nat × Nat) (x : BitVec n) : BitVec n :=
  x.rotateRight r.1 ^^^ x.rotateRight r.2.1 ^^^ (x >>> r.2.2)

/-! ## The constants -/

/-- The first eighty primes. -/
def primes : List Nat := (List.range 410).filter fun p => decide p.Prime

/-- The first `n` bits of the fractional part of the `k`-th root of a number. -/
def fraction (k n p : Nat) : BitVec n := BitVec.ofNat n (Nat.nthRoot k (p * 2 ^ (k * n)))

/-- The constants of the rounds. -/
def constants (v : Variant n) : List (BitVec n) := (primes.take v.rounds).map (fraction 3 n)

/-- A hash value, and the working variables. -/
structure Hash (n : Nat) where
  a : BitVec n
  b : BitVec n
  c : BitVec n
  d : BitVec n
  e : BitVec n
  f : BitVec n
  g : BitVec n
  h : BitVec n
  deriving DecidableEq

/-- The words of a hash value, in order. -/
def Hash.words (s : Hash n) : List (BitVec n) := [s.a, s.b, s.c, s.d, s.e, s.f, s.g, s.h]

/-- The initial hash value from eight primes, of which the first is the `k`-th. -/
def initial (n k : Nat) : Hash n :=
  let word i := fraction 2 n (primes.getD (k + i) 0)
  ⟨word 0, word 1, word 2, word 3, word 4, word 5, word 6, word 7⟩

/-! ## Bytes -/

/-- The number that bytes stand for, the highest byte first. -/
def number (l : List UInt8) : Nat := l.foldl (fun n b => n * 256 + b.toNat) 0

/-- The last `k` bytes of a number, the highest first. -/
def bytesOf (k x : Nat) : List UInt8 := (List.range k).map fun i => UInt8.ofNat (x / 256 ^ (k - 1 - i))

/-! ## One block -/

variable (v : Variant n)

/-- A word of a block. -/
def wordOf (block : List UInt8) (t : Nat) : BitVec n :=
  BitVec.ofNat _ (number ((block.drop (v.bytes * t)).take v.bytes))

/-- The message schedule. -/
def schedule (block : List UInt8) (t : Nat) : BitVec n :=
  if _h : t < 16 then wordOf v block t
  else lower v.lower1 (schedule block (t - 2)) + schedule block (t - 7) +
    lower v.lower0 (schedule block (t - 15)) + schedule block (t - 16)
termination_by t

/-- One round, with its constant and its word of the schedule. -/
def round (s : Hash n) (kw : BitVec n × BitVec n) : Hash n :=
  let t1 := s.h + upper v.upper1 s.e + ch s.e s.f s.g + kw.1 + kw.2
  let t2 := upper v.upper0 s.a + maj s.a s.b s.c
  ⟨t1 + t2, s.a, s.b, s.c, s.d + t1, s.e, s.f, s.g⟩

/-- The compression function. -/
def compress (s : Hash n) (block : List UInt8) : Hash n :=
  let t := ((constants v).zip ((List.range v.rounds).map (schedule v block))).foldl (round v) s
  ⟨s.a + t.a, s.b + t.b, s.c + t.c, s.d + t.d, s.e + t.e, s.f + t.f, s.g + t.g, s.h + t.h⟩

/-! ## The whole message -/

/-- The bytes of a block, and the bytes of the length at its end. -/
def blockBytes : Nat := 16 * v.bytes

def lengthBytes : Nat := 2 * v.bytes

theorem exists_zeros (len : Nat) : ∃ k, blockBytes v ∣ len + 1 + k + lengthBytes v := by
  have hpos : 1 ≤ blockBytes v := Nat.mul_pos (by decide) v.bytes_pos
  have hle := Nat.le_mul_of_pos_left (len + 1 + lengthBytes v) hpos
  refine ⟨blockBytes v * (len + 1 + lengthBytes v) - (len + 1 + lengthBytes v), len + 1 + lengthBytes v, ?_⟩
  omega

/-- The fewest zero bytes that fill up the last block. -/
def zeros (len : Nat) : Nat := Nat.find (exists_zeros v len)

/-- What is appended to a message: a one bit, zero bits and the length in bits. -/
def padding (len : Nat) : List UInt8 :=
  0x80 :: List.replicate (zeros v len) 0 ++ bytesOf (lengthBytes v) (8 * len)

/-- The hash of a message, all its words, from an initial value. -/
def hash (init : Hash n) (message : List UInt8) : List UInt8 :=
  ((blocks (blockBytes v) (message ++ padding v message.length)).foldl (compress v) init).words.flatMap
    fun x => bytesOf v.bytes x.toNat

/-- SHA-256. -/
def sha256 (message : List UInt8) : List UInt8 := hash narrow (initial _ 0) message

/-- SHA-512. -/
def sha512 (message : List UInt8) : List UInt8 := hash wide (initial _ 0) message

/-- SHA-384: other primes, and the first 48 bytes. -/
def sha384 (message : List UInt8) : List UInt8 := (hash wide (initial _ 8) message).take 48

/-! ## What an implementation needs -/

/-- Trial division by the numbers up to twenty. -/
def isPrime (p : Nat) : Bool :=
  decide (2 ≤ p) && (List.range' 2 19).all fun m => decide (p < m * m) || decide (p % m ≠ 0)

theorem isPrime_eq {p : Nat} (hp : p < 410) : decide p.Prime = isPrime p := by
  rw [isPrime, Bool.eq_iff_iff, decide_eq_true_eq, Nat.prime_def_le_sqrt, Bool.and_eq_true, decide_eq_true_eq,
    List.all_eq_true]
  refine and_congr_right fun _ => ⟨fun h m hm => ?_, fun h m hm hle hdvd => ?_⟩
  · rw [List.mem_range'_1] at hm
    rw [Bool.or_eq_true, decide_eq_true_eq, decide_eq_true_eq, or_iff_not_imp_left]
    intro hle hzero
    exact h m hm.1 (Nat.le_sqrt.2 (by omega)) (Nat.dvd_of_mod_eq_zero hzero)
  · have hsq := Nat.le_sqrt.1 hle
    have hm' : m < 21 := by
      by_contra hge
      have := Nat.mul_le_mul (Nat.not_lt.1 hge) (Nat.not_lt.1 hge)
      omega
    have hall := h m (List.mem_range'_1.2 ⟨hm, by omega⟩)
    rw [Bool.or_eq_true, decide_eq_true_eq, decide_eq_true_eq] at hall
    rcases hall with hlt | hne
    · omega
    · exact hne (Nat.mod_eq_zero_of_dvd hdvd)

theorem primes_eq : primes =
    [2, 3, 5, 7, 11, 13, 17, 19, 23, 29, 31, 37, 41, 43, 47, 53, 59, 61, 67, 71, 73, 79, 83, 89, 97, 101, 103,
      107, 109, 113, 127, 131, 137, 139, 149, 151, 157, 163, 167, 173, 179, 181, 191, 193, 197, 199, 211, 223,
      227, 229, 233, 239, 241, 251, 257, 263, 269, 271, 277, 281, 283, 293, 307, 311, 313, 317, 331, 337, 347,
      349, 353, 359, 367, 373, 379, 383, 389, 397, 401, 409] := by
  rw [primes, List.filter_congr fun p hp => isPrime_eq (List.mem_range.1 hp)]
  decide

variable {v}

/-- Any number of zeros that fills up a block and is less than one is the right one. -/
theorem zeros_eq {len k : Nat} (hk : k < blockBytes v) (h : blockBytes v ∣ len + 1 + k + lengthBytes v) :
    zeros v len = k := by
  rw [zeros, Nat.find_eq_iff]
  refine ⟨h, fun j hj hdvd => ?_⟩
  have hsub := Nat.dvd_sub h hdvd
  have hdiff : len + 1 + k + lengthBytes v - (len + 1 + j + lengthBytes v) = k - j := by omega
  rw [hdiff] at hsub
  exact absurd (Nat.le_of_dvd (by omega) hsub) (by omega)

/-- An implementation counts the room in the last block, and takes another block if it is too little. -/
theorem zeros_eq_room (v : Variant n) (len : Nat) : zeros v len =
    (if blockBytes v - (len + 1) % blockBytes v < lengthBytes v then
      blockBytes v - (len + 1) % blockBytes v + blockBytes v
    else blockBytes v - (len + 1) % blockBytes v) - lengthBytes v := by
  have hbytes := v.bytes_pos
  have htail : lengthBytes v ≤ blockBytes v := Nat.mul_le_mul_right _ (by decide)
  have hpos : 0 < lengthBytes v := Nat.mul_pos (by decide) hbytes
  have hlt : (len + 1) % blockBytes v < blockBytes v := Nat.mod_lt _ (by omega)
  have hdiv := Nat.div_add_mod (len + 1) (blockBytes v)
  split
  · refine zeros_eq (by omega) ⟨(len + 1) / blockBytes v + 2, ?_⟩
    rw [Nat.mul_add]
    omega
  · refine zeros_eq (by omega) ⟨(len + 1) / blockBytes v + 1, ?_⟩
    rw [Nat.mul_add]
    omega

theorem bytesOf_add (j k x : Nat) : bytesOf (j + k) x = bytesOf j (x / 256 ^ k) ++ bytesOf k x := by
  rw [bytesOf, List.range_add, List.map_append, List.map_map]
  refine congrArg₂ (· ++ ·) (List.map_congr_left fun i hi => ?_) (List.map_congr_left fun i hi => ?_)
  · rw [List.mem_range] at hi
    have hexp : j + k - 1 - i = k + (j - 1 - i) := by omega
    rw [hexp, Nat.pow_add, Nat.div_div_eq_div_mul]
  · have hexp : j + k - 1 - (j + i) = k - 1 - i := by omega
    rw [Function.comp_apply, hexp]

theorem bytesOf_zero (k : Nat) : bytesOf k 0 = List.replicate k 0 := by
  rw [bytesOf, List.eq_replicate_iff]
  refine ⟨by rw [List.length_map, List.length_range], fun b hb => ?_⟩
  obtain ⟨i, -, rfl⟩ := List.mem_map.1 hb
  rw [Nat.zero_div]
  rfl

/-- The schedule in an array that is filled from left to right, with so many words to go. -/
def rolled (v : Variant n) : Nat → List (BitVec n) → List (BitVec n)
  | 0, w => w
  | k + 1, w =>
    let i := w.length
    rolled v k (w ++ [lower v.lower1 (w.getD (i - 2) 0) + w.getD (i - 7) 0 + lower v.lower0 (w.getD (i - 15) 0) +
      w.getD (i - 16) 0])

theorem getD_map_range {α : Type} (f : Nat → α) (d : α) {i k : Nat} (h : i < k) :
    ((List.range k).map f).getD i d = f i := by
  rw [List.getD_eq_getElem?_getD, List.getElem?_map, List.getElem?_range h]
  rfl

/-- **The array holds the words of the recursion.** -/
theorem rolled_eq (block : List UInt8) : ∀ k m : Nat, 16 ≤ m →
    rolled v k ((List.range m).map (schedule v block)) = (List.range (m + k)).map (schedule v block)
  | 0, _, _ => rfl
  | k + 1, m, hm => by
    have hnext : schedule v block m = lower v.lower1 (schedule v block (m - 2)) + schedule v block (m - 7) +
        lower v.lower0 (schedule v block (m - 15)) + schedule v block (m - 16) := by
      rw [schedule, dif_neg (by omega)]
    rw [rolled, List.length_map, List.length_range, getD_map_range _ _ (by omega), getD_map_range _ _ (by omega),
      getD_map_range _ _ (by omega), getD_map_range _ _ (by omega), ← hnext, ← List.map_singleton,
      ← List.map_append, ← List.range_succ, rolled_eq block k (m + 1) (by omega)]
    congr 2
    omega

/-- The array is filled from the words of the block. -/
theorem rolled_words {block : List UInt8} {f : Nat → BitVec n} (k : Nat) (hf : ∀ t < 16, f t = wordOf v block t) :
    rolled v k ((List.range 16).map f) = (List.range (16 + k)).map (schedule v block) := by
  rw [← rolled_eq block k 16 (Nat.le_refl _)]
  refine congrArg _ (List.map_congr_left fun t ht => ?_)
  rw [hf t (List.mem_range.1 ht), schedule, dif_pos (List.mem_range.1 ht)]

end Sha2
