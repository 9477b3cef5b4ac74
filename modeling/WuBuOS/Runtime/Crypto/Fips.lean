import WuBuOS.Lib.Sha2
import WuBuOS.Runtime.Crypto.Sha512

/-!
# The digests are those of FIPS 180-4

Both implementations against `Lib/Sha2`: the constants are the roots of the primes, the compression functions
are the standard's (`compress_hash`), and what the last call adds to the message is the standard's padding
(`final_eq`).  Since the pieces make no difference, the digest of a message in any pieces is its hash:
`streaming_fips`.
-/

namespace WuBuOS

open Blockwise

/-! ## Bytes and words -/

theorem byte_shift (w k : Nat) (b : UInt8) : b.toBitVec.setWidth w <<< k = BitVec.ofNat w (b.toNat <<< k) := by
  refine BitVec.eq_of_toNat_eq ?_
  simp [Nat.shiftLeft_eq]

/-- One more byte at the end of a number that stands `k` bits up. -/
theorem shift_or (w n k : Nat) (b : UInt8) :
    BitVec.ofNat w (n <<< (k + 8)) ||| BitVec.ofNat w (b.toNat <<< k) = BitVec.ofNat w ((n * 256 + b.toNat) <<< k) := by
  rw [← BitVec.ofNat_or, Nat.add_comm k 8, Nat.shiftLeft_add, ← Nat.shiftLeft_or_distrib,
    ← Nat.shiftLeft_add_eq_or_of_lt b.toNat_lt, Nat.shiftLeft_eq n]

theorem take_drop_eq {l : List UInt8} {i n : Nat} (h : i + n ≤ l.length) :
    (l.drop i).take n = (List.range n).map fun j => l.getD (i + j) 0 := by
  refine List.ext_getElem (by rw [List.length_take, List.length_drop, List.length_map, List.length_range]; omega)
    fun j hj hj' => ?_
  rw [List.length_map, List.length_range] at hj'
  rw [List.getElem_take, List.getElem_drop, List.getElem_map, List.getElem_range, List.getD_eq_getElem?_getD,
    List.getElem?_eq_getElem (by omega), Option.getD_some]

theorem beBytes_eq (k : Nat) (w : BitVec (8 * k)) : Sha256.beBytes k w = Sha2.bytesOf k w.toNat := by
  refine List.map_congr_left fun i _ => ?_
  refine UInt8.toNat_inj.1 ?_
  simp [Nat.shiftRight_eq_div_pow, Nat.pow_mul]

/-- What is not there to be filled makes no difference. -/
theorem update_fill {γ : Type} {update : γ → List UInt8 → γ} {c : γ} (hnil : update c [] = c) (n k : Nat) :
    (if n < k then update c (List.replicate (k - n) 0) else c) = update c (List.replicate (k - n) 0) := by
  split
  · rfl
  · rw [Nat.sub_eq_zero_of_le (by omega), List.replicate_zero, hnil]

namespace Sha256

theorem be32_eq {block : List UInt8} {t : Nat} (h : 4 * t + 4 ≤ block.length) :
    be32 block (4 * t) = Sha2.wordOf Sha2.narrow block t := by
  have hlast := byte_shift 32 0 (block.getD (4 * t + 3) 0)
  rw [BitVec.shiftLeft_zero] at hlast
  change _ = BitVec.ofNat 32 (Sha2.number ((block.drop (4 * t)).take 4))
  rw [take_drop_eq h, be32, byte_shift, byte_shift, byte_shift, hlast, shift_or 32 _ 16, shift_or 32 _ 8, shift_or 32 _ 0]
  simp [List.range, List.range.loop, Sha2.number]

/-- The state as the standard's hash value. -/
def State.hash (s : State) : Sha2.Hash 32 := ⟨s.a, s.b, s.c, s.d, s.e, s.f, s.g, s.h⟩

theorem constants_eq : Sha2.constants Sha2.narrow = roundConstants := by
  rw [Sha2.constants, Sha2.primes_eq]
  decide +kernel

theorem schedule_eq (n : Nat) (w : List Word) : schedule n w = Sha2.rolled Sha2.narrow n w := by
  induction n generalizing w with
  | zero => rfl
  | succ n ih => exact ih _

/-- **The compression function is the standard's.** -/
theorem compress_hash (s : State) (block : List UInt8) (h : block.length = 64) :
    (compress s block).hash = Sha2.compress Sha2.narrow s.hash block := by
  have hround (l : List (Word × Word)) : (l.foldl round s).hash = l.foldl (Sha2.round Sha2.narrow) s.hash :=
    (List.foldl_hom State.hash fun _ _ => rfl).symm
  have hschedule : schedule 48 ((List.range 16).map fun i => be32 block (4 * i)) =
      (List.range 64).map (Sha2.schedule Sha2.narrow block) := by
    rw [schedule_eq]
    exact Sha2.rolled_words 48 fun i hi => be32_eq (by omega)
  have hmix := hround (roundConstants.zip ((List.range 64).map (Sha2.schedule Sha2.narrow block)))
  rw [compress, Sha2.compress, constants_eq, hschedule]
  exact congrArg (fun t : Sha2.Hash 32 => (⟨s.a + t.a, s.b + t.b, s.c + t.c, s.d + t.d, s.e + t.e, s.f + t.f,
    s.g + t.g, s.h + t.h⟩ : Sha2.Hash 32)) hmix

theorem digestOf_hash (s : State) : (digestOf s).toList = s.hash.words.flatMap fun x => Sha2.bytesOf 4 x.toNat := by
  simp [digestOf, Sha2.Hash.words, State.hash, beBytes_eq, List.Vector.toList]

theorem init_hash : init.state.hash = Sha2.initial 32 0 := by
  simp only [Sha2.initial, Sha2.primes_eq]
  decide +kernel

theorem update_nil {c : Ctx} (hc : c.Ok) : update c [] = c := by
  rw [update_eq hc, List.append_nil, absorb_of_lt hc]
  simp

/-- The bits that are counted are those of the message. -/
theorem bitlen_eq {message : List UInt8} (hlen : message.length < 2 ^ 61) :
    (update init message).bitlen.toNat = 8 * message.length := by
  rw [update_eq init_ok]
  simp [init]
  omega

/-- What `wubu_sha256_final` appends to the message. -/
theorem final_eq (message : List UInt8) (hlen : message.length < 2 ^ 61) : final (update init message) =
    digestOf (update init (message ++ Sha2.padding Sha2.narrow message.length)).state := by
  have hroom : (update (update init message) [0x80]).buf.length = (message.length + 1) % 64 := by
    rw [update_append init_ok, update_eq init_ok]
    exact ((absorb_eq (by decide) _ _).2).trans (by rw [List.length_append, List.length_append]; simp [init])
  have hbytes : beBytes 8 (update init message).bitlen = Sha2.bytesOf 8 (8 * message.length) := by
    rw [beBytes_eq, bitlen_eq hlen]
  have hzeros := Sha2.zeros_eq_room Sha2.narrow message.length
  rw [show Sha2.blockBytes Sha2.narrow = 64 from rfl, show Sha2.lengthBytes Sha2.narrow = 8 from rfl, ← hroom] at hzeros
  have hok := update_ok (update_ok init_ok message) [0x80]
  rw [final, Sha2.padding, hzeros, show Sha2.lengthBytes Sha2.narrow = 8 from rfl, ← hbytes]
  generalize hrem : (if 64 - (update (update init message) [0x80]).buf.length < 8 then
    64 - (update (update init message) [0x80]).buf.length + 64
    else 64 - (update (update init message) [0x80]).buf.length) = rem
  rw [update_fill (update_nil hok), update_append (update_ok init_ok _), update_append init_ok, update_append init_ok]
  simp

/-- **The digest of a message in pieces.** -/
theorem final_pieces (pieces : List (List UInt8)) (hlen : pieces.flatten.length < 2 ^ 61) :
    (final (pieces.foldl update init)).toList = Sha2.sha256 pieces.flatten := by
  have hpieces := foldl_pieces update init (update_nil init_ok) (update_append init_ok) pieces
  rw [hpieces, final_eq _ hlen, digestOf_hash, update_eq init_ok]
  rw [(absorb_eq (by decide) _ _).1, foldl_blocks (by decide) State.hash compress_hash, init_hash]
  rfl

end Sha256

namespace Sha512

theorem be64_eq {block : List UInt8} {t : Nat} (h : 8 * t + 8 ≤ block.length) :
    be64 block (8 * t) = Sha2.wordOf Sha2.wide block t := by
  have hlast := byte_shift 64 0 (block.getD (8 * t + 7) 0)
  rw [BitVec.shiftLeft_zero] at hlast
  change _ = BitVec.ofNat 64 (Sha2.number ((block.drop (8 * t)).take 8))
  rw [take_drop_eq h, be64, byte_shift, byte_shift, byte_shift, byte_shift, byte_shift, byte_shift, byte_shift,
    hlast, shift_or 64 _ 48, shift_or 64 _ 40, shift_or 64 _ 32, shift_or 64 _ 24, shift_or 64 _ 16,
    shift_or 64 _ 8, shift_or 64 _ 0]
  simp [List.range, List.range.loop, Sha2.number]

/-- The state as the standard's hash value. -/
def State.hash (s : State) : Sha2.Hash 64 := ⟨s.a, s.b, s.c, s.d, s.e, s.f, s.g, s.h⟩

theorem constants_eq : Sha2.constants Sha2.wide = roundConstants := by
  rw [Sha2.constants, Sha2.primes_eq]
  decide +kernel

theorem schedule_eq (n : Nat) (w : List Word) : schedule n w = Sha2.rolled Sha2.wide n w := by
  induction n generalizing w with
  | zero => rfl
  | succ n ih => exact ih _

/-- **The compression function is the standard's.** -/
theorem compress_hash (s : State) (block : List UInt8) (h : block.length = 128) :
    (compress s block).hash = Sha2.compress Sha2.wide s.hash block := by
  have hround (l : List (Word × Word)) : (l.foldl round s).hash = l.foldl (Sha2.round Sha2.wide) s.hash :=
    (List.foldl_hom State.hash fun _ _ => rfl).symm
  have hschedule : schedule 64 ((List.range 16).map fun i => be64 block (8 * i)) =
      (List.range 80).map (Sha2.schedule Sha2.wide block) := by
    rw [schedule_eq]
    exact Sha2.rolled_words 64 fun i hi => be64_eq (by omega)
  have hmix := hround (roundConstants.zip ((List.range 80).map (Sha2.schedule Sha2.wide block)))
  rw [compress, Sha2.compress, constants_eq, hschedule]
  exact congrArg (fun t : Sha2.Hash 64 => (⟨s.a + t.a, s.b + t.b, s.c + t.c, s.d + t.d, s.e + t.e, s.f + t.f,
    s.g + t.g, s.h + t.h⟩ : Sha2.Hash 64)) hmix

theorem digestOf_hash (s : State) : (digestOf s).toList = s.hash.words.flatMap fun x => Sha2.bytesOf 8 x.toNat := by
  simp [digestOf, Sha2.Hash.words, State.hash, beBytes_eq, List.Vector.toList]

theorem init512_hash : init512.state.hash = Sha2.initial 64 0 := by
  simp only [Sha2.initial, Sha2.primes_eq]
  decide +kernel

theorem init384_hash : init384.state.hash = Sha2.initial 64 8 := by
  simp only [Sha2.initial, Sha2.primes_eq]
  decide +kernel

/-- A context that has taken nothing yet; the two differ in their state only. -/
structure Fresh (c : Ctx) : Prop where
  bitlen : c.bitlen = 0
  buf : c.buf = []

theorem fresh512 : Fresh init512 := ⟨rfl, rfl⟩

theorem fresh384 : Fresh init384 := ⟨rfl, rfl⟩

variable {c : Ctx}

theorem Fresh.ok (h : Fresh c) : c.Ok := by
  rw [Ctx.Ok, h.buf]
  decide

theorem update_nil (hc : c.Ok) : update c [] = c := by
  rw [update_eq hc, List.append_nil, absorb_of_lt hc]
  simp

theorem bitlen_eq (hc : Fresh c) {message : List UInt8} (hlen : message.length < 2 ^ 61) :
    (update c message).bitlen.toNat = 8 * message.length := by
  rw [update_eq hc.ok]
  simp [hc.bitlen]
  omega

/-- The length field: the high half is zero. -/
theorem lengthField_eq (w : BitVec 64) : List.replicate 8 0 ++ Sha256.beBytes 8 w = Sha2.bytesOf 16 w.toNat := by
  rw [beBytes_eq, ← Sha2.bytesOf_zero, show 16 = 8 + 8 from rfl, Sha2.bytesOf_add,
    Nat.div_eq_of_lt (b := 256 ^ 8) w.isLt]

/-- What `wubu_sha512_final` appends to the message. -/
theorem final_eq (hc : Fresh c) (message : List UInt8) (hlen : message.length < 2 ^ 61) : final512 (update c message) =
      digestOf (update c (message ++ Sha2.padding Sha2.wide message.length)).state := by
  have hroom : (update (update c message) [0x80]).buf.length = (message.length + 1) % 128 := by
    rw [update_append hc.ok, update_eq hc.ok]
    exact ((absorb_eq (by decide) _ _).2).trans (by rw [hc.buf, List.length_append, List.length_append]; simp)
  have hbytes : List.replicate 8 0 ++ Sha256.beBytes 8 (update c message).bitlen =
      Sha2.bytesOf 16 (8 * message.length) := by
    rw [lengthField_eq, bitlen_eq hc hlen]
  have hzeros := Sha2.zeros_eq_room Sha2.wide message.length
  rw [show Sha2.blockBytes Sha2.wide = 128 from rfl, show Sha2.lengthBytes Sha2.wide = 16 from rfl, ← hroom] at hzeros
  have hok := update_ok (update_ok hc.ok message) [0x80]
  rw [final512, Sha2.padding, hzeros, show Sha2.lengthBytes Sha2.wide = 16 from rfl, ← hbytes]
  generalize hrem : (if 128 - (update (update c message) [0x80]).buf.length < 16 then
    128 - (update (update c message) [0x80]).buf.length + 128
    else 128 - (update (update c message) [0x80]).buf.length) = rem
  rw [update_fill (update_nil hok), update_append (update_ok hc.ok _), update_append hc.ok, update_append hc.ok]
  simp

/-- **The digest of a message in pieces**, from either initial value. -/
theorem final_pieces (hc : Fresh c) (pieces : List (List UInt8)) (hlen : pieces.flatten.length < 2 ^ 61) :
    (final512 (pieces.foldl update c)).toList = Sha2.hash Sha2.wide c.state.hash pieces.flatten := by
  have hpieces := foldl_pieces update c (update_nil hc.ok) (update_append hc.ok) pieces
  rw [hpieces, final_eq hc _ hlen, digestOf_hash, update_eq hc.ok]
  rw [hc.buf, List.nil_append, (absorb_eq (by decide) _ _).1, foldl_blocks (by decide) State.hash compress_hash]
  rfl

end Sha512

/-- **SHA-2 streaming is FIPS 180-4.**  A message of fewer than `2 ^ 61` bytes may be handed to the update call
in any pieces: the last call returns the hash of the whole message. -/
theorem streaming_fips (pieces : List (List UInt8)) (hlen : pieces.flatten.length < 2 ^ 61) :
    (Sha256.final (pieces.foldl Sha256.update Sha256.init)).toList = Sha2.sha256 pieces.flatten ∧
      (Sha512.final512 (pieces.foldl Sha512.update Sha512.init512)).toList = Sha2.sha512 pieces.flatten ∧
      (Sha512.final384 (pieces.foldl Sha512.update Sha512.init384)).toList = Sha2.sha384 pieces.flatten := by
  refine ⟨Sha256.final_pieces pieces hlen, ?_, ?_⟩
  · rw [Sha512.final_pieces Sha512.fresh512 pieces hlen, Sha512.init512_hash]
    rfl
  · have h := Sha512.final_pieces Sha512.fresh384 pieces hlen
    rw [Sha512.init384_hash] at h
    exact congrArg (List.take 48) h

/-- Pieces of 256 bytes in all, cut inside a block of either size, one of them empty. -/
def cutPieces : List (List UInt8) := [.replicate 100 97, [], .replicate 156 98]

theorem streaming_fips_cut :
    (Sha256.final (cutPieces.foldl Sha256.update Sha256.init)).toList = Sha2.sha256 cutPieces.flatten ∧
      (Sha512.final512 (cutPieces.foldl Sha512.update Sha512.init512)).toList = Sha2.sha512 cutPieces.flatten ∧
      (Sha512.final384 (cutPieces.foldl Sha512.update Sha512.init384)).toList = Sha2.sha384 cutPieces.flatten :=
  streaming_fips cutPieces (by decide +kernel)

example : (Sha512.final512 (Sha512.update Sha512.init512 [97, 98, 99])).toList.take 4 = [0xdd, 0xaf, 0x35, 0xa1] := by
  decide +kernel

end WuBuOS
