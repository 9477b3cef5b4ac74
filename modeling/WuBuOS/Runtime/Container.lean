import WuBuOS.Lib.Bytes

/-!
# The `.wubu` container

What `wubu_container_create` writes is read back by `wubu_container_parse`.  The other way round the sizes
of a header come from whoever wrote it, and both sums of them are 64-bit sums: a payload of 2^64 - 64 bytes
or more passes for one that is there, and so does metadata that ends beyond 2^64.  A key or a value that no
NUL ends before the metadata does is measured there, but `strncpy` reads on, past the end of the input if
nothing stops it (`ranges_inside_iff`).

A pointer into the input is an offset from its start, exact as arithmetic on pointers is.
-/

namespace WuBuOS.Container

open Bytes

/-! ## The header -/

/-- `WUBU_HEADER`, which is packed. -/
structure Header where
  magic : Vector UInt8 8
  versionMajor : UInt8
  versionMinor : UInt8
  payloadType : UInt8
  arch : UInt8
  flags : UInt16
  handlerId : UInt8
  osPersona : UInt8
  payloadSize : UInt64
  entryOffset : UInt64
  metaOffset : UInt64
  metaSize : UInt32
  headerCrc : UInt32
  handlerName : Vector UInt8 8
  reserved : Vector UInt8 8

/-- `WUBU_MAGIC` -/
def wubuMagic : Vector UInt8 8 := #v[0x57, 0x55, 0x42, 0x55, 0x21, 0, 1, 2]

/-- `WUBU_HEADER_SIZE` -/
def headerSize : UInt64 := 64

/-- The header in memory. -/
def Header.bytes (h : Header) : List UInt8 :=
  h.magic.toList ++ (le 1 h.versionMajor.toNat ++ (le 1 h.versionMinor.toNat ++ (le 1 h.payloadType.toNat ++
    (le 1 h.arch.toNat ++ (le 2 h.flags.toNat ++ (le 1 h.handlerId.toNat ++ (le 1 h.osPersona.toNat ++
    (le 8 h.payloadSize.toNat ++ (le 8 h.entryOffset.toNat ++ (le 8 h.metaOffset.toNat ++
    (le 4 h.metaSize.toNat ++ (le 4 h.headerCrc.toNat ++ (h.handlerName.toList ++ h.reserved.toList)))))))))))))

/-- A `char[8]`. -/
def chars (m : Nat → UInt8) (a : Nat) : Vector UInt8 8 := ⟨(slice m a 8).toArray, by simp⟩

/-- The header at the start of the input. -/
def headerOf (m : Nat → UInt8) : Header where
  magic := chars m 0
  versionMajor := .ofNat (get m 8 1)
  versionMinor := .ofNat (get m 9 1)
  payloadType := .ofNat (get m 10 1)
  arch := .ofNat (get m 11 1)
  flags := .ofNat (get m 12 2)
  handlerId := .ofNat (get m 14 1)
  osPersona := .ofNat (get m 15 1)
  payloadSize := .ofNat (get m 16 8)
  entryOffset := .ofNat (get m 24 8)
  metaOffset := .ofNat (get m 32 8)
  metaSize := .ofNat (get m 40 4)
  headerCrc := .ofNat (get m 44 4)
  handlerName := chars m 48
  reserved := chars m 56

/-- One byte of `wubu_crc32`. -/
def crcByte (crc : UInt32) (b : UInt8) : UInt32 :=
  (List.range 8).foldl (fun crc _ => (crc >>> 1) ^^^ (0xEDB88320 &&& (0 - (crc &&& 1)))) (crc ^^^ b.toUInt32)

def wubuCrc32 (data : List UInt8) : UInt32 := data.foldl crcByte 0xFFFFFFFF ^^^ 0xFFFFFFFF

/-- The checksum of a header, over its bytes with `header_crc` 0. -/
def Header.crc (h : Header) : UInt32 := wubuCrc32 { h with headerCrc := 0 }.bytes

/-! ## Create and parse -/

/-- The header that is written: magic, version, size and CRC are filled in. -/
def Header.filled (header : Header) (payloadSize : UInt64) : Header :=
  let hdr := { header with magic := wubuMagic, versionMajor := 1, versionMinor := 0, payloadSize := payloadSize }
  { hdr with headerCrc := hdr.crc }

/-- The bytes written to `out_buf`, which has `outBufSize` bytes. -/
def wubuContainerCreate (header : Header) (payload : List UInt8) (outBufSize : UInt64) : Option (List UInt8) :=
  let payloadSize := UInt64.ofNat payload.length
  if outBufSize < headerSize + payloadSize then none
  else some ((header.filled payloadSize).bytes ++ payload)

/-- What `wubu_container_parse` returns. -/
structure Parsed where
  header : Header
  payload : Nat
  payloadSize : UInt64

/-- The checks of `wubu_container_parse`. -/
def Accepted (data : Nat → UInt8) (dataSize : UInt64) : Prop :=
  let hdr := headerOf data
  ¬dataSize < headerSize ∧ hdr.magic = wubuMagic ∧ hdr.versionMajor = 1 ∧
    ¬dataSize < headerSize + hdr.payloadSize ∧ hdr.headerCrc = hdr.crc

instance (data : Nat → UInt8) (dataSize : UInt64) : Decidable (Accepted data dataSize) :=
  inferInstanceAs (Decidable (_ ∧ _))

def wubuContainerParse (data : Nat → UInt8) (dataSize : UInt64) : Option Parsed :=
  let hdr := headerOf data
  if Accepted data dataSize then some ⟨hdr, headerSize.toNat, hdr.payloadSize⟩ else none

theorem parse_of_accepted {data : Nat → UInt8} {dataSize : UInt64} (hacc : Accepted data dataSize) :
    wubuContainerParse data dataSize = some ⟨headerOf data, 64, (headerOf data).payloadSize⟩ :=
  if_pos hacc

/-! ## The metadata -/

/-- `strnlen` -/
def strnlen (m : Nat → UInt8) (p : Nat) : Nat → Nat
  | 0 => 0
  | n + 1 => if m p = 0 then 0 else strnlen m (p + 1) n + 1

/-- What `strncpy (dst, p, n)` copies; the rest of `dst` is 0. -/
def strncpy (m : Nat → UInt8) (p n : Nat) : List UInt8 := slice m p (strnlen m p n)

/-- `WUBU_META_ENTRY` -/
structure MetaEntry where
  key : List UInt8
  value : List UInt8

/-- The entries filled in, how many of them count, and the end of each range that was read. -/
structure Walked where
  entries : List MetaEntry
  count : Nat
  ends : List Nat

/-- Where `strnlen (p, n)` or `strncpy (dst, p, n)` stops reading. -/
def readEnd (m : Nat → UInt8) (p n : Nat) : Nat := p + min (strnlen m p n + 1) n

/-- The loop of `wubu_container_read_meta`, with room for so many more entries. -/
def walk (m : Nat → UInt8) (metaEnd : Nat) : Nat → Nat → Walked
  | 0, _ => ⟨[], 0, []⟩
  | room + 1, p =>
    if p < metaEnd then
      let klen := strnlen m p (metaEnd - p)
      let r1 := readEnd m p (metaEnd - p)
      if 32 ≤ klen then ⟨[], 0, [r1]⟩
      else
        let key := strncpy m p 31
        let r2 := readEnd m p 31
        let q := p + klen + 1
        if metaEnd ≤ q then ⟨[⟨key, []⟩], 0, [r1, r2]⟩
        else
          let vlen := strnlen m q (metaEnd - q)
          let r3 := readEnd m q (metaEnd - q)
          if 64 ≤ vlen then ⟨[⟨key, []⟩], 0, [r1, r2, r3]⟩
          else
            let value := strncpy m q 63
            let rest := walk m metaEnd room (q + vlen + 1)
            ⟨⟨key, value⟩ :: rest.entries, rest.count + 1, r1 :: r2 :: r3 :: readEnd m q 63 :: rest.ends⟩
    else ⟨[], 0, []⟩

/-- What `wubu_container_read_meta` reads, and from which range. -/
structure MetaRead where
  range : Option (Nat × Nat)
  walked : Walked

def wubuContainerReadMeta (data : Nat → UInt8) (dataSize : UInt64) : Option MetaRead :=
  match wubuContainerParse data dataSize with
  | none => none
  | some ⟨hdr, payload, _⟩ =>
    if hdr.metaOffset = 0 ∨ hdr.metaSize = 0 then some ⟨none, ⟨[], 0, []⟩⟩
    else if hdr.payloadSize < hdr.metaOffset + hdr.metaSize.toUInt64 then none
    else
      let metaData := payload + hdr.metaOffset.toNat
      let metaEnd := metaData + hdr.metaSize.toNat
      some ⟨some (metaData, metaEnd), walk data metaEnd 16 metaData⟩

/-! ## What is created can be parsed -/

variable {m : Nat → UInt8} {dataSize : UInt64} {h : Header} {a p n e size : Nat}

theorem chars_at {v : Vector UInt8 8} (hat : At m a v.toList) : chars m a = v := by
  have hs := hat.slice
  rw [Vector.length_toList] at hs
  exact Vector.toList_inj.1 hs

theorem headerOf_bytes (hat : At m 0 h.bytes) : headerOf m = h := by
  simp only [Header.bytes, at_append, length_le, Vector.length_toList] at hat
  obtain ⟨h0, h1, h2, h3, h4, h5, h6, h7, h8, h9, h10, h11, h12, h13, h14⟩ := hat
  have e1 {x : UInt8} {a : Nat} (hx : At m a (le 1 x.toNat)) : UInt8.ofNat (get m a 1) = x := by
    simp [hx.get]
  have e8 {x : UInt64} {a : Nat} (hx : At m a (le 8 x.toNat)) : UInt64.ofNat (get m a 8) = x := by
    simp [hx.get]
  have e4 {x : UInt32} {a : Nat} (hx : At m a (le 4 x.toNat)) : UInt32.ofNat (get m a 4) = x := by
    simp [hx.get]
  have e2 : UInt16.ofNat (get m 12 2) = h.flags := by simp [h5.get]
  simp only [headerOf, chars_at h0, e1 h1, e1 h2, e1 h3, e1 h4, e2, e1 h6, e1 h7, e8 h8, e8 h9, e8 h10, e4 h11,
    e4 h12, chars_at h13, chars_at h14]

theorem length_bytes (h : Header) : h.bytes.length = 64 := by
  simp [Header.bytes]

/-- Filled in again, the field that holds the checksum does not count. -/
theorem crc_filled (h : Header) (payloadSize : UInt64) :
    (h.filled payloadSize).headerCrc = (h.filled payloadSize).crc := rfl

/-- The size of a payload that fits a buffer does not wrap. -/
theorem size_toNat (hn : 64 + n < 2 ^ 64) :
    (UInt64.ofNat n).toNat = n ∧ (headerSize + UInt64.ofNat n).toNat = 64 + n := by
  have h1 : (UInt64.ofNat n).toNat = n := UInt64.toNat_ofNat_of_lt' (show n < 2 ^ 64 by omega)
  refine ⟨h1, ?_⟩
  rw [UInt64.toNat_add, h1]
  exact Nat.mod_eq_of_lt hn

/-- The payload is written and read back, with the header filled in. -/
def RoundTrip (h : Header) (payload : List UInt8) (outBufSize : UInt64) : Prop :=
  ∃ out, wubuContainerCreate h payload outBufSize = some out ∧
    ∀ m, At m 0 out → wubuContainerParse m (.ofNat out.length) =
        some ⟨h.filled (.ofNat payload.length), 64, .ofNat payload.length⟩ ∧
      slice m 64 payload.length = payload

theorem parse_created {payload : List UInt8} {outBufSize : UInt64}
    (hfit : 64 + payload.length ≤ outBufSize.toNat) : RoundTrip h payload outBufSize := by
  have hlt : 64 + payload.length < 2 ^ 64 := lt_of_le_of_lt hfit outBufSize.toNat_lt
  obtain ⟨-, hsum⟩ := size_toNat hlt
  have hout : ((h.filled (.ofNat payload.length)).bytes ++ payload).length = 64 + payload.length := by
    rw [List.length_append, length_bytes]
  refine ⟨(h.filled (.ofNat payload.length)).bytes ++ payload, ?_, fun m hat => ?_⟩
  · rw [wubuContainerCreate, if_neg]
    rwa [UInt64.lt_iff_toNat_lt, hsum, Nat.not_lt]
  · rw [at_append, length_bytes, Nat.zero_add] at hat
    have hhdr := headerOf_bytes hat.1
    refine ⟨?_, hat.2.slice⟩
    have hacc : Accepted m (.ofNat (64 + payload.length)) := by
      have hsize : (UInt64.ofNat (64 + payload.length)).toNat = 64 + payload.length :=
        UInt64.toNat_ofNat_of_lt' hlt
      rw [Accepted, hhdr, UInt64.lt_iff_toNat_lt, UInt64.lt_iff_toNat_lt, hsize]
      refine ⟨Nat.not_lt.2 (Nat.le_add_right ..), rfl, rfl, ?_, crc_filled ..⟩
      exact Nat.not_lt.2 (Nat.le_of_eq hsum)
    rw [hout, parse_of_accepted hacc, hhdr]
    rfl

/-! ## Where the ranges lie -/

/-- There is no NUL in a string, and one behind it, if it is shorter than the limit. -/
theorem strnlen_spec (m : Nat → UInt8) (p n : Nat) : strnlen m p n ≤ n ∧ (∀ i < strnlen m p n, m (p + i) ≠ 0) ∧
    (strnlen m p n < n → m (p + strnlen m p n) = 0) := by
  induction n generalizing p with
  | zero => exact ⟨Nat.le_refl 0, fun i hi => absurd hi (Nat.not_lt_zero i), fun h => absurd h (Nat.lt_irrefl 0)⟩
  | succ n ih =>
    obtain ⟨hle, hne, hnul⟩ := ih (p + 1)
    rw [strnlen]
    split
    · next hp => exact ⟨Nat.zero_le _, fun i hi => absurd hi (Nat.not_lt_zero i), fun _ => hp⟩
    · next hp =>
      refine ⟨Nat.succ_le_succ hle, fun i hi => ?_, fun hlt => ?_⟩
      · cases i with
        | zero => exact hp
        | succ i =>
          have := hne i (Nat.lt_of_succ_lt_succ hi)
          rwa [Nat.add_assoc, Nat.add_comm 1 i] at this
      · have := hnul (Nat.lt_of_succ_lt_succ hlt)
        rwa [Nat.add_assoc, Nat.add_comm 1] at this

/-- A read ends at the first NUL, so it leaves the input if there is none and too little of the input is left. -/
theorem readEnd_le_iff (hp : p ≤ size) :
    readEnd m p n ≤ size ↔ ¬(size - p < n ∧ ∀ x, p ≤ x → x < size → m x ≠ 0) := by
  obtain ⟨hle, hne, hnul⟩ := strnlen_spec m p n
  rw [readEnd]
  constructor
  · rintro hend ⟨hshort, hno⟩
    exact hno _ (Nat.le_add_right ..) (by omega) (hnul (by omega))
  · intro h
    by_contra hend
    refine h ⟨by omega, fun x hx hlt => ?_⟩
    have hin := hne (x - p) (by omega)
    rwa [Nat.add_sub_cancel' hx] at hin

/-- A string of the metadata that no NUL ends before the metadata does, and that the walk comes to: the input
ends before any NUL and before as many bytes as are copied of it. -/
def RunsOff (m : Nat → UInt8) (e size : Nat) : Nat → Nat → Prop
  | 0, _ => False
  | k + 1, p =>
    let room := if k % 2 = 1 then 32 else 64
    let len := strnlen m p (e - p)
    p < e ∧ len < room ∧
      if p + len < e then RunsOff m e size k (p + len + 1)
      else size - p < room - 1 ∧ ∀ x, p ≤ x → x < size → m x ≠ 0

/-- Of a string that a NUL ends in the metadata, nothing behind it is read. -/
theorem readEnd_terminated (he : e ≤ size) (ht : p + strnlen m p (e - p) < e) (n : Nat) : readEnd m p n ≤ size :=
  (readEnd_le_iff (by omega)).2 fun ⟨_, hno⟩ =>
    hno _ (Nat.le_add_right ..) (by omega) ((strnlen_spec m p (e - p)).2.2 (by omega))

/-- What is measured of a string lies in the metadata. -/
theorem readEnd_measured (he : e ≤ size) (hp : p < e) : readEnd m p (e - p) ≤ size := by
  rw [readEnd]
  omega

/-- What the walk reads lies inside the input, unless it runs off. -/
theorem walk_inside_iff (he : e ≤ size) (n p : Nat) :
    (∀ r ∈ (walk m e n p).ends, r ≤ size) ↔ ¬RunsOff m e size (2 * n) p := by
  induction n generalizing p with
  | zero => simp [walk, RunsOff]
  | succ n ih =>
    rw [walk, Nat.mul_succ, RunsOff, RunsOff]
    have hodd : (2 * n + 1) % 2 = 1 := by omega
    have heven : ¬2 * n % 2 = 1 := by omega
    simp only [if_pos hodd, if_neg heven]
    by_cases hp : p < e
    case neg => simp [hp]
    have hr1 := readEnd_measured (m := m) he hp
    by_cases hk : 32 ≤ strnlen m p (e - p)
    · simp [hp, hk, Nat.not_lt.2 hk, hr1]
    have hlt := Nat.lt_of_not_le hk
    by_cases ht : p + strnlen m p (e - p) < e
    case neg =>
      have hq : e ≤ p + strnlen m p (e - p) + 1 := by omega
      simpa [hp, hk, hlt, hq, ht, hr1] using readEnd_le_iff (m := m) (n := 31) (Nat.le_of_lt (Nat.lt_of_lt_of_le hp he))
    have hr2 := readEnd_terminated he ht 31
    generalize p + strnlen m p (e - p) + 1 = q
    by_cases hq : e ≤ q
    · simp [hp, hk, hlt, hq, ht, hr1, hr2, Nat.not_lt.2 hq]
    have hq2 := Nat.lt_of_not_le hq
    have hr3 := readEnd_measured (m := m) he hq2
    by_cases hv : 64 ≤ strnlen m q (e - q)
    · simp [hp, hk, hlt, ht, hq, hq2, hv, Nat.not_lt.2 hv, hr1, hr2, hr3]
    have hvlt := Nat.lt_of_not_le hv
    by_cases hu : q + strnlen m q (e - q) < e
    · have hr4 := readEnd_terminated he hu 63
      simpa [hp, hk, hlt, ht, hq, hq2, hv, hvlt, hu, hr1, hr2, hr3, hr4] using ih (q + strnlen m q (e - q) + 1)
    · have hend : walk m e n (q + strnlen m q (e - q) + 1) = ⟨[], 0, []⟩ := by
        cases n with
        | zero => rfl
        | succ n => exact if_neg (by omega)
      simpa [hp, hk, hlt, ht, hq, hq2, hv, hvlt, hu, hr1, hr2, hr3, hend] using
        readEnd_le_iff (m := m) (n := 63) (Nat.le_of_lt (Nat.lt_of_lt_of_le hq2 he))

/-! ## The claims -/

/-- The range that is reported as the payload, the range of the metadata and what is read of it lie inside
the input. -/
def RangesInside (data : Nat → UInt8) (dataSize : UInt64) : Prop :=
  (∀ parsed, wubuContainerParse data dataSize = some parsed →
    parsed.payload + parsed.payloadSize.toNat ≤ dataSize.toNat) ∧
  ∀ read, wubuContainerReadMeta data dataSize = some read →
    (∀ start stop, read.range = some (start, stop) → stop ≤ dataSize.toNat) ∧
      ∀ stop ∈ read.walked.ends, stop ≤ dataSize.toNat

/-- The metadata is there and in the payload, as `wubu_container_read_meta` sees it. -/
def HasMeta (hdr : Header) : Prop :=
  ¬(hdr.metaOffset = 0 ∨ hdr.metaSize = 0) ∧ ¬hdr.payloadSize < hdr.metaOffset + hdr.metaSize.toUInt64

/-- The sums of the header do not wrap, and no string runs off. -/
def Sound (data : Nat → UInt8) (dataSize : UInt64) : Prop :=
  let hdr := headerOf data
  let metaData := 64 + hdr.metaOffset.toNat
  64 + hdr.payloadSize.toNat < 2 ^ 64 ∧ (HasMeta hdr →
    hdr.metaOffset.toNat + hdr.metaSize.toNat < 2 ^ 64 ∧
      ¬RunsOff data (metaData + hdr.metaSize.toNat) dataSize.toNat 32 metaData)

theorem payload_inside_iff (hacc : Accepted m dataSize) :
    64 + (headerOf m).payloadSize.toNat ≤ dataSize.toNat ↔ 64 + (headerOf m).payloadSize.toNat < 2 ^ 64 := by
  obtain ⟨-, -, -, hsize, -⟩ := hacc
  rw [UInt64.lt_iff_toNat_lt, UInt64.toNat_add, Nat.not_lt] at hsize
  constructor
  · intro h
    exact Nat.lt_of_le_of_lt h dataSize.toNat_lt
  · intro h
    exact Nat.le_trans (Nat.le_of_eq (Nat.mod_eq_of_lt h).symm) hsize

theorem meta_inside_iff (hmeta : HasMeta h) (hpay : 64 + h.payloadSize.toNat ≤ dataSize.toNat) :
    64 + h.metaOffset.toNat + h.metaSize.toNat ≤ dataSize.toNat ↔
      h.metaOffset.toNat + h.metaSize.toNat < 2 ^ 64 := by
  obtain ⟨-, hsize⟩ := hmeta
  rw [UInt64.lt_iff_toNat_lt, UInt64.toNat_add, Nat.not_lt, UInt32.toNat_toUInt64] at hsize
  have hlt := dataSize.toNat_lt
  constructor
  · omega
  · intro h
    rw [Nat.mod_eq_of_lt h] at hsize
    omega

/-- **Round trip and ranges.**  What is created is parsed back; and the ranges of an input that is accepted lie
inside it if and only if neither sum of its header wraps and no string of its metadata runs off. -/
theorem ranges_inside_iff (h : Header) (payload : List UInt8) (outBufSize : UInt64) (data : Nat → UInt8)
    (dataSize : UInt64) : (64 + payload.length ≤ outBufSize.toNat → RoundTrip h payload outBufSize) ∧
      (RangesInside data dataSize ↔ (Accepted data dataSize → Sound data dataSize)) := by
  refine ⟨fun hfit => parse_created hfit, ?_⟩
  by_cases hacc : Accepted data dataSize
  case neg => simp [RangesInside, wubuContainerReadMeta, wubuContainerParse, hacc]
  rw [RangesInside, wubuContainerReadMeta, parse_of_accepted hacc, Sound, ← payload_inside_iff hacc]
  dsimp only
  constructor
  · rintro ⟨hp, hr⟩ -
    have hpay := hp _ rfl
    refine ⟨hpay, fun hmeta => ?_⟩
    rw [if_neg hmeta.1, if_neg hmeta.2] at hr
    obtain ⟨hrange, hends⟩ := hr _ rfl
    have hstop := hrange _ _ rfl
    exact ⟨(meta_inside_iff hmeta hpay).1 hstop, (walk_inside_iff hstop 16 _).1 hends⟩
  · intro hs
    obtain ⟨hpay, hsound⟩ := hs hacc
    refine ⟨fun parsed hp => by cases hp; exact hpay, fun read hr => ?_⟩
    split at hr
    · rw [← Option.some.inj hr]
      exact ⟨fun _ _ h => (nomatch h), fun _ h => (nomatch h)⟩
    · next h0 =>
      by_cases hsize : (headerOf data).payloadSize < (headerOf data).metaOffset + (headerOf data).metaSize.toUInt64
      · rw [if_pos hsize] at hr
        exact (nomatch hr)
      · rw [if_neg hsize] at hr
        obtain ⟨hsum, hoff⟩ := hsound ⟨h0, hsize⟩
        have hstop := (meta_inside_iff ⟨h0, hsize⟩ hpay).2 hsum
        rw [← Option.some.inj hr]
        refine ⟨fun _ _ h => ?_, (walk_inside_iff hstop 16 _).2 hoff⟩
        rwa [← (Prod.mk.inj (Option.some.inj h)).2]

/-- A header alone, for a payload of 2^64 - 64 bytes. -/
def endless : Header :=
  Header.filled ⟨wubuMagic, 1, 0, 0, 0, 0, 0, 0, 0, 0, 0, 0, 0, .replicate 8 0, .replicate 8 0⟩ (0 - 64)

theorem endless_outside : ¬∀ data dataSize, RangesInside data dataSize := by
  intro hall
  obtain ⟨hp, -⟩ := hall (fun i => endless.bytes.getD i 0) 64
  have hhdr := headerOf_bytes (at_getD endless.bytes)
  have hsize : ¬(64 : UInt64) < headerSize + (0 - 64) := by decide
  have hacc : Accepted (fun i => endless.bytes.getD i 0) 64 := by
    rw [Accepted, hhdr]
    exact ⟨UInt64.lt_irrefl 64, rfl, rfl, hsize, crc_filled ..⟩
  have hle := hp _ (parse_of_accepted hacc)
  have hpast : ¬64 + (0 - 64 : UInt64).toNat ≤ (64 : UInt64).toNat := by decide
  rw [hhdr] at hle
  exact hpast hle

end WuBuOS.Container
