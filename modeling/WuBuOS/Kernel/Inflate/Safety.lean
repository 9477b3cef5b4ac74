import WuBuOS.Kernel.Inflate.Checked

/-!
# The inflater ends and stays within its buffers

`wubu_inflate` and `wubu_gunzip` put a header before what `inflate_raw` decodes.  All three of them end and use
no index out of range if and only if the lengths of the stored blocks that are come to are there
(`inflate_safe_iff`).  Of sources that are five bytes or more short of 4 GB this is always so; behind a source of
stored blocks that fill it to the last byte, the next one passes its bound check (`longSource_unsafe`).
-/

namespace WuBuOS
namespace Inflate
namespace Checked

variable {α : Type} {src data t out : List UInt8} {cap n p guard : Nat}

/-! ## The two formats -/

/-- A byte of the source. -/
def byteAt (src : List UInt8) (i : Nat) : Except Stop Nat :=
  if i < src.length then .ok (src.getD i 0).toNat else .error .wild

/-- `wubu_inflate_raw`; the bytes and how many of the source have been consumed. -/
def wubuInflateRaw (src : List UInt8) (cap : Nat) : Except Stop (List UInt8 × Nat) :=
  (inflateRaw src cap).map fun r => (r.out, r.used)

def wubuInflate (src : List UInt8) (cap : Nat) : Except Stop (List UInt8 × Nat) :=
  if src.length < 2 then .error (.refused (-1))
  else do
    let cmf ← byteAt src 0
    let flg ← byteAt src 1
    if cmf &&& 0x0f ≠ 8 then .error (.refused (-1))
    else if 7 < cmf >>> 4 &&& 0x0f then .error (.refused (-1))
    else if (cmf * 256 + flg) % 31 ≠ 0 then .error (.refused (-1))
    else do
      let r ← wubuInflateRaw (src.drop 2) cap
      let total := 2 + r.2
      .ok (r.1, if (total + 4) % 2 ^ 32 ≤ src.length then (total + 4) % 2 ^ 32 else total)

/-- The optional extra field of a gzip header. -/
def skipExtra (src : List UInt8) (pos : Nat) : Except Stop Nat :=
  if src.length < pos + 2 then .error (.refused (-1))
  else do
    let lo ← byteAt src pos
    let hi ← byteAt src (pos + 1)
    let pos := pos + 2 + (lo ||| hi <<< 8)
    if src.length < pos then .error (.refused (-1)) else .ok pos

/-- A string of a gzip header, with the zero at its end. -/
def skipString (src : List UInt8) : Nat → Nat → Except Stop Nat
  | 0, _ => .error .hung
  | fuel + 1, pos =>
    if pos < src.length then do
      let c ← byteAt src pos
      if c ≠ 0 then skipString src fuel (pos + 1) else .ok (pos + 1)
    else .error (.refused (-1))

/-- The checksum of a gzip header. -/
def skipChecksum (src : List UInt8) (pos : Nat) : Except Stop Nat :=
  let pos := (pos + 2) % 2 ^ 32
  if src.length < pos then .error (.refused (-1)) else .ok pos

/-- A part of the header that is there if a flag is set. -/
def skipIf (set : Prop) [Decidable set] (skip : Nat → Except Stop Nat) (pos : Nat) : Except Stop Nat :=
  if set then skip pos else .ok pos

def wubuGunzip (src : List UInt8) (cap : Nat) : Except Stop (List UInt8 × Nat) :=
  if src.length < 18 then .error (.refused (-1))
  else do
    let id1 ← byteAt src 0
    let id2 ← byteAt src 1
    if id1 ≠ 0x1f ∨ id2 ≠ 0x8b then .error (.refused (-1))
    else do
      let cm ← byteAt src 2
      if cm ≠ 8 then .error (.refused (-1))
      else do
        let flg ← byteAt src 3
        let pos ← skipIf (flg &&& 0x04 ≠ 0) (skipExtra src) 10
        let pos ← skipIf (flg &&& 0x08 ≠ 0) (skipString src (src.length + 1)) pos
        let pos ← skipIf (flg &&& 0x10 ≠ 0) (skipString src (src.length + 1)) pos
        let pos ← skipIf (flg &&& 0x02 ≠ 0) (skipChecksum src) pos
        if src.length < pos then .error (.refused (-1))
        else if src.length - 8 < pos then .error (.refused (-1))
        else do
          let r ← wubuInflateRaw ((src.drop pos).take (src.length - 8 - pos)) cap
          .ok (r.1, pos + r.2 + 8)

/-! ## What is safe -/

/-- It ends, without an index out of range, and what it returns has the property. -/
def Ends (x : Except Stop α) (P : α → Prop) : Prop :=
  match x with
  | .ok a => P a
  | .error (.refused _) => True
  | .error _ => False

/-- **It is safe**, with so much room and such a source: it ends, all indices are in range, and it reports no more
output than there is room for and no more of the source consumed than there is. -/
def Safe (cap n : Nat) (x : Except Stop (List UInt8 × Nat)) : Prop := Ends x fun r => r.1.length ≤ cap ∧ r.2 ≤ n

section

variable {β : Type} {x : Except Stop α} {f : α → Except Stop β} {P : α → Prop} {Q : β → Prop}

theorem Ends.bind (h : Ends x P) (hf : ∀ a, P a → Ends (f a) Q) : Ends (x >>= f) Q := by
  cases x with
  | ok a => exact hf a h
  | error e =>
    cases e with
    | refused c => trivial
    | _ => exact h

theorem Ends.ite {c : Prop} [Decidable c] {y : Except Stop α} (h : c → Ends x P) (h' : ¬c → Ends y P) :
    Ends (if c then x else y) P := by
  split
  · exact h ‹_›
  · exact h' ‹_›

end

theorem byteAt_ends {i : Nat} (h : i < src.length) : Ends (byteAt src i) (· < 256) := by
  rw [byteAt, if_pos h]
  exact (src.getD i 0).toNat_lt

theorem wubuInflateRaw_safe (hin : LengthsThere cap 1000000 (.start src) []) :
    Safe cap src.length (wubuInflateRaw src cap) := by
  obtain ⟨heq, hpost⟩ := inflateRaw_sound hin
  rw [wubuInflateRaw]
  cases hrun : inflateRaw src cap with
  | error e =>
    rw [hrun] at heq
    cases hplain : Inflate.inflateRaw src cap with
    | error c =>
      rw [hplain] at heq
      obtain rfl := Except.error.inj heq
      trivial
    | ok r =>
      rw [hplain] at heq
      cases heq
  | ok r => exact hpost r hrun

/-- **A length that is not there** is read all the same. -/
theorem inflateLoop_wild {b : Reader} (hsrc : src.length < 2 ^ 32) (hb : Within src b.toBr) (hout : out.length ≤ cap)
    (h : ¬LengthsThere cap guard b out) : inflateLoop cap guard b out = .error .wild := by
  induction guard generalizing b out with
  | zero => exact absurd trivial h
  | succ guard ih =>
    rw [LengthsThere, hb.data] at h
    rw [inflateLoop_succ]
    have hpos := hb.header.pos
    by_cases hhere : (blockHeader b).2.1 = 0 →
        (blockHeader b).2.2.pos + 4 < 2 ^ 32 ∨ (blockHeader b).2.2.pos + 1 < src.length
    · have hrest : ∃ r, blockOf cap (blockHeader b).2.1 (blockHeader b).2.2 out = .ok r ∧ (blockHeader b).1 = 0 ∧
          ¬LengthsThere cap guard r.1 r.2 := by
        by_contra hnone
        push Not at hnone
        exact h ⟨hhere, fun r hr hfinal => hnone r hr hfinal⟩
      obtain ⟨r, hr, hfinal, hnext⟩ := hrest
      obtain ⟨hb', hout'⟩ := (blockOf_sound hhere hb.header hout).post r hr
      rw [hr, bind_ok, afterBlock, if_neg (by rw [hfinal]; decide)]
      exact ih hb' hout' hnext
    · rw [Classical.not_imp, not_or] at hhere
      obtain ⟨hstored, hpast, hmissing⟩ := hhere
      have hblock : blockStored cap (blockHeader b).2.2 out = .error .wild := by
        have hdata : (blockHeader b).2.2.data = src := hb.header.data
        rw [blockStored, if_neg, if_pos]
        · change (blockHeader b).2.2.data.length ≤ (blockHeader b).2.2.pos + 1
          rw [hdata]
          omega
        · change ¬(blockHeader b).2.2.data.length < ((blockHeader b).2.2.pos + 4) % 2 ^ 32
          rw [hdata]
          omega
      rw [blockOf, if_pos hstored, hblock]
      rfl

theorem not_safe_of_wild {x : Except Stop (List UInt8 × Nat)} (h : x = .error .wild) : ¬Safe cap n x := by
  rw [h]
  exact id

theorem wubuInflateRaw_wild (hsrc : src.length < 2 ^ 32) (h : ¬LengthsThere cap 1000000 (.start src) []) :
    wubuInflateRaw src cap = .error .wild := by
  rw [wubuInflateRaw, inflateRaw, inflateLoop_wild hsrc (within_start src) (Nat.zero_le cap) h]
  rfl

theorem wubuInflateRaw_safe_iff (hsrc : src.length < 2 ^ 32) (cap : Nat) :
    Safe cap src.length (wubuInflateRaw src cap) ↔ LengthsThere cap 1000000 (.start src) [] := by
  refine ⟨fun hsafe => ?_, wubuInflateRaw_safe⟩
  by_contra hnot
  exact not_safe_of_wild (wubuInflateRaw_wild hsrc hnot) hsafe

/-- The header that `wubu_inflate` asks for. -/
def ZlibHeader (src : List UInt8) : Prop :=
  2 ≤ src.length ∧ (src.getD 0 0).toNat &&& 0x0f = 8 ∧ (src.getD 0 0).toNat >>> 4 &&& 0x0f ≤ 7 ∧
    ((src.getD 0 0).toNat * 256 + (src.getD 1 0).toNat) % 31 = 0

theorem wubuInflate_safe_iff (hsrc : src.length < 2 ^ 32) (cap : Nat) : Safe cap src.length (wubuInflate src cap) ↔
    (ZlibHeader src → LengthsThere cap 1000000 (.start (src.drop 2)) []) := by
  rw [wubuInflate]
  by_cases hlen : src.length < 2
  · rw [if_pos hlen]
    exact iff_of_true trivial fun h => absurd h.1 (Nat.not_le.2 hlen)
  have hdrop : (src.drop 2).length = src.length - 2 := List.length_drop
  have h0 : byteAt src 0 = .ok (src.getD 0 0).toNat := if_pos (by omega)
  have h1 : byteAt src 1 = .ok (src.getD 1 0).toNat := if_pos (by omega)
  rw [if_neg hlen, h0, bind_ok, h1, bind_ok]
  split
  · exact iff_of_true trivial fun h => absurd h.2.1 ‹_›
  split
  · exact iff_of_true trivial fun h => absurd h.2.2.1 (Nat.not_le.2 ‹_›)
  split
  · exact iff_of_true trivial fun h => absurd h.2.2.2 ‹_›
  rename_i hcm hcinfo hcheck
  have hheader : ZlibHeader src := ⟨Nat.le_of_not_lt hlen, not_not.1 hcm, Nat.le_of_not_lt hcinfo, not_not.1 hcheck⟩
  refine ⟨fun hsafe _ => ?_, fun hin => (wubuInflateRaw_safe (hin hheader)).bind fun r hr => ⟨hr.1, ?_⟩⟩
  · by_contra hnot
    rw [wubuInflateRaw_wild (by omega) hnot] at hsafe
    exact hsafe
  · split
    · assumption
    · omega

theorem skipExtra_ends (p : Nat) : Ends (skipExtra src p) (· ≤ src.length) := by
  refine .ite (fun _ => trivial) fun hlen => ?_
  refine (byteAt_ends (by omega)).bind fun lo _ => (byteAt_ends (by omega)).bind fun hi _ => ?_
  exact .ite (fun _ => trivial) fun hle => Nat.le_of_not_lt hle

theorem skipString_ends {fuel : Nat} (hp : p ≤ src.length) (h : src.length < p + fuel) :
    Ends (skipString src fuel p) (· ≤ src.length) := by
  induction fuel generalizing p with
  | zero => omega
  | succ fuel ih =>
    refine .ite (fun hlt => ?_) fun _ => trivial
    exact (byteAt_ends hlt).bind fun c _ => .ite (fun _ => ih hlt (by omega)) fun _ => hlt

theorem skipChecksum_ends (p : Nat) : Ends (skipChecksum src p) (· ≤ src.length) :=
  .ite (fun _ => trivial) fun hle => Nat.le_of_not_lt hle

theorem skipIf_ends {set : Prop} [Decidable set] {skip : Nat → Except Stop Nat} {P : Nat → Prop}
    (h : Ends (skip p) P) (h' : P p) : Ends (skipIf set skip p) P :=
  .ite (fun _ => h) fun _ => h'

theorem wubuGunzip_safe (hsrc : src.length < 2 ^ 32) (cap : Nat) : Safe cap src.length (wubuGunzip src cap) := by
  refine .ite (fun _ => trivial) fun hlen => ?_
  refine (byteAt_ends (by omega)).bind fun id1 _ => (byteAt_ends (by omega)).bind fun id2 _ => ?_
  refine .ite (fun _ => trivial) fun _ => (byteAt_ends (by omega)).bind fun cm _ => .ite (fun _ => trivial) fun _ => ?_
  refine (byteAt_ends (by omega)).bind fun flg _ => ?_
  refine (skipIf_ends (skipExtra_ends 10) (by omega)).bind fun p1 h1 => ?_
  refine (skipIf_ends (skipString_ends h1 (by omega)) h1).bind fun p2 h2 => ?_
  refine (skipIf_ends (skipString_ends h2 (by omega)) h2).bind fun p3 h3 => ?_
  refine (skipIf_ends (skipChecksum_ends p3) h3).bind fun p4 h4 => ?_
  refine .ite (fun _ => trivial) fun _ => .ite (fun _ => trivial) fun hbody => ?_
  have hlen' : ((src.drop p4).take (src.length - 8 - p4)).length = src.length - 8 - p4 := by
    rw [List.length_take, List.length_drop]
    omega
  have hin : LengthsThere cap 1000000 (.start ((src.drop p4).take (src.length - 8 - p4))) [] :=
    lengthsThere_of_short (by omega) (within_start _) (Nat.zero_le cap)
  refine (wubuInflateRaw_safe hin).bind fun r hr => ⟨hr.1, ?_⟩
  omega

/-! ## A source of stored blocks -/

/-- A stored block that is not the last; its first byte, its length, and what would be the complement of it. -/
def storedBlock (data : List UInt8) : List UInt8 := 0 :: (Bytes.le 2 data.length ++ (0 :: 0 :: data))

theorem length_storedBlock (data : List UInt8) : (storedBlock data).length = data.length + 5 := by
  rw [storedBlock, List.length_cons, List.length_append, Bytes.length_le, List.length_cons, List.length_cons]
  omega

/-- The reader on a byte. -/
def onByte (src : List UInt8) (p : Nat) : Reader := ⟨⟨src, p, 0, 0⟩, 8 * p⟩

/-- The fields before a block, of a byte that is zero or behind the end. -/
theorem header_zero (h : src.getD p 0 = 0) : (blockHeader (onByte src p)).1 = 0 ∧ (blockHeader (onByte src p)).2.1 = 0 ∧
      (blockHeader (onByte src p)).2.2.align.toBr = ⟨src, if src.length ≤ p then p else p + 1, 0, 0⟩ := by
  have hfetch : brFetch ⟨src, p, 0, 0⟩ = ⟨src, if src.length ≤ p then p else p + 1, 0, 8⟩ := by
    rw [brFetch]
    dsimp only
    split
    · rfl
    · rw [h]
      rfl
  simp [blockHeader, onByte, brGet, brFill, hfetch, Reader.align, brAlign]

theorem storedCopy_onByte (h : src.drop p = data ++ t) (hcap : out.length + data.length ≤ cap) :
    storedCopy cap data.length (onByte src p) out = .ok (onByte src (p + data.length), out ++ data) := by
  induction data generalizing p out with
  | nil => simp [storedCopy]
  | cons c data ih =>
    obtain ⟨hp, hget, hrest⟩ := drop_cons h
    rw [List.length_cons] at hcap ⊢
    have hput : sinkPut cap out c = .ok (out ++ [c]) := if_neg (by omega)
    rw [storedCopy, if_neg (show ¬(onByte src p).data.length ≤ (onByte src p).pos from Nat.not_le.2 hp),
      show (onByte src p).data.getD (onByte src p).pos 0 = c from hget, hput, bind_ok]
    refine (ih hrest (by rw [List.length_append, List.length_singleton]; omega)).trans ?_
    rw [List.append_assoc, List.singleton_append, Nat.add_assoc, Nat.add_comm 1]

theorem blockStored_at {b : Reader} {q : Nat} (hb : b.align.toBr = ⟨src, q, 0, 0⟩) (hq : q + 4 < 2 ^ 32)
    (hle : q + 4 ≤ src.length) :
    blockStored cap b out = storedCopy cap (storedLength ⟨src, q, 0, 0⟩) (onByte src (q + 4)) out := by
  rw [blockStored, hb, Reader.moveTo, hb, Nat.mod_eq_of_lt hq, if_neg (Nat.not_lt.2 hle)]
  exact if_neg (show ¬src.length ≤ q + 1 by omega)

/-- Such a block is copied, and the reader is behind it. -/
theorem inflateLoop_storedBlock (hsrc : src.length < 2 ^ 32) (h : src.drop p = storedBlock data ++ t)
    (hdata : data.length < 2 ^ 16) (hcap : out.length + data.length ≤ cap) :
    inflateLoop cap (guard + 1) (onByte src p) out =
      inflateLoop cap guard (onByte src (p + (storedBlock data).length)) (out ++ data) := by
  rw [length_storedBlock]
  rw [storedBlock, le_two] at h
  simp only [List.cons_append, List.nil_append] at h
  obtain ⟨hp0, hget0, hdrop1⟩ := drop_cons h
  obtain ⟨hp1, hget1, hdrop2⟩ := drop_cons hdrop1
  obtain ⟨hp2, hget2, hdrop3⟩ := drop_cons hdrop2
  obtain ⟨hp3, -, hdrop4⟩ := drop_cons hdrop3
  obtain ⟨hp4, -, hdrop5⟩ := drop_cons hdrop4
  have hlen : (UInt8.ofNat data.length).toNat ||| (UInt8.ofNat (data.length / 256)).toNat <<< 8 = data.length := by
    rw [UInt8.toNat_ofNat', UInt8.toNat_ofNat', Nat.or_comm,
      ← Nat.shiftLeft_add_eq_or_of_lt (Nat.mod_lt _ (by decide)), Nat.shiftLeft_eq]
    omega
  obtain ⟨hfinal, htype, halign⟩ := header_zero hget0
  rw [if_neg (by omega)] at halign
  have hblock : blockStored cap (blockHeader (onByte src p)).2.2 out =
      .ok (onByte src (p + (data.length + 5)), out ++ data) := by
    rw [blockStored_at halign (by omega) (by omega), storedLength, hget1, hget2, hlen,
      show p + (data.length + 5) = p + 1 + 4 + data.length by omega]
    exact storedCopy_onByte hdrop5 hcap
  rw [inflateLoop_succ, blockOf, if_pos htype, hblock, bind_ok, afterBlock, if_neg (by rw [hfinal]; decide)]

/-- At the end of the source, the next block is taken for a stored one. -/
theorem inflateLoop_end (hsrc : src.length < 2 ^ 32) (hlong : 2 ^ 32 ≤ src.length + 4) (hout : out.length ≤ cap) :
    inflateLoop cap (guard + 1) (onByte src src.length) out = .error .wild := by
  obtain ⟨-, htype, halign⟩ := header_zero (List.getD_eq_default src 0 (Nat.le_refl src.length))
  rw [if_pos (Nat.le_refl _)] at halign
  have hpos : (blockHeader (onByte src src.length)).2.2.pos = src.length := congrArg Br.pos halign
  refine inflateLoop_wild hsrc ⟨rfl, Nat.le_refl _⟩ hout fun hin => ?_
  have hlength := hin.1 htype
  rw [hpos] at hlength
  rcases hlength with hlength | hlength
  · omega
  · exact Nat.not_succ_le_self _ (Nat.le_of_lt hlength)

/-- So many stored blocks that are as long as they can be, and one of `k` bytes. -/
def longSource (q k : Nat) : List UInt8 :=
  (List.replicate q (storedBlock (List.replicate 65535 0))).flatten ++ storedBlock (List.replicate k 0)

/-- 4 GB but a byte. -/
theorem length_longSource : (longSource 65532 10).length = 2 ^ 32 - 1 := by
  rw [longSource, List.length_append, length_storedBlock, List.length_replicate, List.length_flatten,
    List.map_replicate, List.sum_replicate, length_storedBlock, List.length_replicate, Nat.nsmul_eq_mul]
  decide

theorem inflateLoop_blocks {q : Nat} (hsrc : src.length < 2 ^ 32)
    (h : src.drop p = (List.replicate q (storedBlock data)).flatten ++ t)
    (hdata : data.length < 2 ^ 16) (hcap : out.length + q * data.length ≤ cap) :
    ∃ out', inflateLoop cap (guard + q) (onByte src p) out =
        inflateLoop cap guard (onByte src (p + q * (storedBlock data).length)) out' ∧
      src.drop (p + q * (storedBlock data).length) = t ∧ out'.length = out.length + q * data.length := by
  induction q generalizing p out with
  | zero =>
    rw [Nat.zero_mul, Nat.zero_mul]
    exact ⟨out, rfl, h, rfl⟩
  | succ q ih =>
    rw [List.replicate_succ, List.flatten_cons, List.append_assoc] at h
    rw [Nat.succ_mul] at hcap
    have hnext : src.drop (p + (storedBlock data).length) = (List.replicate q (storedBlock data)).flatten ++ t := by
      rw [← List.drop_drop, h, List.drop_left]
    have hroom : (out ++ data).length + q * data.length ≤ cap := by
      rw [List.length_append]
      omega
    obtain ⟨out', hrun, hdrop, hlen⟩ := ih hnext hroom
    rw [Nat.add_assoc, Nat.add_comm (storedBlock data).length, ← Nat.succ_mul] at hrun hdrop
    refine ⟨out', ?_, hdrop, ?_⟩
    · rw [← hrun, ← Nat.add_assoc]
      exact inflateLoop_storedBlock hsrc h hdata (by omega)
    · rw [hlen, List.length_append, Nat.succ_mul]
      omega

/-- **The bound check is passed behind the end of it.** -/
theorem longSource_wild : wubuInflateRaw (longSource 65532 10) (2 ^ 32 - 1) = .error .wild := by
  have hsrc : (longSource 65532 10).length < 2 ^ 32 := by
    rw [length_longSource]
    decide
  have hdata : (List.replicate 10 (0 : UInt8)).length = 10 := List.length_replicate
  obtain ⟨out', hrun, hdrop, hlen⟩ := @inflateLoop_blocks (longSource 65532 10) (List.replicate 65535 0) _ []
    (2 ^ 32 - 1) 0 (1000000 - 65532) 65532 hsrc rfl (by rw [List.length_replicate]; decide)
    (by rw [List.length_replicate, List.length_nil]; decide)
  rw [List.length_nil, List.length_replicate] at hlen
  rw [length_storedBlock, List.length_replicate] at hrun hdrop
  rw [← List.append_nil (storedBlock _)] at hdrop
  have hlast : inflateLoop (2 ^ 32 - 1) (1000000 - 65532)
      (onByte (longSource 65532 10) (0 + 65532 * (65535 + 5))) out' = .error .wild := by
    rw [inflateLoop_storedBlock hsrc hdrop (by rw [hdata]; decide) (by rw [hdata]; omega), length_storedBlock, hdata,
      show 0 + 65532 * (65535 + 5) + (10 + 5) = (longSource 65532 10).length by rw [length_longSource]; decide]
    refine inflateLoop_end hsrc (by rw [length_longSource]; decide) ?_
    rw [List.length_append, hdata]
    omega
  rw [wubuInflateRaw, inflateRaw, show 1000000 = 1000000 - 65532 + 65532 by decide]
  change Except.map _ (inflateLoop _ _ (onByte (longSource 65532 10) 0) _) = _
  rw [hrun, hlast]
  rfl

/-- **For which sources the inflater is safe**, with so much room: for those whose stored blocks have their lengths,
as far as the decoder comes; to `wubu_inflate` that is said of what is behind the two bytes it asks for.
`wubu_gunzip` is safe for all sources. -/
theorem inflate_safe_iff (hsrc : src.length < 2 ^ 32) (cap : Nat) :
    (Safe cap src.length (wubuInflateRaw src cap) ↔ LengthsThere cap 1000000 (.start src) []) ∧
      (Safe cap src.length (wubuInflate src cap) ↔
        (ZlibHeader src → LengthsThere cap 1000000 (.start (src.drop 2)) [])) ∧
      Safe cap src.length (wubuGunzip src cap) :=
  ⟨wubuInflateRaw_safe_iff hsrc cap, wubuInflate_safe_iff hsrc cap, wubuGunzip_safe hsrc cap⟩

theorem refused_by_byte (t : List UInt8) : LengthsThere cap 1000000 (.start (7 :: t)) [] ∧ ¬ZlibHeader (7 :: t) := by
  have hheader : (blockHeader (.start (7 :: t))).1 = 1 ∧ (blockHeader (.start (7 :: t))).2.1 = 3 := by
    simp [blockHeader, Reader.start, brGet, brFill, brFetch]
  refine ⟨⟨fun h0 => ?_, fun r _ h0 => ?_⟩, fun h => ?_⟩
  · rw [hheader.2] at h0
    exact absurd h0 (by decide)
  · rw [hheader.1] at h0
    exact absurd h0 (by decide)
  · have hcm : 7 &&& 0x0f = 8 := h.2.1
    exact absurd hcm (by decide)

/-- A source that is refused for its first byte may be as long as it likes. -/
theorem inflate_safe_iff_refused : ∃ src : List UInt8, src.length = 2 ^ 32 - 1 ∧ src.head? = some 7 ∧
    Safe 10 (2 ^ 32 - 1) (wubuInflateRaw src 10) ∧ Safe 10 (2 ^ 32 - 1) (wubuInflate src 10) ∧
      Safe 10 (2 ^ 32 - 1) (wubuGunzip src 10) := by
  obtain ⟨t, ht⟩ : ∃ t : List UInt8, t.length = 2 ^ 32 - 2 := ⟨List.replicate _ 0, List.length_replicate⟩
  have hlen : (7 :: t).length = 2 ^ 32 - 1 := by
    rw [List.length_cons, ht]
    decide
  have hsrc : (7 :: t).length < 2 ^ 32 := by
    rw [hlen]
    decide
  obtain ⟨hraw, hzlib, hgzip⟩ := inflate_safe_iff hsrc 10
  rw [hlen] at hraw hzlib hgzip
  obtain ⟨hin, hzip⟩ := @refused_by_byte 10 t
  exact ⟨7 :: t, hlen, rfl, hraw.2 hin, hzlib.2 fun h => absurd h hzip, hgzip⟩

/-- **A source of one byte less than 4 GB** makes `wubu_inflate_raw` read behind its end. -/
theorem longSource_unsafe : (longSource 65532 10).length = 2 ^ 32 - 1 ∧
      wubuInflateRaw (longSource 65532 10) (2 ^ 32 - 1) = .error .wild ∧
      ¬Safe (2 ^ 32 - 1) (2 ^ 32 - 1) (wubuInflateRaw (longSource 65532 10) (2 ^ 32 - 1)) :=
  ⟨length_longSource, longSource_wild, not_safe_of_wild longSource_wild⟩

end Checked
end Inflate
end WuBuOS
