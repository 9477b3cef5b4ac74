import WuBuOS.Kernel.Fat32.Append

/-!
# How much a read stores

`fat32_read` cuts the number of bytes it is asked for down to what is left of the file: if
`pos + n > file_size`, it takes `file_size - pos`.  Both are computed in 64 bits, and neither has to be
what it says.  A seek may go beyond the end of the file, and then the difference wraps around to nearly
2 ^ 64; and if `n` is so large that the sum wraps around, nothing is cut at all.

What stops the loop then is the end of the chain: `readLoop_le` and `le_readLoop`.  So a read is bounded
as it should be exactly if there is no cluster to read, or its position is in the file and it is cut down, or
the chain ends where the file does (`readBounded_iff`).
-/

namespace WuBuOS.Fat32

open Bytes Linked

variable {fs fs' : Fs} {fp : File} {n : Nat}

/-- **A read stores no more than it may**, whichever of its requests fail: no more than it is asked for,
and nothing from behind the end of the file. -/
def ReadBounded (fs : Fs) (fp : File) (n : Nat) : Prop :=
  ∀ env, (fat32Read fp n { fs with env := env }).1.length ≤ min n (fp.fileSize - fp.pos)

/-! ## What the loop stores -/

theorem readPart_length {c pos : Nat} {bytes : List UInt8}
    (h : readPart c pos n fs = (some bytes, fs')) : bytes.length = n := by
  rw [readPart] at h
  split at h
  · split at h
    · cases h
    · cases h
      exact bytesOf_length ..
  · split at h
    · cases h
    · split at h
      · cases h
      · cases h
        exact bytesOf_length ..

theorem readLoop_length_le (fuel remaining : Nat) (fp : File) (fs : Fs) :
    (readLoop fuel remaining fp fs).1.length ≤ remaining := by
  induction fuel generalizing remaining fp fs with
  | zero => exact Nat.zero_le _
  | succ fuel ih =>
    rw [readLoop]
    split
    · dsimp only
      split
      · exact Nat.zero_le _
      · rename_i bytes fs1 hr
        have hlen := readPart_length hr
        have hle : inCluster fs.vol fp.pos remaining ≤ remaining := Nat.min_le_left ..
        have hrest := ih (remaining - inCluster fs.vol fp.pos remaining)
          (advance fp (inCluster fs.vol fp.pos remaining) fs1).1
          (advance fp (inCluster fs.vol fp.pos remaining) fs1).2
        rw [List.length_append, hlen]
        omega
    · exact Nat.zero_le _

/-- The clamp, where nothing wraps around. -/
theorem readBounded_within (hsize : fp.fileSize < 2 ^ 32) (hpos : fp.pos ≤ fp.fileSize)
    (hn : fp.pos + n < 2 ^ 64) : ReadBounded fs fp n := by
  intro env
  rw [fat32Read]
  refine (readLoop_length_le ..).trans ?_
  rw [Nat.mod_eq_of_lt hn]
  split <;> omega

/-- A read within a cluster asks for memory and for the cluster, and does nothing else. -/
theorem readPart_keeps (h : Consistent fs) (c pos n : Nat) : Keeps fs (readPart c pos n fs).2 := by
  have hread : ∀ {o : Option Buf} {fs fs' : Fs}, Consistent fs → readCluster c fs = (o, fs') →
      Keeps fs fs' := fun h hr => by
    obtain rfl := congrArg Prod.snd hr
    exact h.ask
  rw [readPart]
  split
  · split
    · exact hread h ‹_›
    · exact hread h ‹_›
  · have hmalloc : ∀ {o : Option Buf} {fs' : Fs}, malloc fs = (o, fs') → Keeps fs fs' := fun hm => by
      obtain rfl := congrArg Prod.snd hm
      exact h.ask
    split
    · exact hmalloc ‹_›
    · have hk := hmalloc ‹_›
      split
      · exact hk.trans (hread hk.consistent ‹_›)
      · exact hk.trans (hread hk.consistent ‹_›)

/-! ## Along the links -/

/-- The cluster that is reached from `c` over `k` links of the table. -/
def Fs.along (fs : Fs) (c k : Nat) : Nat := (nextOf fs.table)^[k] c

/-- The clusters that are reached from `c` have entries in the table. -/
def InTableFrom (fs : Fs) (c : Nat) : Prop := ∀ k, IsCluster (fs.along c k) → InTable fs.vol (fs.along c k)

theorem Fs.along_succ (fs : Fs) (c k : Nat) :
    fs.along c (k + 1) = fs.along (nextOf fs.table c) k := Function.iterate_succ_apply ..

theorem InTableFrom.next {c : Nat} (h : InTableFrom fs c) : InTableFrom fs (nextOf fs.table c) :=
  fun k => by
    rw [← fs.along_succ]
    exact h (k + 1)

theorem Keeps.along (hk : Keeps fs fs') (c k : Nat) : fs'.along c k = fs.along c k := by
  rw [Fs.along, Fs.along, hk.table]

theorem InTableFrom.keeps {c : Nat} (h : InTableFrom fs c) (hk : Keeps fs fs') : InTableFrom fs' c :=
  fun k => by
    rw [hk.along, hk.shape.inTable]
    exact h k

/-- The next cluster, or `0` if it cannot be read. -/
theorem fat32NextCluster_spec {c : Nat} (h : Consistent fs) (hc : IsCluster c) (hin : InTable fs.vol c) :
    Keeps fs (fat32NextCluster c fs).2 ∧ ((fat32NextCluster c fs).1 = nextOf fs.table c ∨
        (¬NoErrors fs ∧ (fat32NextCluster c fs).1 = 0)) := by
  obtain ⟨hk, hr⟩ := fatReadEntry_spec h hin
  have hok := fun he => fatReadEntry_ok h he hin
  have htab := Fs.table_eq hin
  rw [fat32NextCluster, if_neg (Nat.not_lt.2 hc.1)]
  generalize fatReadEntry c fs = r at hk hr hok
  obtain ⟨o, fs1⟩ := r
  refine ⟨?_, ?_⟩
  · cases o with
    | none => exact hk
    | some e => exact hk
  · cases o with
    | none => exact Or.inr ⟨fun he => absurd (hok he) (Option.some_ne_none _).symm, rfl⟩
    | some e =>
      obtain rfl : e = low28 (fs.entry c) := by simpa using hr
      exact Or.inl (by rw [nextOf, htab])

variable {fuel remaining k : Nat}

/-! ## The loop and the chain -/

/-- Without a cluster nothing is read. -/
theorem readLoop_none (h : ¬IsCluster fp.currentCluster) : (readLoop fuel remaining fp fs).1 = [] := by
  cases fuel with
  | zero => rfl
  | succ fuel => rw [readLoop, if_neg fun hgo => h hgo.2]

/-- What a round of the loop reads, if it is not refused. -/
theorem readPart_round {bytes : List UInt8} (h : Consistent fs)
    (hr : readPart fp.currentCluster fp.pos (inCluster fs.vol fp.pos remaining) fs = (some bytes, fs')) :
    Keeps fs fs' ∧ bytes.length = inCluster fs.vol fp.pos remaining ∧ inCluster fs.vol fp.pos remaining =
      min remaining (fs.vol.bytesPerCluster - fp.pos % fs.vol.bytesPerCluster) := by
  have hk := readPart_keeps h fp.currentCluster fp.pos (inCluster fs.vol fp.pos remaining)
  rw [hr] at hk
  exact ⟨hk, readPart_length hr, rfl⟩

/-- **The loop stores no more than the clusters hold** that come before one that is none, whichever of
its requests fail. -/
theorem readLoop_le (h : Consistent fs) (hsize : 0 < fs.vol.bytesPerCluster) (hin : InTableFrom fs fp.currentCluster)
    (hend : ¬IsCluster (fs.along fp.currentCluster k)) :
    (readLoop fuel remaining fp fs).1.length ≤ k * fs.vol.bytesPerCluster - fp.pos % fs.vol.bytesPerCluster := by
  induction fuel generalizing remaining fp fs k with
  | zero => exact Nat.zero_le _
  | succ fuel ih =>
    rw [readLoop]
    split
    · rename_i hgo
      obtain ⟨k, rfl⟩ : ∃ k', k = k' + 1 :=
        Nat.exists_eq_succ_of_ne_zero fun h0 => hend (by rw [h0]; exact hgo.2)
      have hmod := Nat.mod_lt fp.pos hsize
      dsimp only
      split
      · exact Nat.zero_le _
      · rename_i bytes fs1 hr
        obtain ⟨hk, hlen, hn⟩ := readPart_round h hr
        have hB1 := hk.shape.bytesPerCluster
        rw [List.length_append, hlen, Nat.succ_mul]
        generalize inCluster fs.vol fp.pos remaining = n at hn ⊢
        rw [advance, hB1]
        split
        · -- the next cluster is the one that is linked, or there is none
          have hin1 := hin.keeps hk
          obtain ⟨hk2, hnext⟩ := fat32NextCluster_spec hk.consistent hgo.2 (hin1 0 hgo.2)
          have hB2 := hk2.shape.bytesPerCluster.trans hB1
          have hrest : (readLoop fuel (remaining - n) { fp with pos := fp.pos + n, currentCluster :=
              (fat32NextCluster fp.currentCluster fs1).1 }
              (fat32NextCluster fp.currentCluster fs1).2).1.length ≤ k * fs.vol.bytesPerCluster := by
            rcases hnext with hnext | ⟨-, h0⟩
            · have := @ih _ { fp with pos := fp.pos + n, currentCluster :=
                (fat32NextCluster fp.currentCluster fs1).1 } (remaining - n) k hk2.consistent
                (by rw [hB2]; exact hsize)
                (by rw [hnext]; exact hin1.next.keeps hk2)
                (by rw [hnext, hk2.along, ← Fs.along_succ, hk.along]; exact hend)
              rw [hB2] at this
              exact this.trans (Nat.sub_le _ _)
            · rw [h0, readLoop_none (show ¬IsCluster 0 by decide)]
              exact Nat.zero_le _
          dsimp only
          omega
        · -- all that was asked for is in this cluster
          have hrest := readLoop_length_le fuel (remaining - n) { fp with pos := fp.pos + n } fs1
          dsimp only at hrest ⊢
          omega
    · exact Nat.zero_le _

/-- A read within a cluster does not fail by itself. -/
theorem readPart_isSome (h : NoErrors fs) (c pos n : Nat) : (readPart c pos n fs).1 ≠ none := by
  have h0 : (fs.env 0).ok = true := h 0
  have h1 : (fs.env 1).ok = true := h 1
  rw [readPart]
  split
  · simp [readCluster, blkRead, Fs.ask, h0]
  · simp [malloc, readCluster, blkRead, Fs.ask, h0, h1]

/-- **And if no request fails it stores what they hold**, unless it is asked for less. -/
theorem le_readLoop (h : Consistent fs) (he : NoErrors fs)
    (hsize : 0 < fs.vol.bytesPerCluster) (hin : InTableFrom fs fp.currentCluster)
    (hgo : ∀ i < k, IsCluster (fs.along fp.currentCluster i)) (hfuel : remaining ≤ fuel) :
    min remaining (k * fs.vol.bytesPerCluster - fp.pos % fs.vol.bytesPerCluster) ≤
      (readLoop fuel remaining fp fs).1.length := by
  induction fuel generalizing remaining fp fs k with
  | zero => omega
  | succ fuel ih =>
    cases k with
    | zero => rw [Nat.zero_mul]; omega
    | succ k =>
      rw [readLoop]
      split
      · have hc : IsCluster fp.currentCluster := hgo 0 (Nat.succ_pos k)
        have hmod := Nat.mod_lt fp.pos hsize
        dsimp only
        split
        · rename_i fs1 hr
          exact absurd (by rw [hr]) (readPart_isSome he fp.currentCluster fp.pos
            (inCluster fs.vol fp.pos remaining))
        · rename_i bytes fs1 hr
          obtain ⟨hk, hlen, hn⟩ := readPart_round h hr
          have hB1 := hk.shape.bytesPerCluster
          rw [List.length_append, hlen, Nat.succ_mul]
          generalize inCluster fs.vol fp.pos remaining = n at hn ⊢
          rw [advance, hB1]
          split
          · rename_i hfull
            have hin1 := hin.keeps hk
            obtain ⟨hk2, hnext⟩ := fat32NextCluster_spec hk.consistent hc (hin1 0 hc)
            replace hnext := hnext.resolve_right fun hno => hno.1 (hk.noErrors he)
            have hB2 := hk2.shape.bytesPerCluster.trans hB1
            have hrest := @ih _ { fp with pos := fp.pos + n, currentCluster :=
              (fat32NextCluster fp.currentCluster fs1).1 } (remaining - n) k hk2.consistent
              (hk2.noErrors (hk.noErrors he)) (by rw [hB2]; exact hsize)
              (by rw [hnext]; exact hin1.next.keeps hk2)
              (fun i hi => by
                rw [hnext, hk2.along, ← Fs.along_succ, hk.along]
                exact hgo (i + 1) (Nat.succ_lt_succ hi))
              (by omega)
            have hstart : (fp.pos + n) % fs.vol.bytesPerCluster = 0 :=
              (Blocks.div_mod_full hsize (by omega)).2
            rw [hB2] at hrest
            dsimp only at hrest ⊢
            rw [hstart] at hrest
            omega
          · omega
      · rename_i hstop
        have hc : IsCluster fp.currentCluster := hgo 0 (Nat.succ_pos k)
        have h0 : remaining = 0 := Nat.eq_zero_of_not_pos fun hpos => hstop ⟨hpos, hc⟩
        rw [h0, Nat.zero_min]
        exact Nat.zero_le _

/-! ## When a read is bounded -/

/-- **A read is bounded exactly if it is stopped in time.**  Whatever is in the table, for every handle
whose clusters have entries in it, with whatever position a seek has given it, and for every `n`: a read stores and
returns no more than `min n (max 0 (file_size - pos))` bytes, if and only if the handle has no cluster to
read from, or its position is in the file and, unless `pos + n` remains a 64-bit number, the chain ends
where the file does. -/
theorem readBounded_iff (h : Consistent fs) (hsize : 0 < fs.vol.bytesPerCluster)
    (hin : InTableFrom fs fp.currentCluster) (hfs : fp.fileSize < 2 ^ 32) (hpos : fp.pos < 2 ^ 64)
    (hn : n < 2 ^ 64) :
    ReadBounded fs fp n ↔ ¬IsCluster fp.currentCluster ∨ fp.pos ≤ fp.fileSize ∧
        (fp.pos + n < 2 ^ 64 ∨ ∃ k, ¬IsCluster (fs.along fp.currentCluster k) ∧
          k * fs.vol.bytesPerCluster ≤ fp.fileSize - fp.pos + fp.pos % fs.vol.bytesPerCluster) := by
  have hmod := Nat.mod_lt fp.pos hsize
  constructor
  · intro hb
    by_contra hnot
    obtain ⟨hc, hnot⟩ := not_or.1 hnot
    rw [not_not] at hc
    -- nothing fails
    have hread := hb fun _ => ⟨true, fun _ => 0⟩
    have hloop := fun {remaining k : Nat} (hk : ∀ i < k, IsCluster (fs.along fp.currentCluster i)) =>
      @le_readLoop { fs with env := fun _ => ⟨true, fun _ => 0⟩ } fp remaining remaining k (h.env _)
        (fun _ => rfl) hsize hin hk (Nat.le_refl _)
    rw [fat32Read] at hread
    by_cases hle : fp.pos ≤ fp.fileSize
    · -- the sum has wrapped around, and nothing is cut
      obtain ⟨hwrap, hlong⟩ := not_or.1 (not_and.1 hnot hle)
      rw [if_neg (by omega)] at hread
      generalize hroom : fp.fileSize - fp.pos + fp.pos % fs.vol.bytesPerCluster = room at hlong
      have hdiv := Nat.div_add_mod' room fs.vol.bytesPerCluster
      have hrem := Nat.mod_lt room hsize
      have hrest := (@hloop n (room / fs.vol.bytesPerCluster + 1) fun i hi => by
        by_contra hend
        exact hlong ⟨i, hend, (Nat.mul_le_mul_right _ (Nat.le_of_lt_succ hi)).trans
          (Nat.div_mul_le_self ..)⟩).trans hread
      rw [Nat.succ_mul] at hrest
      dsimp only at hrest
      omega
    · -- the difference has wrapped around, or there is nothing to cut
      generalize hcut : (if fp.fileSize < (fp.pos + n) % 2 ^ 64 then
        (fp.fileSize + 2 ^ 64 - fp.pos) % 2 ^ 64 else n) = cut at hread
      have hrest := (@hloop cut 1 fun i hi => by
        rw [Nat.lt_one_iff.1 hi]
        exact hc).trans hread
      rw [Nat.one_mul] at hrest
      dsimp only at hrest
      split at hcut <;> omega
  · rintro (hc | ⟨hle, hn' | ⟨k, hk, hroom⟩⟩)
    · intro env
      rw [fat32Read, readLoop_none hc]
      exact Nat.zero_le _
    · exact readBounded_within hfs hle hn'
    · by_cases hn' : fp.pos + n < 2 ^ 64
      · exact readBounded_within hfs hle hn'
      · intro env
        rw [fat32Read, if_neg (by omega)]
        have hle₂ := @readLoop_le { fs with env := env } fp n n k (h.env env) hsize hin hk
        dsimp only at hle₂
        omega

/-- A handle on the file of ten bytes, in a cluster of 512. -/
def tenBytes : File := ⟨3, 3, 10, 0x20, 0, false, 2, 0⟩

theorem readBounded_iff_tenBytes : ∃ m, fat32Mount 100 (oneFileFs 10) = (true, m) ∧ ReadBounded m tenBytes 100 ∧
      ¬ReadBounded m { tenBytes with pos := 20 } 1 := by
  have hm : fat32Mount 100 (oneFileFs 10) = (true, (fat32Mount 100 (oneFileFs 10)).2) :=
    Prod.ext (by decide) rfl
  generalize hmm : (fat32Mount 100 (oneFileFs 10)).2 = m at hm
  have hsize : m.vol.bytesPerCluster = 512 := by rw [← hmm]; decide
  have h0 : nextOf m.table 0 = 0 := by rw [← hmm]; decide
  have h3 : nextOf m.table 3 = 0 := by rw [← hmm]; decide
  have hin : InTableFrom m 3 := fun k hk => by
    cases k with
    | zero =>
      rw [← hmm]
      exact (by decide : 3 / entriesPerSector < (fat32Mount 100 (oneFileFs 10)).2.vol.sectorsPerFat)
    | succ k =>
      rw [Fs.along_succ, h3, Fs.along, Function.iterate_fixed h0] at hk
      exact absurd hk (by decide)
  refine ⟨m, hm, ?_, ?_⟩
  · refine (readBounded_iff (fresh_of_mount hm).consistent (by rw [hsize]; decide) hin (by decide)
      (by decide) (by decide)).2 (Or.inr ⟨by decide, Or.inl (by decide)⟩)
  · intro hb
    rcases (readBounded_iff (fresh_of_mount hm).consistent (by rw [hsize]; decide) hin (by decide)
      (by decide) (by decide)).1 hb with hc | ⟨hle, -⟩
    · exact hc (by decide)
    · exact absurd hle (by decide)

set_option maxRecDepth 8000 in
/-- **A read behind the end.**  A file of ten bytes is opened, and `fat32_seek` goes to position 20.  A
read of one byte then stores all of the cluster from there on, 492 bytes. -/
theorem read_behind_end : ∃ m fs₁ fs₂, fat32Mount 100 (oneFileFs 10) = (true, m) ∧
      fat32Open 0 [65] .r m = some (some tenBytes, fs₁) ∧
      fat32Seek tenBytes 20 0 fs₁ = (some { tenBytes with pos := 20 }, fs₂) ∧
      (fat32Read { tenBytes with pos := 20 } 1 fs₂).1.length = 492 ∧
      ¬ReadBounded fs₂ { tenBytes with pos := 20 } 1 := by
  have hm : fat32Mount 100 (oneFileFs 10) = (true, (fat32Mount 100 (oneFileFs 10)).2) :=
    Prod.ext (by decide) rfl
  have ho : (fat32Open 0 [65] .r (fat32Mount 100 (oneFileFs 10)).2).map Prod.fst = some (some tenBytes) := by decide
  have hs : (fat32Open 0 [65] .r (fat32Mount 100 (oneFileFs 10)).2).map
      (fun r => (fat32Seek tenBytes 20 0 r.2).1) = some (some { tenBytes with pos := 20 }) := by decide
  have hr : (fat32Open 0 [65] .r (fat32Mount 100 (oneFileFs 10)).2).map
      (fun r => (fat32Read { tenBytes with pos := 20 } 1 (fat32Seek tenBytes 20 0 r.2).2).1.length) =
        some 492 := by decide
  generalize (fat32Mount 100 (oneFileFs 10)).2 = m at hm ho hs hr
  obtain ⟨⟨o, fs₁⟩, hopen, rfl⟩ := Option.map_eq_some_iff.1 ho
  rw [hopen] at hs hr
  have hseek := Option.some.inj hs
  have hread := Option.some.inj hr
  dsimp only at hseek hread
  refine ⟨m, fs₁, _, hm, hopen, Prod.ext hseek rfl, hread, fun hb => ?_⟩
  have := hb (fat32Seek tenBytes 20 0 fs₁).2.env
  rw [hread] at this
  exact absurd this (by decide)

end WuBuOS.Fat32
