import WuBuOS.Kernel.Fat32.Content

/-!
# Chains that stay apart

`Apart vol t H F` says that from each cluster of `H` there is a chain in the table, `F` gives it, and no
two of them meet.  It is kept when one of the chains grows, by clusters that were free, when a new one is
begun, and when one is freed.

A write through a handle does nothing but that, wherever the handle stands.  `Held` says what it takes:
the current cluster is in one of the chains `T` that belong to the handle, or there is none.  These are the
chain of its file and those that `fat32_write` begins without linking them, when a call begins where a
chain ends.  All others are left alone (`fat32Write_held`).
-/

namespace WuBuOS.Fat32

open Bytes
open Function (update update_of_ne update_self)

variable {fs fs' fs'' : Fs} {fp fp' : File} {c : Nat} {cs cs' : List Nat} {t t' : Nat → Nat} {vol : Volume}
  {H H' K T T' : Set Nat} {F F' F'' : Nat → List Nat}

/-- **From each of these clusters there is a chain, and no two of the chains meet.** -/
structure Apart (vol : Volume) (t : Nat → Nat) (H : Set Nat) (F : Nat → List Nat) : Prop where
  chain : ∀ c ∈ H, Chain vol t c (F c)
  ne_nil : ∀ c ∈ H, F c ≠ []
  apart : ∀ a ∈ H, ∀ b ∈ H, a ≠ b → ∀ x ∈ F a, x ∉ F b

theorem Apart.mono (h : Apart vol t H F) (hH : H' ⊆ H) : Apart vol t H' F where
  chain := fun c hc => h.chain c (hH hc)
  ne_nil := fun c hc => h.ne_nil c (hH hc)
  apart := fun a ha b hb => h.apart a (hH ha) b (hH hb)

/-- The first cluster of a chain is in it. -/
theorem Apart.mem_self (h : Apart vol t H F) (hc : c ∈ H) : c ∈ F c := by
  have hch := h.chain c hc
  obtain ⟨x, l, hl⟩ := List.exists_cons_of_ne_nil (h.ne_nil c hc)
  rw [hl] at hch ⊢
  rw [hch.head]
  exact List.mem_cons_self

theorem Apart.inVolume (h : Apart vol t H F) (hc : c ∈ H) : InVolume vol c :=
  (h.chain c hc).inVolume c (h.mem_self hc)

theorem Apart.congr (h : Apart fs.vol t H F) (hshape : SameShape fs.vol fs'.vol)
    (ht : ∀ c ∈ H, ∀ x ∈ F c, t' x = t x) : Apart fs'.vol t' H F where
  chain := fun c hc => (h.chain c hc).congr hshape (ht c hc)
  ne_nil := h.ne_nil
  apart := h.apart

/-- **One of the chains has grown**, or a new one has been begun. -/
theorem Apart.grows (h : Apart fs.vol fs.table H F) (hg : Grows fs fs' cs cs')
    (hch : Chain fs'.vol fs'.table c cs') (hne : cs' ≠ [])
    (hcs : ∀ a ∈ H, a ≠ c → ∀ x ∈ F a, x ∉ cs) :
    Apart fs'.vol fs'.table (insert c H) (update F c cs') := by
  have hold : ∀ a ∈ H, a ≠ c → ∀ x ∈ F a, fs'.table x = fs.table x ∧ x ∉ cs' := by
    intro a ha hac x hx
    have hused := (h.chain a ha).used x hx
    exact ⟨hg.table x hused (hcs a ha hac x hx), hg.not_mem hused (hcs a ha hac x hx)⟩
  refine ⟨fun a ha => ?_, fun a ha => ?_, fun a ha b hb hab x hx => ?_⟩
  · rcases eq_or_ne a c with rfl | hac
    · rw [update_self]
      exact hch
    · rw [update_of_ne hac]
      have ha := ha.resolve_left hac
      exact (h.chain a ha).congr hg.shape fun x hx => (hold a ha hac x hx).1
  · rcases eq_or_ne a c with rfl | hac
    · rwa [update_self]
    · rw [update_of_ne hac]
      exact h.ne_nil a (ha.resolve_left hac)
  · rcases eq_or_ne a c with rfl | hac
    · rw [update_self] at hx
      rw [update_of_ne hab.symm]
      exact fun hxb => (hold b (hb.resolve_left hab.symm) hab.symm x hxb).2 hx
    · rw [update_of_ne hac] at hx
      have haH := ha.resolve_left hac
      rcases eq_or_ne b c with rfl | hbc
      · rw [update_self]
        exact (hold a haH hac x hx).2
      · rw [update_of_ne hbc]
        exact h.apart a haH b (hb.resolve_left hbc) hab x hx

/-- **One of the chains has been freed.** -/
theorem Apart.freed (h : Apart fs.vol fs.table H F) (hc : c ∈ H) (hshape : SameShape fs.vol fs'.vol)
    (ht : fs'.table = freedTable fs.table (F c)) : Apart fs'.vol fs'.table (H \ {c}) F := by
  refine (h.mono Set.sdiff_subset).congr hshape fun a ha x hx => ?_
  rw [ht, freedTable, if_neg (h.apart a ha.1 c hc ha.2 x hx)]

/-! ## Writing through a handle -/

/-- **A handle that stands in one of its own chains**, or in none. -/
structure Held (fs : Fs) (K T : Set Nat) (F : Nat → List Nat) (fp : File) : Prop where
  sound : Sound fs
  apart : Apart fs.vol fs.table (K ∪ T) F
  disjoint : ∀ c ∈ K, c ∉ T
  first : fp.firstCluster ∈ T
  current : fp.currentCluster = 0 ∨ ∃ c ∈ T, fp.currentCluster ∈ F c

/-- **What is not the handle's is left alone.** -/
structure Spared (fs fs' : Fs) (K : Set Nat) (F F' : Nat → List Nat) : Prop where
  shape : SameShape fs.vol fs'.vol
  chain : ∀ c ∈ K, F' c = F c
  data : ∀ c ∈ K, ∀ x ∈ F c, fs'.data x = fs.data x

theorem Spared.refl (fs : Fs) (K : Set Nat) (F : Nat → List Nat) : Spared fs fs K F F :=
  ⟨.refl _, fun _ _ => rfl, fun _ _ _ _ => rfl⟩

theorem Spared.trans (h : Spared fs fs' K F F') (h' : Spared fs' fs'' K F' F'') : Spared fs fs'' K F F'' where
  shape := h.shape.trans h'.shape
  chain := fun c hc => (h'.chain c hc).trans (h.chain c hc)
  data := fun c hc x hx => (h'.data c hc x (by rwa [h.chain c hc])).trans (h.data c hc x hx)

/-- A change that is only to what the handle's clusters hold. -/
theorem Held.of_data {d : Nat → Buf} (h : Held fs K T F fp) (hg : Goes fs fs' fs.table d)
    (hd : ∀ c ∈ K, ∀ x ∈ F c, d x = fs.data x) :
    Held fs' K T F fp ∧ Spared fs fs' K F F := by
  refine ⟨⟨hg.sound, h.apart.congr hg.shape fun _ _ _ _ => by rw [hg.table], h.disjoint, h.first,
    h.current⟩, hg.shape, fun _ _ => rfl, fun c hc x hx => ?_⟩
  rw [hg.data]
  exact hd c hc x hx

theorem Held.of_goes (h : Held fs K T F fp) (hg : Goes fs fs' fs.table fs.data) :
    Held fs' K T F fp ∧ Spared fs fs' K F F :=
  h.of_data hg fun _ _ _ _ => rfl

/-- The handle is moved, within its chains. -/
theorem Held.move (h : Held fs K T F fp) (hfirst : fp'.firstCluster = fp.firstCluster)
    (hcur : fp'.currentCluster = 0 ∨ ∃ c ∈ T, fp'.currentCluster ∈ F c) : Held fs K T F fp' where
  sound := h.sound
  apart := h.apart
  disjoint := h.disjoint
  first := hfirst ▸ h.first
  current := hcur

/-- The cluster that is remembered as the one before, when there is no current one. -/
def IsPrev (T : Set Nat) (F : Nat → List Nat) (prev : Nat) : Prop :=
  prev = 0 ∨ ∃ c ∈ T, ∃ hne : F c ≠ [], prev = (F c).getLast hne

theorem Held.two_le (h : Held fs K T F fp) : 2 ≤ fp.firstCluster :=
  (h.apart.inVolume (Or.inr h.first)).1

theorem Held.two_lt (h : Held fs K T F fp) : 2 < fs.vol.totalClusters :=
  h.two_le.trans_lt (h.apart.inVolume (Or.inr h.first)).2

/-- A cluster that is free is in none of the chains. -/
theorem Held.ne_free (h : Held fs K T F fp) {new : Nat} (hnew : new ∈ fs.free) (hc : c ∈ K ∪ T) : c ≠ new := by
  rintro rfl
  exact (h.apart.chain c hc).used c (h.apart.mem_self hc) (Fs.mem_free.1 hnew).2

/-- The handle's chains have grown, and it stands in a cluster that has been added. -/
theorem Held.grows {new : Nat} (h : Held fs K T F fp) (hg : Grows fs fs' cs (cs ++ [new]))
    (hdata : fs'.data = fs.data) (hch : Chain fs'.vol fs'.table c (cs ++ [new])) (hcK : c ∉ K)
    (hcs : ∀ a ∈ K ∪ T, a ≠ c → ∀ x ∈ F a, x ∉ cs) :
    ∃ T' F', (∃ c ∈ T', new ∈ F' c) ∧ Held fs' K T' F' { fp with currentCluster := new } ∧ Spared fs fs' K F F' := by
  have hmem : new ∈ update F c (cs ++ [new]) c := by
    rw [update_self]
    exact List.mem_append_right _ (List.mem_singleton_self new)
  have hap := h.apart.grows hg hch (by simp) hcs
  refine ⟨insert c T, update F c (cs ++ [new]), ⟨c, Set.mem_insert .., hmem⟩,
    ⟨hg.sound, hap.mono ?_, fun a ha => ?_, Set.mem_insert_of_mem c h.first,
      Or.inr ⟨c, Set.mem_insert .., hmem⟩⟩, hg.shape, fun a ha => ?_, fun a _ x _ => by rw [hdata]⟩
  · rintro a (ha | rfl | ha)
    · exact Or.inr (Or.inl ha)
    · exact Or.inl rfl
    · exact Or.inr (Or.inr ha)
  · rintro (rfl | haT)
    · exact hcK ha
    · exact h.disjoint a ha haT
  · rw [update_of_ne]
    rintro rfl
    exact hcK ha

/-- **A cluster is added**, behind the one before or to begin a chain of its own. -/
theorem addCluster_held {prev : Nat} (h : Held fs K T F fp) (hprev : IsPrev T F prev) :
    ∃ r fs', addCluster fp prev fs = (r, fs') ∧ ((r = none ∧ Goes fs fs' fs.table fs.data) ∨
        ∃ new T' F', r = some { fp with currentCluster := new } ∧ (∃ c ∈ T', new ∈ F' c) ∧
          Held fs' K T' F' { fp with currentCluster := new } ∧ Spared fs fs' K F F') := by
  obtain ⟨new, fs1, ha, ⟨rfl, -, hg⟩ | ⟨hnew0, hnew, hg1⟩⟩ := fat32AllocClusters_spec h.sound h.two_lt
  · refine ⟨none, fs1, ?_, Or.inl ⟨rfl, hg⟩⟩
    rw [addCluster, ha]
    rfl
  have hnv := (Fs.mem_free.1 hnew).1
  have hfirst := h.two_le
  rw [addCluster_eq ha hnew0, if_neg (Nat.not_lt.2 hfirst)]
  rcases hprev with rfl | ⟨c, hc, hne, rfl⟩
  · -- it is not linked to anything
    obtain ⟨fs2, hw, hg2⟩ := fatWriteEntry_goes hg1.sound (hg1.shape.inVolume.2 hnv) clusterEoc
    rw [hg1.table, hg1.data, Function.update_idem, show low28 clusterEoc = clusterEoc by decide] at hg2
    obtain ⟨hgr, hch⟩ := (hg1.trans hg2).took hnew fun _ _ => rfl
    obtain ⟨T', F', hmem, hheld, hsp⟩ := @Held.grows fs fs2 fp new [] K T F new h hgr hg2.data hch
      (fun hnK => h.ne_free hnew (Or.inl hnK) rfl) fun _ _ _ _ _ => List.not_mem_nil
    refine ⟨_, fs2, ?_, Or.inr ⟨new, T', F', rfl, hmem, hheld, hsp⟩⟩
    rw [if_neg (fun hcl => absurd hcl.2.1 (by decide)), hw]
  · have hch := h.apart.chain c (Or.inr hc)
    have hlv := hch.inVolume _ (List.getLast_mem hne)
    obtain ⟨fs2, fs3, hw2, hw3, hg3⟩ := fatWriteEntry_link h.sound hlv hnew hg1
    obtain ⟨hgr, hch'⟩ := hg3.link hch h.sound hne hnew
    obtain ⟨T', F', hmem, hheld, hsp⟩ := h.grows hgr hg3.data hch' (fun hcK => h.disjoint c hcK hc)
      fun a haH hac x hx => h.apart.apart a haH c (Or.inr hc) hac x hx
    refine ⟨_, fs3, ?_, Or.inr ⟨new, T', F', rfl, hmem, hheld, hsp⟩⟩
    rw [if_pos ⟨hfirst, h.sound.isCluster hlv⟩, hw2, hw3]

/-- There is a cluster to write to, or there is no room. -/
theorem ensureCluster_held {prev : Nat} (h : Held fs K T F fp) (hprev : fp.currentCluster = 0 → IsPrev T F prev) :
    ∃ r fs', ensureCluster fp prev fs = (r, fs') ∧ ((r = none ∧ Goes fs fs' fs.table fs.data) ∨
        ∃ cur T' F', r = some { fp with currentCluster := cur } ∧ (∃ c ∈ T', cur ∈ F' c) ∧
          Held fs' K T' F' { fp with currentCluster := cur } ∧ Spared fs fs' K F F') := by
  rw [ensureCluster]
  rcases h.current with h0 | ⟨c, hc, hmem⟩
  · rw [h0, if_neg (by decide)]
    exact addCluster_held h (hprev h0)
  · have hin := (h.apart.chain c (Or.inr hc)).inVolume _ hmem
    rw [if_pos (h.sound.isCluster hin)]
    exact ⟨some fp, fs, rfl, Or.inr ⟨fp.currentCluster, T, F, rfl, ⟨c, hc, hmem⟩, h, .refl fs K F⟩⟩

/-- The next cluster of a chain, or the end of it. -/
theorem Chain.next_mem {x : Nat} (h : Chain vol t c cs) (hx : x ∈ cs) :
    nextOf t x ∈ cs ∨ (nextOf t x = 0 ∧ ∃ hne : cs ≠ [], x = cs.getLast hne) := by
  obtain ⟨i, hi, rfl⟩ := List.getElem_of_mem hx
  have hnext := h.list.next_getD hi
  rw [List.getD_eq_getElem _ _ hi] at hnext
  rw [hnext]
  rcases Nat.lt_or_ge (i + 1) cs.length with hlt | hge
  · rw [List.getD_eq_getElem _ _ hlt]
    exact Or.inl (List.getElem_mem _)
  · refine Or.inr ⟨List.getD_eq_default _ _ hge, List.ne_nil_of_mem hx, ?_⟩
    rw [List.getLast_eq_getElem]
    congr 1
    omega

/-- **Moving on** stays in the chain, or comes to the end of it. -/
theorem advance_held (h : Held fs K T F fp) (hc : c ∈ T) (hmem : fp.currentCluster ∈ F c) (n : Nat) :
    ∃ fp' fs', advance fp n fs = (fp', fs') ∧ Goes fs fs' fs.table fs.data ∧
      Held fs K T F fp' ∧ fp'.firstCluster = fp.firstCluster ∧
      (fp'.currentCluster = 0 → fs.vol.bytesPerCluster ≤ fp.pos % fs.vol.bytesPerCluster + n ∧
          IsPrev T F fp.currentCluster) := by
  have hch := h.apart.chain c (Or.inr hc)
  rw [advance]
  split
  · rename_i hfull
    obtain ⟨fs', hr, hg⟩ := fat32NextCluster_goes h.sound (hch.inVolume _ hmem)
    rw [hr]
    refine ⟨_, fs', rfl, hg, h.move rfl ?_, rfl, fun h0 => ⟨hfull, ?_⟩⟩
    · exact (hch.next_mem hmem).elim (fun hin => Or.inr ⟨c, hc, hin⟩) fun hend => Or.inl hend.1
    · rcases hch.next_mem hmem with hin | ⟨-, hne, hlast⟩
      · exact absurd (hch.inVolume _ hin).1 (by rw [show nextOf _ _ = 0 from h0]; decide)
      · exact Or.inr ⟨c, hc, hne, hlast⟩
  · refine ⟨_, fs, rfl, .refl h.sound, h.move rfl (Or.inr ⟨c, hc, hmem⟩), rfl, fun h0 => ?_⟩
    exact absurd (hch.inVolume _ hmem).1 (by rw [show fp.currentCluster = 0 from h0]; decide)

variable {src : List UInt8}

/-- **The loop of `fat32_write`** leaves alone what is not the handle's. -/
theorem writeLoop_held {fuel prev : Nat} (h : Held fs K T F fp) (hprev : fp.currentCluster = 0 → IsPrev T F prev) :
    ∃ n fp' fs' T' F', writeLoop fuel src prev fp fs = (n, fp', fs') ∧ Held fs' K T' F' fp' ∧
      Spared fs fs' K F F' ∧ fp'.firstCluster = fp.firstCluster := by
  induction fuel generalizing src prev fp fs T F with
  | zero => exact ⟨0, fp, fs, T, F, rfl, h, .refl fs K F, rfl⟩
  | succ fuel ih =>
    rw [writeLoop]
    split
    · exact ⟨0, fp, fs, T, F, rfl, h, .refl fs K F, rfl⟩
    obtain ⟨r, fs1, he, ⟨rfl, hg⟩ | ⟨cur, T1, F1, rfl, ⟨c, hc, hmem⟩, h1, hsp1⟩⟩ :=
      ensureCluster_held h hprev
    · obtain ⟨hheld, hsp⟩ := h.of_goes hg
      rw [he]
      exact ⟨0, fp, fs1, T, F, rfl, hheld, hsp, rfl⟩
    have hin := (h1.apart.chain c (Or.inr hc)).inVolume _ hmem
    obtain ⟨fs2, hw, hg2⟩ := @writePart_data fs1 cur fp.pos h1.sound hin.1
      (src.take (inCluster fs1.vol fp.pos src.length))
    obtain ⟨h2, hsp2⟩ := h1.of_data hg2 fun a ha x hx => by
      rw [update_of_ne]
      rintro rfl
      refine h1.apart.apart a (Or.inl ha) c (Or.inr hc) ?_ x hx hmem
      rintro rfl
      exact h1.disjoint a ha hc
    have h2' : Held fs2 K T1 F1 { fp with
        currentCluster := cur
        fileSize := grow { fp with currentCluster := cur } (inCluster fs1.vol fp.pos src.length) } :=
      h2.move rfl (Or.inr ⟨c, hc, hmem⟩)
    obtain ⟨fp3, fs3, ha, hg3, h3, hfirst, hend⟩ :=
      advance_held h2' hc hmem (inCluster fs1.vol fp.pos src.length)
    obtain ⟨h3', hsp3⟩ := h3.of_goes hg3
    rw [he]
    dsimp only
    rw [hw]
    dsimp only
    rw [ha]
    obtain ⟨n, fp', fs', T', F', hl, hheld, hsp, hfirst'⟩ := @ih fs3 fp3 T1 F1
      (src.drop (inCluster fs1.vol fp.pos src.length))
      (if fs2.vol.bytesPerCluster ≤ fp.pos % fs2.vol.bytesPerCluster +
        inCluster fs1.vol fp.pos src.length then cur else prev) h3' fun h0 => by
          obtain ⟨hfull, hp⟩ := hend h0
          rw [if_pos hfull]
          exact hp
    refine ⟨inCluster fs1.vol fp.pos src.length + n, fp', fs', T', F', ?_, hheld,
      ((hsp1.trans hsp2).trans hsp3).trans hsp, hfirst'.trans hfirst⟩
    rw [hl]

/-- **`fat32_write`**, wherever the handle stands. -/
theorem fat32Write_held (h : Held fs K T F fp) (src : List UInt8) :
    ∃ n fp' fs' T' F', fat32Write fp src fs = some ((n, fp'), fs') ∧ Held fs' K T' F' fp' ∧
      Spared fs fs' K F F' ∧ fp'.firstCluster = fp.firstCluster := by
  rw [fat32Write]
  split
  · exact ⟨0, fp, fs, T, F, rfl, h, .refl fs K F, rfl⟩
  obtain ⟨p, fs1, hp, hg, hp0⟩ := prevCluster_goes h.sound (h.apart.chain _ (Or.inr h.first))
  obtain ⟨h1, hsp1⟩ := h.of_goes hg
  obtain ⟨n, fp', fs', T', F', hl, hheld, hsp, hfirst⟩ :=
    @writeLoop_held fs1 fp K T F src src.length p h1 fun h0 => Or.inl (hp0 h0)
  refine ⟨n, fp', fs', T', F', ?_, hheld, hsp1.trans hsp, hfirst⟩
  rw [bind_run hp]
  refine congrArg some ?_
  dsimp only
  rw [hl]

/-- **`fat32_seek`** goes to a cluster of the file. -/
theorem fat32Seek_held (h : Held fs K T F fp) (offset : Int) (whence : Nat) :
    ∃ r fs', fat32Seek fp offset whence fs = (r, fs') ∧ Held fs' K T F (r.getD fp) ∧
      Spared fs fs' K F F ∧ (r.getD fp).firstCluster = fp.firstCluster := by
  rw [fat32Seek]
  split
  · exact ⟨none, fs, rfl, h, .refl fs K F, rfl⟩
  split
  · exact ⟨none, fs, rfl, h, .refl fs K F, rfl⟩
  have hch := h.apart.chain _ (Or.inr h.first)
  have hlen := List.length_pos_of_ne_nil (h.apart.ne_nil _ (Or.inr h.first))
  rename_i origin _ _
  obtain ⟨fs', hl, hg⟩ := seekLoop_ok h.sound hch ((origin + offset).toNat / fs.vol.bytesPerCluster)
  obtain ⟨hheld, hsp⟩ := h.of_goes hg
  dsimp only
  rw [hl]
  refine ⟨_, fs', rfl, hheld.move rfl (Or.inr ⟨_, h.first, ?_⟩), hsp, rfl⟩
  rw [List.getD_eq_getElem _ _ (by omega)]
  exact List.getElem_mem _

end WuBuOS.Fat32
