import WuBuOS.Kernel.Fat32.Mount

/-!
# Freeing a chain

`fat32_free_chain` frees the cluster it is at and goes on to the one that was linked there.  It counts
rounds, not clusters: `freeChainLoop_rounds`.  The two differ if the walk comes to a cluster that is
free, be it one that it has freed itself, where a chain is a cycle, or if it leaves the volume.

So freeing is right exactly if the walk is a list of used clusters of the volume, none of them twice, and
then stops (`freedRight_iff`).
-/

namespace WuBuOS.Fat32

open Bytes Trail

variable {fs fs' : Fs} {c e : Nat} {cs : List Nat}

/-- The clusters of the volume that were used and are free. -/
def changed (fs fs' : Fs) : Finset Nat :=
  (Finset.range fs.vol.totalClusters).filter fun d => 2 ≤ d ∧ fs.table d ≠ 0 ∧ fs'.table d = 0

/-- A cluster of the volume that is reached over the links of the table. -/
def Linked (fs : Fs) (c d : Nat) : Prop := InVolume fs.vol d ∧ Reaches fs.table IsCluster c d

/-- **Freeing does what it should**: it ends, what is reached from the cluster is free, every other
entry is as it was, and the count of free clusters has grown by the number of clusters that were used and
are now free. -/
def FreedRight (fs : Fs) (c : Nat) : Prop :=
  ∃ fs', fat32FreeChain c fs = some ((), fs') ∧
    (∀ d, Linked fs c d → fs'.table d = clusterFree) ∧
    (∀ d, ¬Linked fs c d → fs'.table d = fs.table d) ∧
    fs'.vol.freeClusters % 2 ^ 32 = (fs.vol.freeClusters + (changed fs fs').card) % 2 ^ 32

theorem mem_changed {d : Nat} : d ∈ changed fs fs' ↔ InVolume fs.vol d ∧ fs.table d ≠ 0 ∧ fs'.table d = 0 := by
  rw [changed, Finset.mem_filter, Finset.mem_range, InVolume]
  omega

/-- There are not more rounds than the walk may take, and in each of them the count goes up, whatever
state the volume is in. -/
theorem freeChainLoop_count {fuel : Nat} (he : NoErrors fs) (h : freeChainLoop fuel c fs = some ((), fs')) :
    ∃ k ≤ fuel, fs'.vol.freeClusters % 2 ^ 32 = (fs.vol.freeClusters + k) % 2 ^ 32 ∧ (IsCluster c → 1 ≤ k) := by
  induction fuel generalizing c fs with
  | zero => cases h
  | succ fuel ih =>
    rw [freeChainLoop] at h
    split at h
    · obtain ⟨o, fs1, hr, h⟩ := bind_inv h
      obtain ⟨next, hnext⟩ := Option.isSome_iff_exists.1 (fatReadEntry_isSome he c)
      have ht1 := fatReadEntry_touches c fs
      obtain ⟨rfl, rfl⟩ : (fatReadEntry c fs).1 = o ∧ (fatReadEntry c fs).2 = fs1 := by
        simpa [lift] using Prod.ext_iff.1 (Option.some.inj hr)
      rw [hnext] at h
      obtain ⟨w, fs2, hw, h⟩ := bind_inv h
      have ht2 := fatWriteEntry_touches c clusterFree (fatReadEntry c fs).2
      obtain rfl : (fatWriteEntry c clusterFree (fatReadEntry c fs).2).2 = fs2 :=
        (Prod.ext_iff.1 (Option.some.inj hw)).2
      have ht := ht1.trans ht2
      have he2 := ht.noErrors he
      have hcount := ht.freeClusters
      generalize (fatWriteEntry c clusterFree (fatReadEntry c fs).2).2 = fs2 at h he2 hcount
      rw [bind_run (modify_run _ _)] at h
      split at h
      · cases h
        exact ⟨1, by omega, by dsimp only; rw [hcount, Nat.mod_mod], fun _ => Nat.le_refl 1⟩
      · have he3 : NoErrors { fs2 with vol := { fs2.vol with
          freeClusters := (fs2.vol.freeClusters + 1) % 2 ^ 32 } } := he2
        obtain ⟨k, hk, hgrow, -⟩ := ih he3 h
        refine ⟨k + 1, by omega, ?_, fun _ => by omega⟩
        rw [hgrow]
        rw [hcount, Nat.mod_add_mod, Nat.add_assoc, Nat.add_comm 1]
    · rename_i hc
      cases h
      exact ⟨0, Nat.zero_le _, rfl, fun h => absurd h hc⟩

/-- **The count grows by the number of rounds**: along a path without repetition they are at least as many
as its clusters, and one more if it comes to a cluster. -/
theorem freeChainLoop_rounds {fuel : Nat} (hs : Sound fs) (hp : Path fs.table IsCluster c cs e)
    (hnd : cs.Nodup) (hin : ∀ x ∈ cs, InTable fs.vol x) (hfuel : cs.length < fuel)
    (h : freeChainLoop fuel c fs = some ((), fs')) :
    ∃ k ≤ fuel, fs'.vol.freeClusters % 2 ^ 32 = (fs.vol.freeClusters + k) % 2 ^ 32 ∧
      cs.length ≤ k ∧ (IsCluster e → cs.length + 1 ≤ k) := by
  obtain ⟨fs1, hl, hg, hcount, -⟩ := freeChainLoop_walk hs hp hnd hin hfuel
  obtain ⟨k, hk, hgrow, hone⟩ := freeChainLoop_count hg.sound.noErrors (hl ▸ h)
  refine ⟨cs.length + k, by omega, ?_, Nat.le_add_right .., fun hcl => Nat.add_le_add_left (hone hcl) _⟩
  rw [hgrow, ← Nat.add_assoc, Nat.add_mod, hcount, ← Nat.add_mod]

/-- A list of used clusters of the volume, none of them twice, that stops. -/
def FreesList (fs : Fs) (c : Nat) : Prop :=
  ∃ cs e, Path fs.table IsCluster c cs e ∧ ¬IsCluster e ∧ cs.Nodup ∧
    ∀ x ∈ cs, InVolume fs.vol x ∧ fs.table x ≠ 0

theorem table_ne_zero {x : Nat} (h : fs.table x ≠ 0) : InTable fs.vol x := by
  by_contra hout
  exact h (if_neg hout)

theorem FreesList.freedRight (hs : Sound fs) (h : FreesList fs c) : FreedRight fs c := by
  obtain ⟨cs, e, hp, he, hnd, hall⟩ := h
  obtain ⟨fs', hl, hg, hcount, -⟩ := freeChainLoop_path hs hp he hnd
    (fun x hx => hs.table x (hall x hx).1) (length_lt_maxSteps hs hnd fun x hx => (hall x hx).1)
  have hmem : ∀ d, Linked fs c d ↔ d ∈ cs := fun d =>
    ⟨fun hd => (hp.reaches_iff he).1 hd.2, fun hd => ⟨(hall d hd).1, (hp.reaches_iff he).2 hd⟩⟩
  refine ⟨fs', hl, fun d hd => ?_, fun d hd => ?_, ?_⟩
  · rw [hg.table, freedTable, if_pos ((hmem d).1 hd)]
  · rw [hg.table, freedTable, if_neg (mt (hmem d).2 hd)]
  · rw [hcount]
    have hch : changed fs fs' = cs.toFinset := by
      ext d
      rw [mem_changed, List.mem_toFinset, hg.table, freedTable]
      constructor
      · rintro ⟨-, hne, h0⟩
        by_contra hd
        rw [if_neg hd] at h0
        exact hne h0
      · intro hd
        rw [if_pos hd]
        exact ⟨(hall d hd).1, (hall d hd).2, rfl⟩
    rw [hch, List.toFinset_card_of_nodup hnd]

/-- **Freeing is right exactly if what is reached is a list of used clusters of the volume**, none of
them twice.  Whatever is in the table. -/
theorem freedRight_iff (hs : Sound fs) : FreedRight fs c ↔ FreesList fs c := by
  refine ⟨fun hf => ?_, fun h => h.freedRight hs⟩
  obtain ⟨fs', hl, -, hkept, hcount⟩ := hf
  obtain ⟨cs, e, hp, hnd, hused, hend⟩ := exists_path fs.table IsCluster
    (fun x => fs.table x ≠ 0) (s := Finset.range clusterEoc) (fun x hx => Finset.mem_range.2 hx.2) c
  have hfew : cs.length < maxSteps := by
    have hsub : cs.toFinset ⊆ Finset.range clusterEoc := fun x hx =>
      Finset.mem_range.2 (hp.live_of_mem (List.mem_toFinset.1 hx)).2
    have hcard := Finset.card_le_card hsub
    rw [List.toFinset_card_of_nodup hnd, Finset.card_range] at hcard
    exact hcard.trans_lt (by decide)
  obtain ⟨k, hk, hgrow, hlen, hone⟩ :=
    freeChainLoop_rounds hs hp hnd (fun x hx => table_ne_zero (hused x hx)) hfew hl
  -- what has changed has been reached
  have hchanged : ∀ d ∈ changed fs fs', d ∈ cs ∧ InVolume fs.vol d := fun d hd => by
    obtain ⟨hin, hne, h0⟩ := mem_changed.1 hd
    have hlink : Linked fs c d := by
      by_contra hnot
      exact hne ((hkept d hnot).symm.trans h0)
    refine ⟨?_, hin⟩
    rcases hp.cases_reaches hlink.2 with hmem | hr
    · exact hmem
    · rcases hend with hno | hmem | hfree
      · exact absurd hr.head hno
      · exact hp.mem_of_cycle hmem hlink.2
      · -- from a free cluster nothing else is reached
        rcases hr.cases_head with rfl | hr'
        · exact absurd hne hfree
        · rw [not_not.1 hfree] at hr'
          exact absurd hr'.head (by decide)
  have hsub : changed fs fs' ⊆ cs.toFinset := fun d hd => List.mem_toFinset.2 (hchanged d hd).1
  have hcard := Finset.card_le_card hsub
  rw [List.toFinset_card_of_nodup hnd] at hcard
  have htot := hs.clusters
  rw [clusterEoc] at htot
  rw [maxSteps] at hk
  obtain rfl : k = (changed fs fs').card := by omega
  have hall : changed fs fs' = cs.toFinset := Finset.eq_of_subset_of_card_le hsub (by
    rw [List.toFinset_card_of_nodup hnd]
    exact hlen)
  refine ⟨cs, e, hp, fun he => ?_, hnd, fun x hx => ⟨?_, hused x hx⟩⟩
  · have := hone he
    omega
  · exact (hchanged x (hall ▸ List.mem_toFinset.2 hx)).2

/-- A disk on which the clusters 3 and 4 are linked to each other, and 5 is a chain of its own. -/
def cycleFs : Fs :=
  ⟨zeroVolume, put (put (put tinyDisk 524 4 4) 528 4 3) 532 4 clusterEoc, fun _ => ⟨true, fun _ => 0⟩⟩

theorem freedRight_iff_five : ∃ m, fat32Mount 100 cycleFs = (true, m) ∧ FreedRight m 5 := by
  have hm : fat32Mount 100 cycleFs = (true, (fat32Mount 100 cycleFs).2) := Prod.ext (by decide) rfl
  generalize hmm : (fat32Mount 100 cycleFs).2 = m at hm
  have htot : m.vol.totalClusters = 99 ∧ m.vol.sectorsPerFat = 1 := by
    rw [← hmm]
    decide
  have hsound := sound_of_hundred hm (fun _ => rfl) htot
  have h5 : m.table 5 = clusterEoc := by rw [← hmm]; decide
  refine ⟨m, hm, (freedRight_iff hsound).2 ⟨[5], clusterEoc, ⟨rfl, by decide, h5⟩, by decide,
    List.nodup_singleton 5, fun x hx => ?_⟩⟩
  rw [List.mem_singleton.1 hx, h5, InVolume, htot.1]
  decide

/-- **A cycle.**  The clusters 3 and 4 are linked to each other.  They are freed in three rounds, and
the count grows by 3. -/
theorem free_cycle : ∃ m fs', fat32Mount 100 cycleFs = (true, m) ∧ m.vol.freeClusters = 0 ∧
      fat32FreeChain 3 m = some ((), fs') ∧ fs'.vol.freeClusters = 3 ∧ ¬FreedRight m 3 := by
  have hm : fat32Mount 100 cycleFs = (true, (fat32Mount 100 cycleFs).2) := Prod.ext (by decide) rfl
  have hcount : (fat32Mount 100 cycleFs).2.vol.freeClusters = 0 := by decide
  have hrun : (fat32FreeChain 3 (fat32Mount 100 cycleFs).2).map (fun r => r.2.vol.freeClusters) = some 3 := by decide
  have h3 : (fat32Mount 100 cycleFs).2.table 3 = 4 := by decide
  have h4 : (fat32Mount 100 cycleFs).2.table 4 = 3 := by decide
  generalize (fat32Mount 100 cycleFs).2 = m at hm hcount hrun h3 h4
  obtain ⟨⟨⟨⟩, fs'⟩, hl, hfree⟩ := Option.map_eq_some_iff.1 hrun
  refine ⟨m, fs', hm, hcount, hl, hfree, ?_⟩
  rintro ⟨fs'', hl', -, hkept, hgrow⟩
  obtain rfl : fs' = fs'' := (Prod.mk.inj (Option.some.inj (hl.symm.trans hl'))).2
  have hp : Path m.table IsCluster 3 [3, 4] 3 := ⟨rfl, by decide, h3, by decide, h4⟩
  have hsub : changed m fs' ⊆ {3, 4} := fun d hd => by
    obtain ⟨-, hne, h0⟩ := mem_changed.1 hd
    have hlink : Linked m 3 d := by
      by_contra hnot
      exact hne ((hkept d hnot).symm.trans h0)
    simpa using hp.mem_of_cycle List.mem_cons_self hlink.2
  have hcard := Finset.card_le_card hsub
  have htwo : ({3, 4} : Finset Nat).card = 2 := rfl
  rw [hfree, hcount] at hgrow
  omega

end WuBuOS.Fat32
