import WuBuOS.Kernel.Fat32.Separate
import WuBuOS.Kernel.Fat32.Format

/-!
# Calls on the files of a directory

Each call keeps the invariant `Kept`, and none of them fails to return.  Deleting frees the chain of an
entry and takes the entry away; creating begins a new chain and may put a cluster behind the directory,
and the only entry that is new is the one with the new chain; opening takes the chain of a file from the
directory's and gives it to the handle.

So the chains of the root directory and of its entries are apart after every run from a volume that has
been formatted (`files_apart`), as long as no request fails and the file that is open is not deleted.
-/

namespace WuBuOS.Fat32

open Bytes Runs
open Function (update update_of_ne update_self)

variable {fs fs' : Fs} {s s' : Opened} {fp : File} {K K' T : Set Nat} {F F' : Nat → List Nat} {c : Nat}
  {ds ds' : List Nat} {name : List UInt8} {dir attr : Nat} {info : FileInfo} {r : Option FileInfo}

/-! ## Deleting -/

/-- What is found in the directory is one of its entries. -/
theorem Kept.found (h : Kept s K T F) (hlook : s.fs.lookup (F s.fs.vol.rootCluster) name = some info) :
    Entries s.fs (F s.fs.vol.rootCluster) (info.dirCluster, info.dirOffset) ∧
      s.fs.cluster (info.dirCluster, info.dirOffset) = info.firstCluster ∧
      info.firstCluster ≠ s.fs.vol.rootCluster ∧
      (info.firstCluster ∈ K ∨ ∃ fp, s.file = some fp ∧ fp.firstCluster = info.firstCluster) := by
  obtain ⟨hmem, hlt, hentry, hfirst⟩ := lookup_entry hlook
  have he : Entries s.fs (F s.fs.vol.rootCluster) (info.dirCluster, info.dirOffset) :=
    ⟨hmem, hlt, hentry⟩
  have hc : s.fs.cluster (info.dirCluster, info.dirOffset) = info.firstCluster := hfirst.symm
  have := h.entry _ he
  rw [hc] at this
  exact ⟨he, hc, this⟩

/-- **A file has been deleted** that is not the one that is open. -/
theorem delete_kept (h : Kept s K T F) (hd : AtRoot s.fs.vol dir) (hsp : FileCall.Spares s (.delete dir name)) :
    ∃ r fs' K', fat32Delete dir name s.fs = some (r, fs') ∧ Kept ⟨fs', s.file⟩ K' T F ∧ SameShape s.fs.vol fs'.vol := by
  obtain ⟨hch, hne⟩ := h.rootDir hd
  cases hlook : s.fs.lookup (F s.fs.vol.rootCluster) name with
  | none =>
    obtain ⟨fs', hdel, hg⟩ := fat32Delete_missing h.sound h.mounted hch hlook
    exact ⟨false, fs', K, hdel, h.of_goes hg, hg.shape⟩
  | some info =>
    obtain ⟨he, hc, hroot, hfirst⟩ := h.found hlook
    have hK : info.firstCluster ∈ K := by
      refine hfirst.resolve_right ?_
      rintro ⟨fp, hfp, heq⟩
      obtain ⟨fs1, hf, -⟩ := fat32Find_ok name h.sound hch
      rw [hlook] at hf
      exact hsp fp info fs1 hfp hf heq.symm
    obtain ⟨fs', hdel, hg⟩ := fat32Delete_ok h.sound h.mounted hch hlook (h.apart.chain _ (Or.inl hK))
    have hold : ∀ e, Entries fs' (F s.fs.vol.rootCluster) e →
        (Entries s.fs (F s.fs.vol.rootCluster) e ∧ fs'.cluster e = s.fs.cluster e) ∧
          e ≠ (info.dirCluster, info.dirOffset) := by
      rintro e ⟨hmem, hlt, hentry⟩
      rw [hg.shape.entriesPerCluster] at hlt
      rw [Entries, Fs.cluster, Fs.cluster]
      rw [hg.data] at hentry ⊢
      rcases eq_or_ne e.1 info.dirCluster with h1 | h1
      · rw [h1, update_self] at hentry ⊢
        rw [(clip_slot s.fs.vol _ hlt).entry.isEntry] at hentry
        rw [(clip_slot s.fs.vol _ hlt).entry.slotCluster]
        have h2 : info.dirOffset ≠ e.2 := by
          intro heq
          rw [heq] at hentry
          exact deletedBuf_not_entry hentry
        have hsame := (@deletedBuf_other (s.fs.data info.dirCluster) _ _ h2).entry
        exact ⟨⟨⟨h1 ▸ hmem, hlt, hsame.isEntry.1 hentry⟩, hsame.slotCluster⟩,
          fun heq => h2 (congrArg Prod.snd heq).symm⟩
      · rw [update_of_ne h1] at hentry ⊢
        exact ⟨⟨⟨hmem, hlt, hentry⟩, rfl⟩, fun heq => h1 (congrArg Prod.fst heq)⟩
    have hsub : K \ {info.firstCluster} ∪ T ⊆ (K ∪ T) \ {info.firstCluster} := by
      rintro c (hcK | hcT)
      · exact ⟨Or.inl hcK.1, hcK.2⟩
      · refine ⟨Or.inr hcT, fun heq => h.disjoint _ hK ?_⟩
        rwa [← Set.mem_singleton_iff.1 heq]
    refine ⟨true, fs', K \ {info.firstCluster}, hdel, ?_, hg.shape⟩
    refine h.next hg.sound hg.shape ((h.apart.freed (Or.inl hK) hg.shape hg.table).mono hsub)
      (fun c hcK => h.disjoint c hcK.1) ⟨h.root, hroot.symm⟩ rfl (fun e he' => (hold e he').1)
      (fun e he' => ?_) h.file
    obtain ⟨⟨he0, -⟩, hne'⟩ := hold e he'
    refine (h.entry e he0).2.imp_left fun hcK => ⟨hcK, fun heq => hne' ?_⟩
    exact h.inj _ _ he0 he ((Set.mem_singleton_iff.1 heq).trans hc.symm)

/-! ## Creating -/

theorem not_isEntry_zero (i : Nat) : ¬IsEntry (fun _ => 0) i := fun h => h.1 rfl

/-- A directory that has grown has no entries but those it had. -/
theorem DirGrows.entries {e : Nat × Nat} (hg : DirGrows fs fs' c ds ds') (he : Entries fs' ds' e) :
    Entries fs ds e ∧ fs'.cluster e = fs.cluster e := by
  obtain ⟨hmem, hlt, hentry⟩ := he
  rw [hg.shape.entriesPerCluster] at hlt
  by_cases hold : e.1 ∈ ds
  · rw [hg.old e.1 hold] at hentry
    refine ⟨⟨hold, hlt, hentry⟩, ?_⟩
    rw [Fs.cluster, Fs.cluster, hg.old e.1 hold]
  · rw [hg.new e.1 hmem hold] at hentry
    exact absurd hentry (not_isEntry_zero e.2)

/-- **The entries of a directory in which there has been looked for room**: those that it had, and
perhaps the new one. -/
theorem Placed.entries {new : Nat} (h : Placed fs fs' c ds 0 name attr new r) (hnew : new < 2 ^ 32) :
    ∃ ds' e0, Grows fs fs' ds ds' ∧ Chain fs'.vol fs'.table c ds' ∧
      (∀ e, Entries fs' ds' e → (Entries fs ds e ∧ fs'.cluster e = fs.cluster e) ∨ (e = e0 ∧ fs'.cluster e = new)) ∧
      ∀ info, r = some info → info.firstCluster = new := by
  obtain ⟨ds', fs1, hgr, ⟨rfl, hg⟩ | ⟨dc, i, now, hplace, rfl, hg⟩⟩ := h
  · have hgr' := hgr.trans (.of_goes hgr.chain hg)
    exact ⟨ds', (0, 0), hgr'.toGrows, hgr'.chain, fun e he => Or.inl (hgr'.entries he), fun _ h0 => nomatch h0⟩
  · rw [List.drop_zero] at hplace
    obtain ⟨hdc, hi, -⟩ := place_free hplace
    rw [← hgr.shape.entriesPerCluster] at hi
    have hslots := @placedBuf_slots (fs1.data dc) fs1.vol name i attr new now hnew hi
    refine ⟨ds', (dc, i + (wubuLfnBuildEntries name).length), hgr.toGrows.trans (hg.grows fun x hx => ?_),
      hg.chain hgr.chain, ?_, ?_⟩
    · rw [update_of_ne]
      rintro rfl
      exact hx hdc
    · rintro ⟨x, j⟩ ⟨hmem, hlt, hentry⟩
      rw [hg.shape.entriesPerCluster] at hlt
      rw [Fs.cluster]
      rw [hg.data] at hentry ⊢
      -- whatever is in a slot that is as it was, was there before
      have hsame : SameSlot (fs1.data x) (fs'.data x) j →
          Entries fs ds (x, j) ∧ fs'.cluster (x, j) = fs.cluster (x, j) := by
        intro hslot
        have hentry1 : IsEntry (fs1.data x) j := by
          rw [← hslot.entry.isEntry, hg.data]
          exact hentry
        obtain ⟨he, hc⟩ := hgr.entries (e := (x, j)) ⟨hmem, hlt, hentry1⟩
        refine ⟨he, Eq.trans ?_ hc⟩
        rw [Fs.cluster, Fs.cluster]
        exact hslot.entry.slotCluster
      rw [Fs.cluster, hg.data] at hsame
      rcases eq_or_ne x dc with rfl | hx
      · simp only [update_self] at hentry hsame ⊢
        by_cases hout : j < i ∨ i + (wubuLfnBuildEntries name).length < j
        · exact Or.inl (hsame (hslots.other j hlt hout))
        · rcases Nat.lt_or_ge j (i + (wubuLfnBuildEntries name).length) with hlong | hge
          · exact absurd hentry (hslots.long j (by omega) hlong)
          · obtain rfl : j = i + (wubuLfnBuildEntries name).length := by omega
            exact Or.inr ⟨rfl, hslots.entry⟩
      · simp only [update_of_ne hx] at hsame ⊢
        exact Or.inl (hsame fun _ _ => rfl)
    · rintro _ ⟨⟩
      rfl

/-- A cluster that a file of the directory begins at. -/
def Begins (s : Opened) (K : Set Nat) (c : Nat) : Prop :=
  c ≠ s.fs.vol.rootCluster ∧ (c ∈ K ∨ ∃ fp, s.file = some fp ∧ fp.firstCluster = c)

/-- **A file has been created**, or it existed, or there is no room. -/
theorem create_kept (h : Kept s K T F) (hd : AtRoot s.fs.vol dir) (name : List UInt8) (attr : Nat) :
    ∃ r fs' K' F', fat32Create dir name attr s.fs = some (r, fs') ∧ Kept ⟨fs', s.file⟩ K' T F' ∧
      SameShape s.fs.vol fs'.vol ∧ ∀ info, r = some info → Begins s K' info.firstCluster := by
  rcases eq_or_ne name [] with rfl | hname
  · refine ⟨none, s.fs, K, F, ?_, h, .refl _, fun _ h0 => nomatch h0⟩
    rw [fat32Create, bind_run (get_run _), if_pos (Or.inr rfl)]
    rfl
  obtain ⟨hch, hne⟩ := h.rootDir hd
  obtain ⟨r, fs', hrun, ⟨rfl, hg, -⟩ | ⟨hlook, new, d, fs1, hnew, hdata, -, hg, hplaced⟩, -⟩ :=
    @fat32Create_ok s.fs name _ dir attr h.sound h.mounted hch hne hname
  · exact ⟨_, fs', K, F, hrun, h.of_goes hg, hg.shape, fun info hinfo => (h.found hinfo).2.2⟩
  rw [hd.dirOrRoot] at hplaced
  have hused : ∀ c ∈ K ∪ T, c ≠ new := by
    rintro c hc rfl
    exact (h.apart.chain c hc).used c (h.apart.mem_self hc) (Fs.mem_free.1 hnew).2
  have hroot : s.fs.vol.rootCluster ≠ new := hused _ (Or.inl h.root)
  -- the cluster of the file is a chain of its own
  obtain ⟨hgr1, hch1⟩ := hg.took hnew hdata
  have hap1 := h.apart.grows hgr1 hch1 (List.cons_ne_nil _ _) fun _ _ _ _ _ => List.not_mem_nil
  have hsame : SameEntries s.fs fs1 (F s.fs.vol.rootCluster) := .of_data fun x hx => by
    rw [hg.data, hdata]
    rintro rfl
    exact hch.used x hx (Fs.mem_free.1 hnew).2
  -- and the chain of the directory has grown
  obtain ⟨ds', e0, hgr2, hch2, hents, hr⟩ := hplaced.entries
    ((Fs.mem_free.1 hnew).1.2.trans_le (h.sound.clusters.trans (by decide)))
  have hne' : ds' ≠ [] := by
    rintro rfl
    exact hne (List.prefix_nil.1 hgr2.begins)
  have hap2 := hap1.grows hgr2 hch2 hne' fun a ha hac x hx => by
    rw [← update_of_ne hroot [new] F]
    exact hap1.apart a ha _ (Set.mem_insert_of_mem _ (Or.inl h.root)) hac x hx
  have hshape := hg.shape.trans hgr2.shape
  have hold : ∀ e, Entries fs' ds' e → (Entries s.fs (F s.fs.vol.rootCluster) e ∧ fs'.cluster e = s.fs.cluster e) ∨
        (e = e0 ∧ fs'.cluster e = new) := by
    intro e he
    refine (hents e he).imp_left fun hold => ?_
    obtain ⟨he1, hc1⟩ := hsame.entries hg.shape hold.1
    exact ⟨he1, hold.2.trans hc1⟩
  refine ⟨r, fs', insert new K, update (update F new [new]) s.fs.vol.rootCluster ds',
    hrun, ⟨hgr2.sound, hshape.mounted.trans h.mounted, hap2.mono ?_, ?_, ?_, fun e he => ?_,
      fun e e' he he' heq => ?_, fun fp hfp => ?_⟩, hshape, fun info hinfo => ?_⟩
  · rintro c ((rfl | hc) | hc)
    · exact Or.inr (Or.inl rfl)
    · exact Or.inr (Or.inr (Or.inl hc))
    · exact Or.inr (Or.inr (Or.inr hc))
  · rintro c (rfl | hc)
    · exact fun hcT => hused c (Or.inr hcT) rfl
    · exact h.disjoint c hc
  · show fs'.vol.rootCluster ∈ insert new K
    rw [hshape.rootCluster]
    exact Set.mem_insert_of_mem _ h.root
  · rw [hshape.rootCluster, update_self] at he
    rw [hshape.rootCluster]
    rcases hold e he with ⟨he1, hc⟩ | ⟨-, hc⟩
    · rw [hc]
      exact ⟨(h.entry e he1).1, (h.entry e he1).2.imp_left (Set.mem_insert_of_mem _)⟩
    · rw [hc]
      exact ⟨hroot.symm, Or.inl (Set.mem_insert ..)⟩
  · rw [hshape.rootCluster, update_self] at he he'
    rcases hold e he with ⟨he1, hc⟩ | ⟨rfl, hc⟩
    · rcases hold e' he' with ⟨he1', hc'⟩ | ⟨-, hc'⟩
      · exact h.inj e e' he1 he1' (by rw [← hc, ← hc', heq])
      · exact absurd ((hc.symm.trans heq).trans hc') (hused _ (h.mem he1))
    · rcases hold e' he' with ⟨he1', hc'⟩ | ⟨rfl, -⟩
      · exact absurd ((hc'.symm.trans heq.symm).trans hc) (hused _ (h.mem he1'))
      · rfl
  · obtain ⟨hfirst, hcur⟩ := h.file fp hfp
    refine ⟨hfirst, hcur.imp_right ?_⟩
    rintro ⟨c, hc, hmem⟩
    refine ⟨c, hc, ?_⟩
    rw [update_of_ne, update_of_ne (hused c (Or.inr hc))]
    · exact hmem
    · rintro rfl
      exact h.disjoint _ h.root hc
  · rw [hr info hinfo]
    exact ⟨hroot.symm, Or.inl (Set.mem_insert ..)⟩

/-! ## Opening -/

/-- What opening a file comes to. -/
def Opens (fs fs' : Fs) (r : Option File) : Prop :=
  SameShape fs.vol fs'.vol ∧ ∃ K T F, Kept ⟨fs', r⟩ K T F

/-- A handle at the beginning of a file. -/
theorem Kept.openInfo (h : Kept ⟨fs, none⟩ K T F) (hb : Begins ⟨fs, none⟩ K info.firstCluster)
    (size : Nat) (writeMode : Bool) :
    ∃ K T F, Kept ⟨fs, some (openInfo info size writeMode)⟩ K T F := by
  have hK : info.firstCluster ∈ K := hb.2.resolve_right fun ⟨_, h0, _⟩ => nomatch h0
  exact ⟨_, _, F, h.opened hK hb.1 (h.apart.mem_self (Or.inl hK))⟩

theorem openNew_kept (h : Kept ⟨fs, none⟩ K T F) (hd : AtRoot fs.vol dir) (name : List UInt8) :
    ∃ r fs', openNew dir name fs = some (r, fs') ∧ Opens fs fs' r := by
  obtain ⟨r, fs', K', F', hrun, hkept, hshape, hr⟩ := create_kept h hd name attrArchive
  refine ⟨r.map fun info => openInfo info 0 true, fs', ?_, hshape, ?_⟩
  · rw [openNew, bind_run hrun]
    rfl
  · cases r with
    | none => exact ⟨K', T, F', hkept⟩
    | some info =>
      obtain ⟨hroot, hb⟩ := hr info rfl
      exact hkept.openInfo ⟨by rw [hshape.rootCluster]; exact hroot, hb⟩ 0 true

theorem openAppend_kept (h : Kept ⟨fs, none⟩ K T F) (hb : Begins ⟨fs, none⟩ K info.firstCluster) :
    ∃ r fs', openAppend info fs = some (r, fs') ∧ Opens fs fs' r := by
  have hK : info.firstCluster ∈ K := hb.2.resolve_right fun ⟨_, h0, _⟩ => nomatch h0
  have hch := h.apart.chain _ (Or.inl hK)
  obtain ⟨fs', hl, hg⟩ := lastClusterLoop_ok h.sound hch (hch.length_lt h.sound)
  have hshape := hg.shape
  refine ⟨_, fs', by rw [openAppend, bind_run hl]; rfl, hshape, ?_⟩
  refine ⟨_, _, F, Kept.opened (h.of_goes hg) hK (by rw [hshape.rootCluster]; exact hb.1) ?_⟩
  have hne := h.apart.ne_nil _ (Or.inl hK)
  rw [List.getLastD_eq_getLast?, List.getLast?_eq_some_getLast hne, Option.getD_some]
  exact List.getLast_mem hne

/-- **A file has been opened.** -/
theorem open_kept (h : Kept ⟨fs, none⟩ K T F) (hd : AtRoot fs.vol dir) (name : List UInt8) (mode : Mode) :
    ∃ r fs', fat32Open dir name mode fs = some (r, fs') ∧ Opens fs fs' r := by
  obtain ⟨hch, -⟩ := h.rootDir (Or.inr rfl)
  obtain ⟨fs1, hf, hg⟩ := fat32Find_ok name h.sound hch
  have h1 := h.of_goes hg
  have hshape := hg.shape
  have hd1 : AtRoot fs1.vol fs.vol.rootCluster := Or.inr hshape.rootCluster.symm
  have hfound : ∀ info, fs.lookup (F fs.vol.rootCluster) name = some info → Begins ⟨fs1, none⟩ K info.firstCluster := by
    intro info hinfo
    obtain ⟨-, -, hroot, hb⟩ := h.found hinfo
    exact ⟨by rw [hshape.rootCluster]; exact hroot, hb⟩
  rw [fat32Open, bind_run (get_run _), if_neg (by rw [h.mounted]; decide), bind_run (get_run _),
    hd.dirOrRoot, bind_run hf]
  generalize fs.lookup (F fs.vol.rootCluster) name = found at hfound ⊢
  have hopens : ∀ {fs' r}, Opens fs1 fs' r → Opens fs fs' r := fun ho => ⟨hshape.trans ho.1, ho.2⟩
  have hexisting : ∀ writeMode, ∃ K T F,
      Kept ⟨fs1, found.map fun info => openInfo info info.fileSize writeMode⟩ K T F := by
    intro writeMode
    cases found with
    | none => exact ⟨K, T, F, h1⟩
    | some info => exact h1.openInfo (hfound info rfl) info.fileSize writeMode
  cases mode with
  | r => exact ⟨_, fs1, rfl, hshape, hexisting false⟩
  | rw => exact ⟨_, fs1, rfl, hshape, hexisting true⟩
  | w =>
    have hdel : ∃ fs2 K2, deleteIfFound found fs.vol.rootCluster name fs1 = some ((), fs2) ∧
        Kept ⟨fs2, none⟩ K2 T F ∧ SameShape fs1.vol fs2.vol := by
      cases found with
      | none => exact ⟨fs1, K, rfl, h1, .refl _⟩
      | some info =>
        obtain ⟨r, fs2, K2, hdel, h2, hshape2⟩ := @delete_kept _ K T F name _ h1 hd1 fun _ _ _ h0 => nomatch h0
        exact ⟨fs2, K2, by rw [deleteIfFound, bind_run hdel]; rfl, h2, hshape2⟩
    obtain ⟨fs2, K2, hdel, h2, hshape2⟩ := hdel
    obtain ⟨r, fs', hnew, ho⟩ := openNew_kept h2
      (show AtRoot fs2.vol fs.vol.rootCluster from Or.inr (hshape.trans hshape2).rootCluster.symm) name
    exact ⟨r, fs', by rw [← hnew]; exact bind_run hdel, hopens ⟨hshape2.trans ho.1, ho.2⟩⟩
  | a =>
    cases found with
    | none =>
      obtain ⟨r, fs', hnew, ho⟩ := openNew_kept h1 hd1 name
      exact ⟨r, fs', hnew, hopens ho⟩
    | some info =>
      obtain ⟨r, fs', happ, ho⟩ := openAppend_kept h1 (hfound info rfl)
      exact ⟨r, fs', happ, hopens ho⟩
  | other => exact ⟨none, fs1, rfl, hshape, K, T, F, h1⟩

/-! ## Runs -/

/-- The call can be made: a handle is there if one is needed, and no second one is opened. -/
def FileCall.Possible (s : Opened) : FileCall → Prop
  | .open_ _ _ _ => s.file = none
  | .write _ | .seek _ _ | .close => s.file ≠ none
  | _ => True

theorem FileCall.possible {call : FileCall} (h : call.run s = some s') : call.Possible s := by
  obtain ⟨fs, file⟩ := s
  match call with
  | .create _ _ _ => trivial
  | .open_ _ _ _ =>
    cases file with
    | none => rfl
    | some fp => exact nomatch h
  | .write _ =>
    rintro rfl
    exact nomatch h
  | .seek _ _ =>
    rintro rfl
    exact nomatch h
  | .close =>
    rintro rfl
    exact nomatch h
  | .delete _ _ => trivial

/-- **Every call that can be made returns, and keeps the chains apart.** -/
theorem FileCall.kept {call : FileCall} (h : Kept s K T F) (hroot : call.InRoot s.fs.vol)
    (hsp : call.Spares s) (hp : call.Possible s) :
    ∃ s', call.run s = some s' ∧ ∃ K T F, Kept s' K T F := by
  obtain ⟨fs, file⟩ := s
  match call with
  | .create dir name attr =>
    obtain ⟨r, fs', K', F', hrun, hkept, -⟩ := create_kept h hroot name attr
    exact ⟨⟨fs', file⟩, by rw [FileCall.run, hrun]; rfl, K', T, F', hkept⟩
  | .open_ dir name mode =>
    obtain rfl : file = none := hp
    obtain ⟨r, fs', hrun, -, hkept⟩ := open_kept h hroot name mode
    exact ⟨⟨fs', r⟩, by rw [FileCall.run, hrun]; rfl, hkept⟩
  | .write src =>
    obtain ⟨fp, rfl⟩ := Option.ne_none_iff_exists'.1 hp
    obtain ⟨n, fp', fs', T', F', hrun, hheld, hspared, hfirst⟩ := fat32Write_held h.held src
    exact ⟨⟨fs', some fp'⟩, by rw [FileCall.run, Option.bind_some, hrun]; rfl, K, T', F',
      h.of_held hheld hspared hfirst⟩
  | .seek offset whence =>
    obtain ⟨fp, rfl⟩ := Option.ne_none_iff_exists'.1 hp
    obtain ⟨r, fs', hrun, hheld, hspared, hfirst⟩ := fat32Seek_held h.held offset whence
    exact ⟨⟨fs', some (r.getD fp)⟩, by rw [FileCall.run, Option.map_some, hrun], K, T, F,
      h.of_held hheld hspared hfirst⟩
  | .close =>
    obtain ⟨fp, rfl⟩ := Option.ne_none_iff_exists'.1 hp
    exact ⟨⟨fat32Close fp fs, none⟩, rfl, _, _, _, h.close⟩
  | .delete dir name =>
    obtain ⟨r, fs', K', hrun, hkept, -⟩ := delete_kept h hroot hsp
    exact ⟨⟨fs', file⟩, by rw [FileCall.run, hrun]; rfl, K', T, F, hkept⟩

theorem Empty.kept {m : Fs} (h : Empty m) : Kept ⟨m, none⟩ {m.vol.rootCluster} ∅ fun _ => [m.vol.rootCluster] := by
  have hno : ∀ e, ¬Entries m [m.vol.rootCluster] e := by
    rintro ⟨x, j⟩ ⟨hx, -, hentry⟩
    rw [show x = m.vol.rootCluster from List.mem_singleton.1 hx, h.data] at hentry
    exact not_isEntry_zero j hentry
  refine ⟨h.sound, h.mounted, ⟨fun c hc => ?_, fun _ _ => List.cons_ne_nil _ _, fun a ha b hb hab => ?_⟩,
    fun _ _ => Set.notMem_empty _, rfl, fun e he => absurd he (hno e), fun e _ he => absurd he (hno e),
    fun _ h0 => nomatch h0⟩
  · rw [Set.union_empty, Set.mem_singleton_iff] at hc
    exact hc ▸ h.chain
  · rw [Set.union_empty, Set.mem_singleton_iff] at ha hb
    exact absurd (ha.trans hb.symm) hab

/-- A call on a file of the root directory that is not the deletion of the file that is open. -/
def FileCall.Careful (s : Opened) (call : FileCall) : Prop := call.InRoot s.fs.vol ∧ call.Spares s

/-- A call, and what it comes to. -/
def Calls (s : Opened) (call : FileCall) (s' : Opened) : Prop := call.run s = some s'

theorem Kept.run {calls : List FileCall} (h : ∃ K T F, Kept s K T F)
    (hrun : Run (guarded FileCall.Careful Calls) s calls s') : ∃ K T F, Kept s' K T F := by
  refine hrun.invariant (fun s => ∃ K T F, Kept s K T F) ?_ h
  rintro s call t ⟨⟨hroot, hsp⟩, hcall⟩ ⟨K, T, F, hkept⟩
  obtain ⟨t', ht, hkept'⟩ := FileCall.kept hkept hroot hsp (FileCall.possible hcall)
  rw [hcall] at ht
  exact Option.some.inj ht ▸ hkept'

/-- **The chains of the root directory and of its entries are apart** after every run of calls on files of
the root directory, from a volume that has been formatted; and the next call returns. -/
theorem files_apart {n : Nat} {volName : Option (List UInt8)} {fs f m : Fs} {calls : List FileCall}
    (he : NoErrors fs) (hn : 37 ≤ n) (hlt : n < 2 ^ 34) (hf : fat32Format n volName fs = (true, f))
    (hm : fat32Mount n f = (true, m))
    (hrun : Run (guarded FileCall.Careful Calls) ⟨m, none⟩ calls s) :
    Separated s.fs ∧ ∀ call : FileCall, call.Careful s → call.Possible s → ∃ s', Calls s call s' := by
  obtain ⟨K, T, F, hkept⟩ := Kept.run ⟨_, _, _, (empty_of_format he hn hlt hf hm).kept⟩ hrun
  refine ⟨hkept.separated, fun call hcall hp => ?_⟩
  obtain ⟨s', hs', -⟩ := FileCall.kept hkept hcall.1 hcall.2 hp
  exact ⟨s', hs'⟩

/-! ## Runs that do not keep to it -/

instance (buf : Buf) (i : Nat) : Decidable (IsEntry buf i) :=
  inferInstanceAs (Decidable (slotField buf i 0 1 ≠ 0x00 ∧ slotField buf i 0 1 ≠ 0xE5 ∧
    slotField buf i 11 1 ≠ attrLfn))

instance (vol : Volume) (dir : Nat) : Decidable (AtRoot vol dir) :=
  inferInstanceAs (Decidable (dir = 0 ∨ dir = vol.rootCluster))

instance (vol : Volume) : (call : FileCall) → Decidable (call.InRoot vol)
  | .create dir _ _ => inferInstanceAs (Decidable (AtRoot vol dir))
  | .open_ dir _ _ => inferInstanceAs (Decidable (AtRoot vol dir))
  | .write _ | .seek _ _ | .close => inferInstanceAs (Decidable True)
  | .delete dir _ => inferInstanceAs (Decidable (AtRoot vol dir))

/-- Two files that are not the same. -/
def otherFile (s : Opened) (found : Option (Option FileInfo × Fs)) : Bool :=
  (s.file.bind fun fp => found.bind fun r => r.1.map fun info =>
    info.firstCluster != fp.firstCluster).getD true

theorem spares_delete : FileCall.Spares s (.delete dir name) ↔ otherFile s (fat32Find dir name s.fs) = true := by
  rw [FileCall.Spares, otherFile]
  generalize fat32Find dir name s.fs = found
  rcases s.file with - | fp
  · exact iff_of_true (fun _ _ _ h0 => nomatch h0) rfl
  · rcases found with - | ⟨- | info, fs'⟩
    · exact iff_of_true (fun _ _ _ _ h0 => nomatch h0) rfl
    · exact iff_of_true (fun _ _ _ _ h0 => nomatch h0) rfl
    · simp only [Option.bind_some, Option.map_some, Option.getD_some, bne_iff_ne]
      refine ⟨fun h => h fp info fs' rfl rfl, ?_⟩
      rintro h _ _ _ ⟨⟩ ⟨⟩
      exact h

instance (s : Opened) : (call : FileCall) → Decidable (call.Spares s)
  | .create _ _ _ | .open_ _ _ _ | .write _ | .seek _ _ | .close => inferInstanceAs (Decidable True)
  | .delete _ _ => decidable_of_iff' _ spares_delete

instance (s : Opened) (call : FileCall) : Decidable (call.Careful s) :=
  inferInstanceAs (Decidable (call.InRoot s.fs.vol ∧ call.Spares s))

/-- A volume that a device of 100 sectors is formatted to. -/
def freshVolume (fs : Fs) : Fs := (fat32Mount 100 (fat32Format 100 none fs).2).2

/-- What a run that can be computed comes to. -/
theorem run_replay {m : Fs} {ok : Opened → FileCall → Prop} [∀ s call, Decidable (ok s call)]
    {P : Opened → Prop} [DecidablePred P] {calls : List FileCall}
    (h : (replay ok (fun s call => call.run s) ⟨m, none⟩ calls).map (fun s => decide (P s)) = some true) :
    ∃ s, Run (guarded ok Calls) ⟨m, none⟩ calls s ∧ P s := by
  obtain ⟨s, hs, hP⟩ := Option.map_eq_some_iff.1 h
  exact ⟨s, run_of_replay hs, of_decide_eq_true hP⟩

theorem files_apart_blank : ∃ f m s, fat32Format 100 none blankFs = (true, f) ∧ fat32Mount 100 f = (true, m) ∧
      Run (guarded FileCall.Careful Calls) ⟨m, none⟩ [.create 0 [65] 0x20, .open_ 0 [66] .w,
        .write (List.replicate 600 1), .delete 0 [65], .seek 0 0, .write [2], .close] s ∧
      Separated s.fs := by
  have hf : fat32Format 100 none blankFs = (true, (fat32Format 100 none blankFs).2) :=
    Prod.ext (by decide +kernel) rfl
  have hm : fat32Mount 100 (fat32Format 100 none blankFs).2 = (true, freshVolume blankFs) :=
    Prod.ext (by decide +kernel) rfl
  obtain ⟨s, hrun, -⟩ := @run_replay (freshVolume blankFs) FileCall.Careful _ (fun s => s.file = none) _
    [.create 0 [65] 0x20, .open_ 0 [66] .w, .write (List.replicate 600 1), .delete 0 [65], .seek 0 0,
      .write [2], .close] (by decide +kernel)
  exact ⟨_, _, s, hf, hm, hrun, (files_apart (fun _ => rfl) (by decide) (by decide) hf hm hrun).1⟩

/-- A name of so many characters `a`. -/
def longName (n : Nat) : List UInt8 := List.replicate n 97

/-- An entry of a directory: a file that begins at cluster 5. -/
def forged : List UInt8 :=
  88 :: List.replicate 10 32 ++ 0x20 :: List.replicate 14 0 ++ [5, 0, 0, 0, 0, 0]

/-- A file is deleted while it is open, its cluster becomes one of the directory's, and is written to
through the handle. -/
def deletesOpen : List FileCall :=
  [.create 0 [65] 0x20, .open_ 0 [66] .w, .create 0 [67] 0x20, .delete 0 [65], .delete 0 [66],
    .create 0 (longName 157) 0x20, .write forged]

/-- Two entries begin at cluster 5: one in the first cluster of the root directory, one in the second. -/
def Shared (s : Opened) : Prop :=
  (s.fs.vol.rootCluster = 2 ∧ nextOf s.fs.table 2 = 4 ∧ entriesPerCluster s.fs.vol = 16) ∧
    IsEntry (s.fs.data 2) 2 ∧ IsEntry (s.fs.data 4) 0 ∧ s.fs.cluster (2, 2) = 5 ∧ s.fs.cluster (4, 0) = 5

instance (s : Opened) : Decidable (Shared s) :=
  inferInstanceAs (Decidable ((s.fs.vol.rootCluster = 2 ∧ nextOf s.fs.table 2 = 4 ∧
    entriesPerCluster s.fs.vol = 16) ∧ IsEntry (s.fs.data 2) 2 ∧ IsEntry (s.fs.data 4) 0 ∧
    s.fs.cluster (2, 2) = 5 ∧ s.fs.cluster (4, 0) = 5))

theorem Ended.mem_self {cs : List Nat} (h : Ended fs c cs) : c ∈ cs := by
  obtain ⟨x, l, rfl⟩ := List.exists_cons_of_ne_nil h.ne_nil
  rw [h.head]
  exact List.mem_cons_self

theorem Shared.not_separated (h : Shared s) : ¬Separated s.fs := by
  obtain ⟨⟨hroot, hnext, hslots⟩, he, he', hc, hc'⟩ := h
  rintro ⟨ds, F, hds, hF⟩
  rw [hroot] at hds
  have h2 : 2 ∈ ds := hds.mem_self
  have h4 : 4 ∈ ds := hnext ▸ (hds.toChain.next_mem h2).resolve_right fun h0 =>
    absurd (hnext.symm.trans h0.1) (by decide)
  have hent : Entries s.fs ds (2, 2) := ⟨h2, by rw [hslots]; decide, he⟩
  have hent' : Entries s.fs ds (4, 0) := ⟨h4, by rw [hslots]; decide, he'⟩
  obtain ⟨hfirst, -, hapart⟩ := hF _ hent
  obtain ⟨hfirst', -⟩ := hF _ hent'
  rw [hc] at hfirst
  rw [hc'] at hfirst'
  exact hapart _ hent' (by decide) 5 hfirst.mem_self hfirst'.mem_self

/-- The first entry of the root directory begins at a cluster that is free. -/
def Dangling (s : Opened) : Prop :=
  (s.fs.vol.rootCluster = 2 ∧ entriesPerCluster s.fs.vol = 16) ∧ IsEntry (s.fs.data 2) 0 ∧
    s.fs.table (s.fs.cluster (2, 0)) = 0

instance (s : Opened) : Decidable (Dangling s) :=
  inferInstanceAs (Decidable ((s.fs.vol.rootCluster = 2 ∧ entriesPerCluster s.fs.vol = 16) ∧
    IsEntry (s.fs.data 2) 0 ∧ s.fs.table (s.fs.cluster (2, 0)) = 0))

theorem Dangling.not_separated (h : Dangling s) : ¬Separated s.fs := by
  obtain ⟨⟨hroot, hslots⟩, he, hfree⟩ := h
  rintro ⟨ds, F, hds, hF⟩
  rw [hroot] at hds
  have hent : Entries s.fs ds (2, 0) := ⟨hds.mem_self, by rw [hslots]; decide, he⟩
  obtain ⟨hfirst, -⟩ := hF _ hent
  exact hfirst.used _ hfirst.mem_self hfree

/-- A device and an allocator that fail at one request. -/
def failsAt (k : Nat) : Fs := ⟨zeroVolume, fun _ => 0, fun n => ⟨n != k, fun _ => 0⟩⟩

/-- **The chains are not apart** if the file that is open is deleted, though no request fails; nor if the
request that fails is the one for memory to mark the entry of a file that is deleted. -/
theorem files_meet : (∃ f m s, NoErrors blankFs ∧ fat32Format 100 none blankFs = (true, f) ∧
      fat32Mount 100 f = (true, m) ∧
      Run (guarded (fun s call => call.InRoot s.fs.vol) Calls) ⟨m, none⟩ deletesOpen s ∧
      ¬Separated s.fs) ∧
    ∃ f m s, fat32Format 100 none (failsAt 24) = (true, f) ∧ fat32Mount 100 f = (true, m) ∧
      Run (guarded FileCall.Careful Calls) ⟨m, none⟩ [.create 0 [65] 0x20, .delete 0 [65]] s ∧
      ¬Separated s.fs := by
  constructor
  · obtain ⟨s, hrun, hshared⟩ := @run_replay (freshVolume blankFs)
      (fun s call => FileCall.InRoot s.fs.vol call) _ Shared _ deletesOpen (by decide +kernel)
    exact ⟨(fat32Format 100 none blankFs).2, freshVolume blankFs, s, fun _ => rfl,
      Prod.ext (by decide +kernel) rfl, Prod.ext (by decide +kernel) rfl, hrun, hshared.not_separated⟩
  · obtain ⟨s, hrun, hdangling⟩ := @run_replay (freshVolume (failsAt 24)) FileCall.Careful _ Dangling _
      [.create 0 [65] 0x20, .delete 0 [65]] (by decide)
    exact ⟨(fat32Format 100 none (failsAt 24)).2, freshVolume (failsAt 24), s,
      Prod.ext (by decide) rfl, Prod.ext (by decide) rfl, hrun, hdangling.not_separated⟩

end WuBuOS.Fat32
