import WuBuOS.Kernel.Fat32.Apart
import WuBuOS.Kernel.Fat32.Mount
import WuBuOS.Kernel.Fat32.Slots

/-!
# Files do not share clusters

A volume, and at most one handle open on it, are put through any sequence of calls on files of the root
directory.  The chains of the root directory and of the entries in it stay apart, as long as no request
fails and the file that the handle is open on is not deleted.

The invariant is `Kept`.  The clusters that chains begin at are divided into those that are nobody's but
the directory's, `K`, and those of the handle, `T`; every entry has one of `K`, or the first cluster of
the handle, and no two entries have the same.
-/

namespace WuBuOS.Fat32

open Bytes Runs

/-! ## Calls -/

/-- A volume, and the handle that is open on it. -/
structure Opened where
  fs : Fs
  file : Option File

/-- A call on a file. -/
inductive FileCall
  | create (dir : Nat) (name : List UInt8) (attr : Nat)
  | open_ (dir : Nat) (name : List UInt8) (mode : Mode)
  | write (src : List UInt8)
  | seek (offset : Int) (whence : Nat)
  | close
  | delete (dir : Nat) (name : List UInt8)

/-- What a call comes to; `none` if it does not end, if it is to open a second handle, or if it needs a
handle and there is none. -/
def FileCall.run (s : Opened) : FileCall → Option Opened
  | .create dir name attr => (fat32Create dir name attr s.fs).map fun r => ⟨r.2, s.file⟩
  | .open_ dir name mode =>
    match s.file with
    | none => (fat32Open dir name mode s.fs).map fun r => ⟨r.2, r.1⟩
    | some _ => none
  | .write src => s.file.bind fun fp => (fat32Write fp src s.fs).map fun r => ⟨r.2, some r.1.2⟩
  | .seek offset whence => s.file.map fun fp =>
    ⟨(fat32Seek fp offset whence s.fs).2, some ((fat32Seek fp offset whence s.fs).1.getD fp)⟩
  | .close => s.file.map fun fp => ⟨fat32Close fp s.fs, none⟩
  | .delete dir name => (fat32Delete dir name s.fs).map fun r => ⟨r.2, s.file⟩

/-- The directory is the root directory. -/
def AtRoot (vol : Volume) (dir : Nat) : Prop := dir = 0 ∨ dir = vol.rootCluster

/-- The call is on a file of the root directory. -/
def FileCall.InRoot (vol : Volume) : FileCall → Prop
  | .create dir _ _ => AtRoot vol dir
  | .open_ dir _ _ => AtRoot vol dir
  | .write _ => True
  | .seek _ _ => True
  | .close => True
  | .delete dir _ => AtRoot vol dir

/-- **The call does not delete the file that is open.** -/
def FileCall.Spares (s : Opened) : FileCall → Prop
  | .delete dir name => ∀ fp info fs', s.file = some fp →
      fat32Find dir name s.fs = some (some info, fs') → info.firstCluster ≠ fp.firstCluster
  | _ => True

/-! ## What holds after every call -/

/-- The entries of a directory: their clusters and slots. -/
def Entries (fs : Fs) (ds : List Nat) (e : Nat × Nat) : Prop :=
  e.1 ∈ ds ∧ e.2 < entriesPerCluster fs.vol ∧ IsEntry (fs.data e.1) e.2

/-- The first cluster of an entry. -/
def Fs.cluster (fs : Fs) (e : Nat × Nat) : Nat := slotCluster (fs.data e.1) e.2

/-- A chain without a cycle, up to an end-of-chain mark. -/
structure Ended (fs : Fs) (c : Nat) (cs : List Nat) : Prop extends Chain fs.vol fs.table c cs where
  ne_nil : cs ≠ []
  nodup : cs.Nodup
  mark : clusterEoc ≤ fs.table (cs.getLast ne_nil)

/-- **The chains of the root directory and of its entries are apart.** -/
def Separated (fs : Fs) : Prop :=
  ∃ (ds : List Nat) (F : Nat × Nat → List Nat), Ended fs fs.vol.rootCluster ds ∧
    ∀ e, Entries fs ds e → Ended fs (fs.cluster e) (F e) ∧ (∀ x ∈ F e, x ∉ ds) ∧
      ∀ e', Entries fs ds e' → e' ≠ e → ∀ x ∈ F e, x ∉ F e'

/-- **The invariant.** -/
structure Kept (s : Opened) (K T : Set Nat) (F : Nat → List Nat) : Prop where
  sound : Sound s.fs
  mounted : s.fs.vol.mounted = true
  apart : Apart s.fs.vol s.fs.table (K ∪ T) F
  disjoint : ∀ c ∈ K, c ∉ T
  root : s.fs.vol.rootCluster ∈ K
  entry : ∀ e, Entries s.fs (F s.fs.vol.rootCluster) e → s.fs.cluster e ≠ s.fs.vol.rootCluster ∧
    (s.fs.cluster e ∈ K ∨ ∃ fp, s.file = some fp ∧ fp.firstCluster = s.fs.cluster e)
  inj : ∀ e e', Entries s.fs (F s.fs.vol.rootCluster) e → Entries s.fs (F s.fs.vol.rootCluster) e' →
    s.fs.cluster e = s.fs.cluster e' → e = e'
  file : ∀ fp, s.file = some fp → fp.firstCluster ∈ T ∧
    (fp.currentCluster = 0 ∨ ∃ c ∈ T, fp.currentCluster ∈ F c)

variable {fs fs' : Fs} {s : Opened} {h : Option File} {fp fp' : File} {K K' T T' : Set Nat}
  {F F' : Nat → List Nat} {c : Nat} {cs ds : List Nat} {dir : Nat}

/-- A chain ends with an end-of-chain mark. -/
theorem Chain.ended (hch : Chain fs.vol fs.table c cs) (hne : cs ≠ []) : Ended fs c cs := by
  refine ⟨hch, hne, hch.list.nodup, ?_⟩
  have hlen := List.length_pos_of_ne_nil hne
  have hi : cs.length - 1 < cs.length := by omega
  have hnext := hch.list.next_getD hi
  rw [List.getD_eq_getElem _ _ hi, List.getD_eq_default _ _ (by omega), nextOf, ← List.getLast_eq_getElem hne] at hnext
  by_contra hmark
  rw [if_neg hmark] at hnext
  exact hch.used _ (List.getLast_mem hne) hnext

theorem Kept.mem (h : Kept s K T F) {e : Nat × Nat} (he : Entries s.fs (F s.fs.vol.rootCluster) e) :
    s.fs.cluster e ∈ K ∪ T := by
  rcases (h.entry e he).2 with hK | ⟨fp, hfp, hc⟩
  · exact Or.inl hK
  · exact Or.inr (hc ▸ (h.file fp hfp).1)

/-- **What the invariant is for.** -/
theorem Kept.separated (h : Kept s K T F) : Separated s.fs := by
  have hroot : s.fs.vol.rootCluster ∈ K ∪ T := Or.inl h.root
  refine ⟨F s.fs.vol.rootCluster, fun e => F (s.fs.cluster e),
    (h.apart.chain _ hroot).ended (h.apart.ne_nil _ hroot), fun e he => ?_⟩
  have hmem := h.mem he
  refine ⟨(h.apart.chain _ hmem).ended (h.apart.ne_nil _ hmem),
    h.apart.apart _ hmem _ hroot (h.entry e he).1, fun e' he' hne => ?_⟩
  exact h.apart.apart _ hmem _ (h.mem he') fun heq => hne (h.inj e e' he he' heq).symm

theorem AtRoot.dirOrRoot {vol : Volume} (h : AtRoot vol dir) : dirOrRoot vol dir = vol.rootCluster := by
  rw [Fat32.dirOrRoot]
  rcases h with rfl | rfl
  · exact if_pos rfl
  · exact ite_self _

/-- The chain of the directory, as the functions on directories see it. -/
theorem Kept.rootDir (h : Kept s K T F) (hd : AtRoot s.fs.vol dir) :
    Chain s.fs.vol s.fs.table (dirOrRoot s.fs.vol dir) (F s.fs.vol.rootCluster) ∧ F s.fs.vol.rootCluster ≠ [] := by
  rw [hd.dirOrRoot]
  exact ⟨h.apart.chain _ (Or.inl h.root), h.apart.ne_nil _ (Or.inl h.root)⟩

/-! ## Steps that leave the directory alone -/

/-- The entries of a directory are the same. -/
def SameEntries (fs fs' : Fs) (ds : List Nat) : Prop :=
  ∀ e : Nat × Nat, e.1 ∈ ds → e.2 < entriesPerCluster fs.vol →
    SameEntry (fs.data e.1) (fs'.data e.1) e.2

theorem SameEntries.of_data (hd : ∀ x ∈ ds, fs'.data x = fs.data x) : SameEntries fs fs' ds :=
  fun e he _ _ _ => by rw [hd e.1 he]

theorem SameEntries.entries {e : Nat × Nat} (h : SameEntries fs fs' ds) (hshape : SameShape fs.vol fs'.vol)
    (he : Entries fs' ds e) : Entries fs ds e ∧ fs'.cluster e = fs.cluster e := by
  obtain ⟨hmem, hlt, hentry⟩ := he
  rw [hshape.entriesPerCluster] at hlt
  have hsame := h e hmem hlt
  exact ⟨⟨hmem, hlt, hsame.isEntry.1 hentry⟩, hsame.slotCluster⟩

/-- **The directory has no new entries**, and the chains are divided anew. -/
theorem Kept.next (h : Kept s K T F) (hs : Sound fs') (hshape : SameShape s.fs.vol fs'.vol)
    (hap : Apart fs'.vol fs'.table (K' ∪ T') F') (hdis : ∀ c ∈ K', c ∉ T')
    (hroot : s.fs.vol.rootCluster ∈ K')
    (hF : F' s.fs.vol.rootCluster = F s.fs.vol.rootCluster)
    (hold : ∀ e, Entries fs' (F s.fs.vol.rootCluster) e →
      Entries s.fs (F s.fs.vol.rootCluster) e ∧ fs'.cluster e = s.fs.cluster e) {file : Option File}
    (hentry : ∀ e, Entries fs' (F s.fs.vol.rootCluster) e →
      s.fs.cluster e ∈ K' ∨ ∃ fp, file = some fp ∧ fp.firstCluster = s.fs.cluster e)
    (hfile : ∀ fp, file = some fp → fp.firstCluster ∈ T' ∧
      (fp.currentCluster = 0 ∨ ∃ c ∈ T', fp.currentCluster ∈ F' c)) :
    Kept ⟨fs', file⟩ K' T' F' where
  sound := hs
  mounted := hshape.mounted.trans h.mounted
  apart := hap
  disjoint := hdis
  root := by
    rwa [hshape.rootCluster]
  entry := fun e he => by
    rw [hshape.rootCluster, hF] at he
    obtain ⟨he', hc⟩ := hold e he
    rw [hc, hshape.rootCluster]
    exact ⟨(h.entry e he').1, hentry e he⟩
  inj := fun e e' he he' heq => by
    rw [hshape.rootCluster, hF] at he he'
    obtain ⟨h1, hc⟩ := hold e he
    obtain ⟨h2, hc'⟩ := hold e' he'
    rw [hc, hc'] at heq
    exact h.inj e e' h1 h2 heq
  file := hfile

/-- Nothing has changed. -/
theorem Kept.of_goes (h : Kept s K T F) (hg : Goes s.fs fs' s.fs.table s.fs.data) : Kept ⟨fs', s.file⟩ K T F :=
  have hsame : SameEntries s.fs fs' (F s.fs.vol.rootCluster) := .of_data fun _ _ => by rw [hg.data]
  h.next hg.sound hg.shape (h.apart.congr hg.shape fun _ _ _ _ => by rw [hg.table]) h.disjoint h.root rfl
    (fun _ => hsame.entries hg.shape) (fun e he => (h.entry e (hsame.entries hg.shape he).1).2) h.file

theorem Kept.held (h : Kept ⟨fs, some fp⟩ K T F) : Held fs K T F fp where
  sound := h.sound
  apart := h.apart
  disjoint := h.disjoint
  first := (h.file fp rfl).1
  current := (h.file fp rfl).2

/-- The handle has been used. -/
theorem Kept.of_held (h : Kept ⟨fs, some fp⟩ K T F) (hheld : Held fs' K T' F' fp')
    (hsp : Spared fs fs' K F F') (hfirst : fp'.firstCluster = fp.firstCluster) :
    Kept ⟨fs', some fp'⟩ K T' F' := by
  have hsame : SameEntries fs fs' (F fs.vol.rootCluster) := .of_data (hsp.data _ h.root)
  refine h.next hheld.sound hsp.shape hheld.apart hheld.disjoint h.root (hsp.chain _ h.root)
    (fun _ => hsame.entries hsp.shape)
    (fun e he => (h.entry e (hsame.entries hsp.shape he).1).2.imp_right ?_) ?_
  · rintro ⟨fp0, hfp, hc⟩
    cases hfp
    exact ⟨fp', rfl, hfirst.trans hc⟩
  · rintro _ ⟨⟩
    exact ⟨hheld.first, hheld.current⟩

/-- The handle has been closed: its file is the directory's again. -/
theorem Kept.close (h : Kept ⟨fs, some fp⟩ K T F) : Kept ⟨fat32Close fp fs, none⟩ (insert fp.firstCluster K) ∅ F := by
  have hgoes : ∃ d, Goes fs (fat32Close fp fs) fs.table d ∧
      SameEntries fs (fat32Close fp fs) (F fs.vol.rootCluster) := by
    by_cases hfp : fp.writeMode ∧ 2 ≤ fp.firstCluster ∧ 2 ≤ fp.dirCluster
    · obtain ⟨now, hg⟩ := fat32Close_ok h.sound hfp.1 hfp.2.1 hfp.2.2
      refine ⟨_, hg, fun e _ hlt => ?_⟩
      rw [hg.data]
      rcases eq_or_ne e.1 fp.dirCluster with he | hne
      · rw [he, Function.update_self]
        intro o ho
        rw [clip_slot fs.vol _ hlt o (by rw [dirEntrySize]; omega)]
        exact closeSlot_entry fp now o ho
      · rw [Function.update_of_ne hne]
        exact fun _ _ => rfl
    · rw [fat32Close, if_neg hfp]
      exact ⟨_, .refl h.sound, fun _ _ _ _ _ => rfl⟩
  obtain ⟨d, hg, hsame⟩ := hgoes
  have hsub : insert fp.firstCluster K ∪ ∅ ⊆ K ∪ T := by
    rintro c ((rfl | hc) | hc)
    · exact Or.inr (h.file fp rfl).1
    · exact Or.inl hc
    · exact hc.elim
  refine h.next hg.sound hg.shape ((h.apart.mono hsub).congr hg.shape fun _ _ _ _ => by rw [hg.table])
    (fun _ _ => Set.notMem_empty _) (Set.mem_insert_of_mem _ h.root) rfl
    (fun _ => hsame.entries hg.shape) (fun e he => Or.inl ?_) fun _ h0 => absurd h0.symm (Option.some_ne_none _)
  rcases (h.entry e (hsame.entries hg.shape he).1).2 with hK | ⟨fp0, hfp, hc⟩
  · exact Set.mem_insert_of_mem _ hK
  · cases hfp
    rw [← hc]
    exact Set.mem_insert ..

/-- **A file has been opened**: its chain is the handle's. -/
theorem Kept.opened (h : Kept ⟨fs, none⟩ K T F) (hc : fp.firstCluster ∈ K)
    (hroot : fp.firstCluster ≠ fs.vol.rootCluster)
    (hcur : fp.currentCluster ∈ F fp.firstCluster) :
    Kept ⟨fs, some fp⟩ (K \ {fp.firstCluster}) {fp.firstCluster} F := by
  have hmem : fs.vol.rootCluster ∈ K \ {fp.firstCluster} := ⟨h.root, hroot.symm⟩
  refine h.next h.sound (.refl _) (h.apart.mono ?_) (fun c hc' => hc'.2) hmem rfl
    (fun _ he => ⟨he, rfl⟩) (fun e he => ?_) ?_
  · rintro c (hcK | hcT)
    · exact Or.inl hcK.1
    · exact Or.inl ((Set.mem_singleton_iff.1 hcT).symm ▸ hc)
  · rcases (h.entry e he).2 with hK | ⟨fp0, hfp, -⟩
    · rcases eq_or_ne (fs.cluster e) fp.firstCluster with heq | hne
      · exact Or.inr ⟨fp, rfl, heq.symm⟩
      · exact Or.inl ⟨hK, hne⟩
    · cases hfp
  · rintro _ ⟨⟩
    exact ⟨Set.mem_singleton _, Or.inr ⟨_, Set.mem_singleton _, hcur⟩⟩

end WuBuOS.Fat32
