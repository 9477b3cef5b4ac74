import WuBuOS.Kernel.Vmm
import WuBuOS.Lib.Runs

/-!
# Who owns a page

What the counts of `Kernel.Vmm` are about is not in the code: how many references to a page there
are.  `Session` keeps that number beside the allocator: an allocation leaves one on each of its pages,
a `wubu_vmm_ref` takes one on each page it covers, a `wubu_vmm_free_pages` gives one back.

`Owned` is what the allocator promises: the free counter is right, and a page that the next
allocation returns has no references left and is not in a reserved range.  It holds after every run
all of whose calls are `Sound`, which excludes the three ways in which the counts and the references
come apart: a reference on a page that is free or whose count is full, which is not counted; the
release of a reserved page that nobody took a reference on, which hands the page out; and a call
whose index leaves 32 bits, which is about another page.  It is broken by the second
(`owned_fails`).
-/

namespace WuBuOS.Vmm

/-- A call of one of the three functions. -/
inductive Call where
  | allocPages (n : UInt32)
  | ref (phys : UInt64) (n : UInt32)
  | freePages (phys : UInt64) (n : UInt32)

/-- `n` pages from the address `phys` on cover page `i`. -/
def Covers (phys : UInt64) (n : UInt32) (i : Nat) : Prop :=
  ∃ k < n.toNat, phys.toNat + k * page = physBase + i * page

instance (phys : UInt64) (n : UInt32) (i : Nat) : Decidable (Covers phys n i) :=
  inferInstanceAs (Decidable (∃ k < n.toNat, phys.toNat + k * page = physBase + i * page))

/-- The allocator, and for each page the references taken on it since its last allocation and not
given back. -/
structure Session where
  vmm : Allocator
  held : Nat → Nat

/-- Before the first call nobody has a reference. -/
def Session.start (s : Allocator) : Session := ⟨s, fun _ => 0⟩

def Session.step (s : Session) : Call → Session
  | .allocPages n =>
    let (phys, vmm) := vmmAllocPages s.vmm n
    ⟨vmm, fun i => if phys ≠ 0 ∧ Covers phys n i then 1 else s.held i⟩
  | .ref phys n =>
    ⟨vmmRef s.vmm phys n, fun i => if Covers phys n i then s.held i + 1 else s.held i⟩
  | .freePages phys n =>
    ⟨vmmFreePages s.vmm phys n, fun i => if Covers phys n i then s.held i - 1 else s.held i⟩

@[simp]
theorem step_ref_vmm (s : Session) (phys : UInt64) (n : UInt32) :
    (s.step (.ref phys n)).vmm = vmmRef s.vmm phys n := rfl

@[simp]
theorem step_free_vmm (s : Session) (phys : UInt64) (n : UInt32) :
    (s.step (.freePages phys n)).vmm = vmmFreePages s.vmm phys n := rfl

/-- The free counter is right, and whatever page the next allocation returns, it is not referenced
any more and not reserved. -/
def Owned (b : Boot) (s : Session) : Prop :=
  s.vmm.freePages.toNat = Bitmap.zeros s.vmm.bitmap bitmapBits ∧
  ∀ n i, (vmmAllocPages s.vmm n).1 ≠ 0 → Covers (vmmAllocPages s.vmm n).1 n i →
    s.held i = 0 ∧ ¬Reserved b i ∧ ∀ r ∈ used b ++ tail b, ¬r.Inside i

/-- A reference is taken on pages in use whose count has room.  A release is about the pages it names,
and a reserved page among them has a reference of its own to give back. -/
def Sound (b : Boot) (s : Session) : Call → Prop
  | .allocPages _ => True
  | .ref phys n => ∀ i < bitmapBits, Covers phys n i →
      physBase ≤ phys.toNat ∧ bmTest s.vmm i = true ∧ s.vmm.refs i < 0xFFFF
  | .freePages phys n => Aligned phys → ∀ i ∈ indices phys n, i < bitmapBits →
      bmTest s.vmm i = true → Covers phys n i ∧ (Reserved b i → 2 ≤ s.vmm.refs i)

/-- The counter is right, a free page is not referenced, the count of a page is at least the number of
its references, and the reserved pages are in use. -/
structure Inv (b : Boot) (s : Session) : Prop where
  counted : s.vmm.Counted
  free : ∀ i < bitmapBits, bmTest s.vmm i = false → s.held i = 0
  refs : ∀ i < bitmapBits, s.held i ≤ s.vmm.refs i
  reserved : ∀ i < bitmapBits, Reserved b i → bmTest s.vmm i = true

variable {b : Boot} {s : Session} {phys : UInt64} {n : UInt32} {i : Nat}

/-- A call on an address the code accepts goes through the pages it covers. -/
theorem Covers.mem_indices (h : Covers phys n i) (hp : physBase ≤ phys.toNat) (hi : i < bitmapBits) :
    Aligned phys ∧ i ∈ indices phys n := by
  obtain ⟨k, hk, he⟩ := h
  have hb : bitmapBits = 28672 := rfl
  simp only [page, physBase] at *
  refine ⟨⟨hp, by simp only [page, physBase]; omega⟩, List.mem_map.2 ⟨k, List.mem_range.2 hk, ?_⟩⟩
  simp only [page, physBase]
  omega

/-- The pages of an allocation. -/
theorem covers_alloc {start : Nat} (h : phys.toNat = physBase + start * page) :
    Covers phys n i ↔ start ≤ i ∧ i < start + n.toNat := by
  constructor
  · rintro ⟨k, hk, he⟩
    simp only [page] at *
    omega
  · rintro ⟨hlo, hhi⟩
    refine ⟨i - start, by omega, ?_⟩
    simp only [page] at *
    omega

theorem inv_start (hb : b.Apart) : ∃ s, vmmInit b = some s ∧ Inv b (.start s) := by
  obtain ⟨s, he, hc, hr, ht⟩ := vmmInit_spec hb
  exact ⟨s, he, hc, fun _ _ _ => rfl, fun _ _ => Nat.zero_le _, fun i _ h => (ht i).2 h⟩

theorem inv_alloc (h : Inv b s) (n : UInt32) : Inv b (s.step (.allocPages n)) := by
  rcases vmmAllocPages_spec s.vmm n with he | ⟨start, hle, hcl, hp, -, hl⟩
  · have hs : s.step (.allocPages n) = s := by
      simp only [Session.step, he, ne_eq, not_true_eq_false, false_and, if_false]
    rw [hs]
    exact h
  · have hne : (vmmAllocPages s.vmm n).1 ≠ 0 := fun h0 => by
      rw [h0] at hp
      simp only [physBase, UInt64.toNat_zero] at hp
      omega
    have hheld : ∀ i, (s.step (.allocPages n)).held i =
        if start ≤ i ∧ i < start + n.toNat then 1 else s.held i := fun i => by
      simp only [Session.step, hne, covers_alloc hp, ne_eq, not_false_eq_true, true_and]
    have hin : ∀ i, start ≤ i ∧ i < start + n.toNat →
        bmTest (vmmAllocPages s.vmm n).2 i = true ∧ (vmmAllocPages s.vmm n).2.refs i = 1 := fun i hi =>
      look_pair.1 ((hl i).trans (if_pos hi))
    have hout : ∀ i, ¬(start ≤ i ∧ i < start + n.toNat) → bmTest (vmmAllocPages s.vmm n).2 i = bmTest s.vmm i ∧
          (vmmAllocPages s.vmm n).2.refs i = s.vmm.refs i := fun i hi =>
      look_eq.1 ((hl i).trans (if_neg hi))
    refine ⟨counted_alloc h.counted n, fun i hi hf => ?_, fun i hi => ?_, fun i hi hr => ?_⟩
    · by_cases hc : start ≤ i ∧ i < start + n.toNat
      · exact absurd ((hin i hc).1.symm.trans hf) Bool.noConfusion
      · rw [hheld, if_neg hc]
        exact h.free i hi ((hout i hc).1.symm.trans hf)
    · show _ ≤ (vmmAllocPages s.vmm n).2.refs i
      rw [hheld]
      by_cases hc : start ≤ i ∧ i < start + n.toNat
      · rw [if_pos hc, (hin i hc).2]
      · rw [if_neg hc, (hout i hc).2]
        exact h.refs i hi
    · by_cases hc : start ≤ i ∧ i < start + n.toNat
      · exact (hin i hc).1
      · exact (hout i hc).1.trans (h.reserved i hi hr)

theorem inv_ref (h : Inv b s) (hs : Sound b s (.ref phys n)) : Inv b (s.step (.ref phys n)) := by
  -- The bits stay, and a count goes up on every page that is covered.
  have htest : ∀ i, bmTest (vmmRef s.vmm phys n) i = bmTest s.vmm i := fun i => by
    by_cases ha : Aligned phys
    · have := vmmRef_at ha s.vmm n i
      rw [look_refPage] at this
      split at this
      · exact (look_pair.1 this).1
      · exact (look_eq.1 this).1
    · rw [vmmRef, if_neg ha]
  have hle : ∀ i, s.vmm.refs i ≤ (vmmRef s.vmm phys n).refs i := fun i => by
    by_cases ha : Aligned phys
    · have := vmmRef_at ha s.vmm n i
      rw [look_refPage] at this
      split at this
      · rw [(look_pair.1 this).2]
        split <;> omega
      · exact (look_eq.1 this).2.ge
    · rw [vmmRef, if_neg ha]
  have hup : ∀ i < bitmapBits, Covers phys n i → (vmmRef s.vmm phys n).refs i = s.vmm.refs i + 1 := fun i hi hc => by
    obtain ⟨hp, ht, hr⟩ := hs i hi hc
    obtain ⟨ha, hm⟩ := hc.mem_indices hp hi
    have := vmmRef_at ha s.vmm n i
    rw [if_pos hm, look_refPage, if_pos ⟨rfl, hi, ht, hr⟩] at this
    exact (look_pair.1 this).2
  refine ⟨counted_ref h.counted phys n, fun i hi hf => ?_, fun i hi => ?_, fun i hi hr => ?_⟩
  · have hf : bmTest s.vmm i = false := (htest i).symm.trans hf
    show (if Covers phys n i then s.held i + 1 else s.held i) = 0
    rw [if_neg fun hc => ?_, h.free i hi hf]
    exact absurd ((hs i hi hc).2.1.symm.trans hf) Bool.noConfusion
  · show (if Covers phys n i then s.held i + 1 else s.held i) ≤ (vmmRef s.vmm phys n).refs i
    have := h.refs i hi
    split
    case isTrue hc =>
      rw [hup i hi hc]
      omega
    case isFalse => exact this.trans (hle i)
  · exact (htest i).trans (h.reserved i hi hr)

theorem inv_free (h : Inv b s) (hs : Sound b s (.freePages phys n)) : Inv b (s.step (.freePages phys n)) := by
  by_cases ha : Aligned phys
  case neg =>
    have hv : (s.step (.freePages phys n)).vmm = s.vmm := if_neg ha
    have hheld : ∀ i, (s.step (.freePages phys n)).held i ≤ s.held i := fun i => by
      show (if Covers phys n i then s.held i - 1 else s.held i) ≤ s.held i
      split <;> omega
    refine ⟨hv ▸ h.counted, fun i hi hf => ?_, fun i hi => ?_, fun i hi hr => ?_⟩
    · rw [hv] at hf
      have := h.free i hi hf
      have := hheld i
      omega
    · rw [hv]
      exact (hheld i).trans (h.refs i hi)
    · rw [hv]
      exact h.reserved i hi hr
  case pos =>
    -- On each page of the bitmap: the page is released once, or neither its record nor its
    -- references change.
    have hat : ∀ i < bitmapBits, (bmTest s.vmm i = true ∧ (Reserved b i → 2 ≤ s.vmm.refs i) ∧
          (s.step (.freePages phys n)).held i = s.held i - 1 ∧
          bmTest (vmmFreePages s.vmm phys n) i = decide (1 < s.vmm.refs i) ∧
          (vmmFreePages s.vmm phys n).refs i = s.vmm.refs i - 1) ∨
        ((s.step (.freePages phys n)).held i ≤ s.held i ∧ bmTest (vmmFreePages s.vmm phys n) i = bmTest s.vmm i ∧
          (vmmFreePages s.vmm phys n).refs i = s.vmm.refs i) := fun i hi => by
      have hl := vmmFreePages_at ha s.vmm n i
      rw [look_freePage] at hl
      by_cases hm : i ∈ indices phys n ∧ bmTest s.vmm i = true
      · obtain ⟨hc, hr⟩ := hs ha i hm.1 hi hm.2
        rw [if_pos hm.1, if_pos ⟨rfl, hi, hm.2⟩] at hl
        exact .inl ⟨hm.2, hr, if_pos hc, look_pair.1 hl⟩
      · have hl : look (vmmFreePages s.vmm phys n) i = look s.vmm i := by
          rw [hl]
          split
          · rw [if_neg fun h' => hm ⟨‹_›, h'.2.2⟩]
          · rfl
        refine .inr ⟨?_, look_eq.1 hl⟩
        show (if Covers phys n i then s.held i - 1 else s.held i) ≤ s.held i
        split <;> omega
    refine ⟨counted_free h.counted phys n, fun i hi hf => ?_, fun i hi => ?_, fun i hi hr => ?_⟩
    · have hrefs := h.refs i hi
      have hf : bmTest (vmmFreePages s.vmm phys n) i = false := hf
      rcases hat i hi with ⟨-, -, hh, ht, -⟩ | ⟨hh, ht, -⟩
      · have := of_decide_eq_false (ht.symm.trans hf)
        omega
      · have := h.free i hi (ht.symm.trans hf)
        omega
    · have hrefs := h.refs i hi
      show _ ≤ (vmmFreePages s.vmm phys n).refs i
      rcases hat i hi with ⟨-, -, hh, -, hv⟩ | ⟨hh, -, hv⟩ <;> omega
    · show bmTest (vmmFreePages s.vmm phys n) i = true
      rcases hat i hi with ⟨-, h2, -, ht, -⟩ | ⟨-, ht, -⟩
      · rw [ht]
        exact decide_eq_true (h2 hr)
      · rw [ht]
        exact h.reserved i hi hr

/-- Every sound call keeps the invariant. -/
theorem inv_step (s : Session) (c : Call) (h : Inv b s) (hs : Sound b s c) : Inv b (s.step c) := by
  cases c with
  | allocPages n => exact inv_alloc h n
  | ref phys n => exact inv_ref h hs
  | freePages phys n => exact inv_free h hs

/-- What the invariant says about the next allocation. -/
theorem Inv.owned (hb : b.Apart) (h : Inv b s) : Owned b s := by
  refine ⟨h.counted, fun n i hne hc => ?_⟩
  rcases vmmAllocPages_spec s.vmm n with he | ⟨start, hle, hcl, hp, -, -⟩
  · exact absurd (congrArg Prod.fst he) hne
  · have hin := (covers_alloc hp).1 hc
    have hi : i < bitmapBits := by omega
    have hf := hcl i hin.1 hin.2
    have hr : ¬Reserved b i := fun hr =>
      absurd ((h.reserved i hi hr).symm.trans hf) Bool.noConfusion
    refine ⟨h.free i hi hf, hr, fun r hmem hin => hr ?_⟩
    rcases List.mem_append.1 hmem with hu | ht
    · have hmem : r.clip ∈ marked b := List.mem_append_left _ (List.mem_map_of_mem hu)
      exact ⟨_, hmem, (hin.clip hi).has (le_max_right ..)⟩
    · exact ⟨r, List.mem_append_right _ ht, hin.has (hb.1 r ht)⟩

/-- **Page ownership**: after an initialisation whose ranges are apart, every run of sound calls keeps
the free counter right, and no page is returned that is still referenced or reserved. -/
theorem owned_of_sound (b : Boot) (hb : b.Apart) : ∃ s, vmmInit b = some s ∧ ∀ calls,
    Runs.Each Session.step (Sound b) (.start s) calls → Owned b (calls.foldl Session.step (.start s)) := by
  obtain ⟨s, he, hi⟩ := inv_start hb
  exact ⟨s, he, fun calls hc =>
    (Runs.Each.invariant (Inv b) (fun s c h hs => inv_step s c h hs) _ calls hi hc).owned hb⟩

/-- A kernel below the allocator's range, and no memory map. -/
def lowBoot : Boot where
  kernelStart := 0xffffffff80100000
  stackTop := 0xffffffff801f0000
  memmapInit := 0
  mm := ⟨0, 0, false⟩

/-- The address of the first page, which is in the kernel heap. -/
def heapPage : UInt64 := 0x1000000

theorem apart_lowBoot : lowBoot.Apart := by
  have hp : (marked lowBoot).Pairwise fun r r' => r.stop ≤ r.base ∨ r'.stop ≤ r'.base := by
    decide
  have ht : ∀ r ∈ tail lowBoot, physBase ≤ r.base := by decide
  refine ⟨ht, hp.imp fun {r r'} h i hi hi' => ?_⟩
  simp only [Range.Has, Range.count, page] at hi hi'
  omega

/-- The first page is in the heap, and nobody has a reference to it. -/
theorem lowBoot_first : ∃ s, vmmInit lowBoot = some s ∧ bmTest s 0 = true ∧ s.refs 0 = 0 := by
  obtain ⟨s, he, -, hr, ht⟩ := vmmInit_spec apart_lowBoot
  exact ⟨s, he, (ht 0).2 (by decide), hr 0⟩

theorem covers_first {i : Nat} (h : Covers heapPage 1 i) : i = 0 := by
  obtain ⟨k, hk, he⟩ := h
  obtain rfl : k = 0 := Nat.lt_one_iff.1 hk
  have hp : heapPage.toNat = physBase := by decide
  rw [hp] at he
  simp only [page] at he
  omega

theorem mem_indices_first {i : Nat} : i ∈ indices heapPage 1 ↔ i = 0 := by
  rw [show indices heapPage 1 = [0] by decide, List.mem_singleton]

theorem owned_of_sound_twice : ∃ s, vmmInit lowBoot = some s ∧ Owned lowBoot
    ([Call.ref heapPage 1, .ref heapPage 1, .freePages heapPage 1, .allocPages 3].foldl Session.step
      (.start s)) := by
  obtain ⟨s, he, ht, hr⟩ := lowBoot_first
  obtain ⟨s', he', h⟩ := owned_of_sound lowBoot apart_lowBoot
  obtain rfl : s = s' := Option.some.inj (he.symm.trans he')
  have ha : Aligned heapPage := by decide
  have hone : ∀ t : Allocator, ∀ r, bmTest t 0 = true → t.refs 0 = r → r < 0xFFFF →
      bmTest (vmmRef t heapPage 1) 0 = true ∧ (vmmRef t heapPage 1).refs 0 = r + 1 :=
    fun t r ht hr hlt => by
      have hl := vmmRef_at ha t 1 0
      rw [if_pos (mem_indices_first.2 rfl), look_refPage, if_pos ⟨rfl, by decide, ht, hr.trans_lt hlt⟩, ht, hr] at hl
      exact look_pair.1 hl
  have h1 := hone s 0 ht hr (by decide)
  have h2 := hone _ 1 h1.1 h1.2 (by decide)
  refine ⟨s, he, h _ ⟨fun i _ hc => ?_, fun i _ hc => ?_, fun _ i hm _ _ => ?_, trivial, trivial⟩⟩
  · obtain rfl := covers_first hc
    have : s.refs 0 < 0xFFFF := by omega
    exact ⟨ha.1, ht, this⟩
  · obtain rfl := covers_first hc
    have : (vmmRef s heapPage 1).refs 0 < 0xFFFF := by omega
    rw [step_ref_vmm]
    exact ⟨ha.1, h1.1, this⟩
  · obtain rfl := mem_indices_first.1 hm
    rw [step_ref_vmm, step_ref_vmm]
    exact ⟨by decide, fun _ => h2.2.ge⟩

/-- A free first page is what an allocation of one page returns. -/
theorem alloc_first {s : Allocator} (h : bmTest s 0 = false) : (vmmAllocPages s 1).1 = heapPage := by
  have hb : bitmapBits = 28671 + 1 := rfl
  have hf : Bitmap.firstFit s.bitmap 1 bitmapBits 0 0 0 = some 0 := by
    rw [hb, Bitmap.firstFit, if_pos (show Bitmap.test s.bitmap 0 = false from h)]
    rfl
  have h1 : ((1 : UInt32)).toNat = 1 := rfl
  rw [vmmAllocPages, if_neg (by decide), h1, hf]
  rfl

/-- **It fails without the condition**: the release of a page of the kernel heap puts the page into
the hands of the next allocation. -/
theorem owned_fails : ¬∀ b : Boot, ∃ s, vmmInit b = some s ∧ ∀ calls : List Call,
    Owned b (calls.foldl Session.step (.start s)) := by
  intro h
  obtain ⟨s, he, ht, hr⟩ := lowBoot_first
  obtain ⟨s', he', h⟩ := h lowBoot
  obtain rfl : s = s' := Option.some.inj (he.symm.trans he')
  have ha : Aligned heapPage := by decide
  have hl := vmmFreePages_at ha s 1 0
  rw [if_pos (mem_indices_first.2 rfl), look_freePage, if_pos ⟨rfl, by decide, ht⟩, hr, decide_eq_false (by decide)] at hl
  have hf := alloc_first (look_pair.1 hl).1
  have ho := (h [.freePages heapPage 1]).2 1 0
  have hv : ([Call.freePages heapPage 1].foldl Session.step (.start s)).vmm =
      vmmFreePages s heapPage 1 := step_free_vmm ..
  rw [hv, hf] at ho
  exact (ho (by decide) (by decide)).2.1 (by decide)

end WuBuOS.Vmm
