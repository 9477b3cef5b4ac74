import Mathlib.Data.Set.Card
import WuBuOS.Kernel.Vmm

/-!
# Copy-on-write

`wubu_vmm_cow_fault`.  A write to a page that is mapped read-only is resolved by making the entry
writable, if the frame's count says that nobody else has it, and otherwise by giving the page a copy
of the frame.

Physical memory is a function from addresses to 64-bit words.  The page tables lie in it: `Table k`
are the tables that the walk reaches after `k` entries, and the words of a `Table 3` are the
last-level entries (`Leaf`).  `Mapped` relates them to the allocator: every present one maps a frame
of the allocator that is in use and is no page table, and the frames' counts are at least the numbers
of entries that map them.

The promise, `Isolated`, needs one thing more: that no page table lies in a page that the allocator
considers free (`Kept`), for the copy goes into such a page (`cow_overwrites_table`).
-/

namespace WuBuOS.Vmm

open Function (update update_of_ne update_self)

def pml4Base : Nat := 0x300000

/-- Physical memory by words, and the allocator. -/
structure Machine where
  mem : Nat → BitVec 64
  vmm : Allocator

def vmmPhysOf (va : BitVec 64) : BitVec 64 :=
  if 0xffffffff80000000#64 ≤ va then va - 0xffffffff80000000#64 else va

/-- `(uint32_t)(va >> shift) & 0x1FF`. -/
def index (va : BitVec 64) (shift : Nat) : Nat := ((va >>> shift).setWidth 32 &&& 0x1FF#32).toNat

/-- Bit 0 of an entry. -/
def Present (e : BitVec 64) : Prop := e &&& 1#64 ≠ 0#64

/-- Bit 1 of an entry. -/
def Writable (e : BitVec 64) : Prop := e &&& 2#64 ≠ 0#64

instance (e : BitVec 64) : Decidable (Present e) := inferInstanceAs (Decidable (_ ≠ _))

instance (e : BitVec 64) : Decidable (Writable e) := inferInstanceAs (Decidable (_ ≠ _))

/-- `e & ~0xFFF`. -/
def frame (e : BitVec 64) : BitVec 64 := e &&& ~~~0xFFF#64

/-- The table that an entry points to. -/
def tableOf (e : BitVec 64) : Nat := (vmmPhysOf (frame e)).toNat

/-- Word `i` of a table. -/
def word (table i : Nat) : Nat := table + 8 * i

/-- The walk of `wubu_vmm_cow_fault`: the address of the last-level entry for `va`. -/
def walk (mem : Nat → BitVec 64) (va : BitVec 64) : Option Nat :=
  let e4 := mem (word pml4Base (index va 39))
  let e3 := mem (word (tableOf e4) (index va 30))
  if ¬Present e4 ∨ ¬Present e3 then none
  else
    let e2 := mem (word (tableOf e3) (index va 21))
    if ¬Present e2 then none else some (word (tableOf e2) (index va 12))

/-- `for (i = 0; i < n; i++) dst[i] = src[i]`. -/
def copyWords (src dst n : Nat) (mem : Nat → BitVec 64) : Nat → BitVec 64 :=
  (List.range n).foldl (fun mem i => update mem (word dst i) (mem (word src i))) mem

/-- `wubu_vmm_cow_fault`: whether it was a fault of this kind. -/
def vmmCowFault (m : Machine) (va : BitVec 64) : Bool × Machine :=
  let pageBase := va &&& ~~~(4096#64 - 1#64)
  match walk m.mem pageBase with
  | none => (false, m)
  | some pt =>
    let pte := m.mem pt
    if ¬Present pte then (false, m)
    else if Writable pte then (false, m)
    else
      let phys := frame pte
      if vmmRefcount m.vmm (.ofBitVec phys) ≤ 1 then
        (true, { m with mem := update m.mem pt (pte ||| 2#64) })
      else
        let (copy, vmm) := vmmAllocPages m.vmm 1
        if copy = 0 then (false, { m with vmm := vmm })
        else
          let mem := copyWords phys.toNat copy.toNat 512 m.mem
          let vmm := vmmFreePages vmm (.ofBitVec phys) 1
          (true, ⟨update mem pt (frame copy.toBitVec ||| 3#64), vmm⟩)

/-! ## The tree -/

/-- The tables that the walk reaches after `k` entries. -/
def Table (mem : Nat → BitVec 64) : Nat → Nat → Prop
  | 0, t => t = pml4Base
  | k + 1, t => ∃ p, Table mem k p ∧ ∃ i < 512, Present (mem (word p i)) ∧ t = tableOf (mem (word p i))

/-- The address is that of a last-level entry. -/
def Leaf (mem : Nat → BitVec 64) (a : Nat) : Prop := ∃ t, Table mem 3 t ∧ ∃ i < 512, a = word t i

/-- The physical address of a page of the allocator. -/
def pageAddr (i : Nat) : Nat := physBase + i * page

/-- The last-level entries that map page `i` of the allocator. -/
def mappers (mem : Nat → BitVec 64) (i : Nat) : Set Nat :=
  {a | Leaf mem a ∧ Present (mem a) ∧ (frame (mem a)).toNat = pageAddr i}

/-- Every present last-level entry maps a frame of the allocator that is in use and is no page table,
and no frame is mapped more often than its count says. -/
structure Mapped (m : Machine) : Prop where
  used : ∀ a, Leaf m.mem a → Present (m.mem a) →
    ∃ i < bitmapBits, (frame (m.mem a)).toNat = pageAddr i ∧ bmTest m.vmm i = true
  noTable : ∀ a, Leaf m.mem a → Present (m.mem a) →
    ∀ k ≤ 3, ¬Table m.mem k (frame (m.mem a)).toNat
  counted : ∀ i < bitmapBits, (mappers m.mem i).encard ≤ m.vmm.refs i

/-- A page table in the allocator's range is in use. -/
def Kept (m : Machine) : Prop :=
  ∀ i < bitmapBits, ∀ k ≤ 3, Table m.mem k (pageAddr i) → bmTest m.vmm i = true

/-- What a successful call promises of the page of `va`, of every other entry, and of the relation
between counts and entries. -/
structure Isolated (m m' : Machine) (va : BitVec 64) : Prop where
  /-- The page is mapped writable, by the same entry, and has the same contents. -/
  mine : ∃ a, walk m.mem va = some a ∧ walk m'.mem va = some a ∧
    Present (m'.mem a) ∧ Writable (m'.mem a) ∧
    (∀ k < 512, m'.mem (word (frame (m'.mem a)).toNat k) = m.mem (word (frame (m.mem a)).toNat k)) ∧
    (∀ b, Leaf m'.mem b → Present (m'.mem b) → frame (m'.mem b) = frame (m'.mem a) → b = a) ∧
    -- Every other entry is the same, and so is what is seen through it.
    ∀ b, b ≠ a → Leaf m.mem b → m'.mem b = m.mem b ∧
      (Present (m.mem b) → ∀ k < 512,
        m'.mem (word (frame (m.mem b)).toNat k) = m.mem (word (frame (m.mem b)).toNat k))
  leaves : ∀ b, Leaf m'.mem b ↔ Leaf m.mem b
  mapped : Mapped m'

variable {mem mem' : Nat → BitVec 64} {m : Machine} {va e : BitVec 64} {a b t t' i j k : Nat}

/-! ## Entries -/

theorem frame_eq (e : BitVec 64) : frame e = (e >>> 12) <<< 12 := by
  refine BitVec.eq_of_getLsbD_eq fun i hi => ?_
  have h12 : (0xFFF#64).getLsbD i = decide (i < 12) := by
    rw [BitVec.getLsbD_ofNat, show 0xFFF = 2 ^ 12 - 1 from rfl, Nat.testBit_two_pow_sub_one]
    simp [hi]
  rw [frame, BitVec.getLsbD_and, BitVec.getLsbD_not, h12, BitVec.getLsbD_shiftLeft, BitVec.getLsbD_ushiftRight]
  by_cases h : i < 12
  · simp [h]
  · simp [h, hi, show 12 + (i - 12) = i by omega]

theorem toNat_frame (e : BitVec 64) : (frame e).toNat = e.toNat / 4096 * 4096 := by
  rw [frame_eq, BitVec.toNat_shiftLeft, BitVec.toNat_ushiftRight, Nat.shiftRight_eq_div_pow, Nat.shiftLeft_eq]
  omega

theorem frame_aligned (e : BitVec 64) : (frame e).toNat % 4096 = 0 := by
  rw [toNat_frame]
  omega

theorem frame_of_aligned (h : e.toNat % 4096 = 0) : frame e = e :=
  BitVec.eq_of_toNat_eq (by rw [toNat_frame]; omega)

theorem present_iff : Present e ↔ e.getLsbD 0 = true := by
  rw [Present, show 1#64 = BitVec.twoPow 64 0 from rfl, BitVec.and_twoPow]
  split <;> simp_all [BitVec.twoPow]

theorem writable_iff : Writable e ↔ e.getLsbD 1 = true := by
  rw [Writable, show 2#64 = BitVec.twoPow 64 1 from rfl, BitVec.and_twoPow]
  split <;> simp_all [BitVec.twoPow]

theorem frame_or (e : BitVec 64) (n : Nat) (hn : n < 4096) : frame (e ||| BitVec.ofNat 64 n) = frame e := by
  have h0 : (BitVec.ofNat 64 n) >>> 12 = 0#64 := by
    refine BitVec.eq_of_toNat_eq ?_
    rw [BitVec.toNat_ushiftRight, Nat.shiftRight_eq_div_pow, BitVec.toNat_ofNat]
    simp only [BitVec.toNat_ofNat]
    omega
  rw [frame_eq, frame_eq, BitVec.ushiftRight_or_distrib, h0, BitVec.or_zero]

theorem tableOf_aligned (e : BitVec 64) : tableOf e % 4096 = 0 := by
  have h := frame_aligned e
  rw [tableOf, vmmPhysOf]
  split
  case isTrue hle =>
    rw [BitVec.toNat_sub_of_le hle]
    have : (0xffffffff80000000#64).toNat = 0xffffffff80000000 := rfl
    omega
  case isFalse => exact h

/-- A frame in the allocator's range is at its physical address. -/
theorem tableOf_eq (hi : i < bitmapBits) (h : (frame e).toNat = pageAddr i) : tableOf e = pageAddr i := by
  have hb : bitmapBits = 28672 := rfl
  rw [tableOf, vmmPhysOf, if_neg, h]
  rw [BitVec.le_def, h]
  have : (0xffffffff80000000#64).toNat = 0xffffffff80000000 := rfl
  simp only [pageAddr, physBase, page]
  omega

theorem index_lt (va : BitVec 64) (shift : Nat) : index va shift < 512 := by
  rw [index, BitVec.toNat_and]
  exact Nat.lt_of_le_of_lt Nat.and_le_right (by decide)

/-- The offset in the page has no part in the walk. -/
theorem index_pageBase (va : BitVec 64) (shift : Nat) (hs : 12 ≤ shift) :
    index (va &&& ~~~(4096#64 - 1#64)) shift = index va shift := by
  have h : (va &&& ~~~(4096#64 - 1#64)) >>> shift = va >>> shift := by
    have hv : va &&& ~~~(4096#64 - 1#64) = (va >>> 12) <<< 12 := frame_eq va
    refine BitVec.eq_of_getLsbD_eq fun i hi => ?_
    rw [hv, BitVec.getLsbD_ushiftRight, BitVec.getLsbD_ushiftRight, BitVec.getLsbD_shiftLeft,
      BitVec.getLsbD_ushiftRight]
    by_cases hlt : shift + i < 64
    · simp [hlt, show ¬shift + i < 12 by omega, show 12 + (shift + i - 12) = shift + i by omega]
    · simp [hlt, BitVec.getLsbD_of_ge va (shift + i) (by omega)]
  rw [index, index, h]

theorem walk_pageBase (mem : Nat → BitVec 64) (va : BitVec 64) :
    walk mem (va &&& ~~~(4096#64 - 1#64)) = walk mem va := by
  simp only [walk, index_pageBase va 39 (by omega), index_pageBase va 30 (by omega),
    index_pageBase va 21 (by omega), index_pageBase va 12 (by omega)]

/-! ## The tree -/

theorem word_inj (ht : t % 4096 = 0) (ht' : t' % 4096 = 0) (hi : i < 512) (hj : j < 512)
    (h : word t i = word t' j) : t = t' ∧ i = j := by
  simp only [word] at h
  omega

theorem Table.aligned : ∀ {k t : Nat}, Table mem k t → t % 4096 = 0
  | 0, _, h => by rw [h]; rfl
  | _ + 1, _, ⟨_, _, _, _, _, h⟩ => by rw [h]; exact tableOf_aligned _

theorem pageAddr_aligned (i : Nat) : pageAddr i % 4096 = 0 := by
  simp only [pageAddr, physBase, page]
  omega

theorem pageAddr_inj (h : pageAddr i = pageAddr j) : i = j := by
  simp only [pageAddr, page] at h
  omega

/-- The tables, and the words of the walk, are the same in two memories that agree on the entries
above the last level. -/
theorem table_congr (h : ∀ k ≤ 2, ∀ t, Table mem k t → ∀ i < 512, mem' (word t i) = mem (word t i)) :
    ∀ k ≤ 3, ∀ t, Table mem' k t ↔ Table mem k t
  | 0, _, _ => Iff.rfl
  | k + 1, hk, t => by
    have ih := table_congr h k (by omega)
    constructor
    · rintro ⟨p, hp, i, hi, hpr, he⟩
      have hp := (ih p).1 hp
      rw [h k (by omega) p hp i hi] at hpr he
      exact ⟨p, hp, i, hi, hpr, he⟩
    · rintro ⟨p, hp, i, hi, hpr, he⟩
      rw [← h k (by omega) p hp i hi] at hpr he
      exact ⟨p, (ih p).2 hp, i, hi, hpr, he⟩

theorem leaf_congr (h : ∀ t, Table mem' 3 t ↔ Table mem 3 t) (a : Nat) : Leaf mem' a ↔ Leaf mem a := by
  simp only [Leaf, h]

theorem walk_congr (h : ∀ k ≤ 2, ∀ t, Table mem k t → ∀ i < 512, mem' (word t i) = mem (word t i))
    (va : BitVec 64) : walk mem' va = walk mem va := by
  have h4 := h 0 (by omega) pml4Base rfl _ (index_lt va 39)
  simp only [walk, h4]
  by_cases p4 : Present (mem (word pml4Base (index va 39)))
  case neg => simp [p4]
  have t1 : Table mem 1 _ := ⟨pml4Base, rfl, _, index_lt va 39, p4, rfl⟩
  rw [h 1 (by omega) _ t1 _ (index_lt va 30)]
  by_cases p3 : Present (mem (word (tableOf (mem (word pml4Base (index va 39)))) (index va 30)))
  case neg => simp [p3]
  have t2 : Table mem 2 _ := ⟨_, t1, _, index_lt va 30, p3, rfl⟩
  rw [h 2 (by omega) _ t2 _ (index_lt va 21)]

/-- **The walk ends at a last-level entry.** -/
theorem leaf_of_walk (h : walk mem va = some a) : Leaf mem a := by
  simp only [walk] at h
  split at h
  · cases h
  · rename_i h43
    rw [not_or, not_not, not_not] at h43
    split at h
    · cases h
    · rename_i h2
      rw [not_not] at h2
      exact ⟨_, ⟨_, ⟨_, ⟨_, rfl, _, index_lt va 39, h43.1, rfl⟩, _, index_lt va 30, h43.2, rfl⟩, _,
        index_lt va 21, h2, rfl⟩, _, index_lt va 12, (Option.some.inj h).symm⟩

theorem mem_mappers : a ∈ mappers mem i ↔ Leaf mem a ∧ Present (mem a) ∧ (frame (mem a)).toNat = pageAddr i := Iff.rfl

/-- A present last-level entry is not an entry of a table above. -/
theorem Mapped.not_upper (h : Mapped m) (ha : Leaf m.mem a) (hp : Present (m.mem a)) (hk : k ≤ 2)
    (ht : Table m.mem k t) (hi : i < 512) : word t i ≠ a := by
  rintro rfl
  obtain ⟨j, hj, hf, -⟩ := h.used _ ha hp
  refine h.noTable _ ha hp (k + 1) (by omega) ⟨t, ht, i, hi, hp, ?_⟩
  rw [hf, tableOf_eq hj hf]

/-- An entry is not in a frame that is mapped. -/
theorem Mapped.not_in_frame (h : Mapped m) (ha : Leaf m.mem a) (hb : Leaf m.mem b)
    (hp : Present (m.mem b)) (hk : k < 512) : word (frame (m.mem b)).toNat k ≠ a := fun he => by
  obtain ⟨t, ht, j, hj, rfl⟩ := ha
  obtain ⟨hte, -⟩ := word_inj (frame_aligned _) ht.aligned hk hj he
  exact h.noTable b hb hp 3 le_rfl (hte ▸ ht)

/-! ## The sole owner -/

/-- **The entry is made writable**, by the only entry that maps the frame. -/
theorem sole_isolated (h : Mapped m) (hkept : Kept m) (hw : walk m.mem va = some a)
    (hp : Present (m.mem a)) (hi : i < bitmapBits) (hf : (frame (m.mem a)).toNat = pageAddr i)
    (hr : m.vmm.refs i ≤ 1) :
    Isolated m { m with mem := update m.mem a (m.mem a ||| 2#64) } va ∧
      Kept { m with mem := update m.mem a (m.mem a ||| 2#64) } := by
  have ha := leaf_of_walk hw
  have hframe : frame (m.mem a ||| 2#64) = frame (m.mem a) := frame_or _ 2 (by omega)
  have hpres : Present (m.mem a ||| 2#64) := by
    rw [present_iff] at hp ⊢
    simp [hp]
  have hup : ∀ k ≤ 2, ∀ t, Table m.mem k t → ∀ j < 512,
      update m.mem a (m.mem a ||| 2#64) (word t j) = m.mem (word t j) := fun k hk t ht j hj =>
    update_of_ne (h.not_upper ha hp hk ht hj) ..
  have htab := table_congr hup
  have hleaf := leaf_congr (htab 3 le_rfl)
  -- What an entry maps has not changed.
  have hsame : ∀ b, frame (update m.mem a (m.mem a ||| 2#64) b) = frame (m.mem b) ∧
      (Present (update m.mem a (m.mem a ||| 2#64) b) ↔ Present (m.mem b)) := fun b => by
    by_cases hb : b = a
    · subst hb
      rw [update_self]
      exact ⟨hframe, iff_of_true hpres hp⟩
    · rw [update_of_ne hb]
      exact ⟨rfl, Iff.rfl⟩
  have hmap : ∀ j, mappers (update m.mem a (m.mem a ||| 2#64)) j = mappers m.mem j := fun j => by
    ext b
    rw [mem_mappers, mem_mappers, hleaf, (hsame b).1, (hsame b).2]
  refine ⟨⟨⟨a, hw, (walk_congr hup va).trans hw, ?_, ?_, ?_, ?_, ?_⟩, hleaf, ⟨?_, ?_, ?_⟩⟩, ?_⟩
  · exact (hsame a).2.2 hp
  · show Writable (update m.mem a (m.mem a ||| 2#64) a)
    rw [update_self, writable_iff]
    simp
  · intro k hk
    rw [(hsame a).1]
    exact update_of_ne (h.not_in_frame ha ha hp hk) ..
  · intro b hb hpb he
    rw [(hsame b).1, (hsame a).1] at he
    have hle : (mappers m.mem i).encard ≤ 1 := (h.counted i hi).trans (by exact_mod_cast hr)
    exact Set.encard_le_one_iff.1 hle b a ⟨(hleaf b).1 hb, (hsame b).2.1 hpb, by rw [he, hf]⟩
      ⟨ha, hp, hf⟩
  · intro b hne hb
    exact ⟨update_of_ne hne .., fun hpb k hk =>
      update_of_ne (h.not_in_frame ha hb hpb hk) ..⟩
  · intro b hb hpb
    rw [(hsame b).1]
    exact h.used b ((hleaf b).1 hb) ((hsame b).2.1 hpb)
  · intro b hb hpb k hk ht
    rw [(hsame b).1] at ht
    exact h.noTable b ((hleaf b).1 hb) ((hsame b).2.1 hpb) k hk ((htab k hk _).1 ht)
  · intro j hj
    rw [hmap]
    exact h.counted j hj
  · intro j hj k hk ht
    exact hkept j hj k hk ((htab k hk _).1 ht)

/-! ## The copy -/

theorem copyWords_succ (src dst n : Nat) (mem : Nat → BitVec 64) :
    copyWords src dst (n + 1) mem = update (copyWords src dst n mem) (word dst n)
      (copyWords src dst n mem (word src n)) := by
  rw [copyWords, List.range_succ, List.foldl_append]
  rfl

/-- The loop writes the target, and nothing else. -/
theorem copyWords_other (src dst : Nat) : ∀ {n x : Nat}, (∀ i < n, x ≠ word dst i) → copyWords src dst n mem x = mem x
  | 0, _, _ => rfl
  | n + 1, x, h => by
    rw [copyWords_succ, update_of_ne (h n (by omega))]
    exact copyWords_other src dst fun i hi => h i (by omega)

/-- **The target becomes the source**, if they are different pages. -/
theorem copyWords_target {src dst : Nat} (hs : src % 4096 = 0) (hd : dst % 4096 = 0) (hne : src ≠ dst) :
    ∀ {n : Nat}, n ≤ 512 → ∀ k < n, copyWords src dst n mem (word dst k) = mem (word src k)
  | n + 1, hn, k, hk => by
    rw [copyWords_succ]
    rcases Nat.lt_or_ge k n with hlt | hge
    · have : word dst k ≠ word dst n := by simp only [word]; omega
      rw [update_of_ne this]
      exact copyWords_target hs hd hne (by omega) k hlt
    · obtain rfl : k = n := by omega
      rw [update_self]
      exact copyWords_other src dst fun i hi he => hne (word_inj hs hd (by omega) (by omega) he).1

/-- A call about one page. -/
theorem indices_page {phys : BitVec 64} (hi : i < bitmapBits) (h : phys.toNat = pageAddr i) :
    Aligned (.ofBitVec phys) ∧ indices (.ofBitVec phys) 1 = [i] := by
  have hb : bitmapBits = 28672 := rfl
  have hp : (UInt64.ofBitVec phys).toNat = pageAddr i := h
  refine ⟨?_, ?_⟩
  · rw [Aligned, hp]
    simp only [pageAddr, physBase, page]
    omega
  · have h1 : List.range (1 : UInt32).toNat = [0] := rfl
    rw [indices, h1, List.map_singleton, hp]
    simp only [pageAddr, physBase, page, List.cons.injEq, and_true]
    omega

theorem vmmRefcount_page {phys : BitVec 64} (hi : i < bitmapBits) (h : phys.toNat = pageAddr i)
    (s : Allocator) : vmmRefcount s (.ofBitVec phys) = s.refs i := by
  have hb : bitmapBits = 28672 := rfl
  have hp : (UInt64.ofBitVec phys).toNat = pageAddr i := h
  have hidx : ((UInt64.ofBitVec phys).toNat - physBase) / page % 2 ^ 32 = i := by
    rw [hp]
    simp only [pageAddr, physBase, page]
    omega
  rw [vmmRefcount, if_pos (indices_page hi h).1]
  rw [hidx, if_neg (by omega)]

/-- One page allocated, and a reference to another given back. -/
theorem alloc_free_spec {s : Allocator} {phys : BitVec 64} (hi : i < bitmapBits)
    (hp : phys.toNat = pageAddr i) (hu : bmTest s i = true) (h1 : 1 < s.refs i) :
    vmmAllocPages s 1 = (0, s) ∨ ∃ c < bitmapBits, c ≠ i ∧ bmTest s c = false ∧
      (vmmAllocPages s 1).1 ≠ 0 ∧ (vmmAllocPages s 1).1.toNat = pageAddr c ∧
      ∀ j, look (vmmFreePages (vmmAllocPages s 1).2 (.ofBitVec phys) 1) j =
        if j = c then (true, 1) else if j = i then (true, s.refs i - 1) else look s j := by
  rcases vmmAllocPages_spec s 1 with he | ⟨c, hle, hc, ha, -, hl⟩
  · exact .inl he
  have hone : (1 : UInt32).toNat = 1 := rfl
  rw [hone] at hle hc hl
  have hcf := hc c le_rfl (by omega)
  have hne : c ≠ i := fun h => by
    rw [h, hu] at hcf
    cases hcf
  refine .inr ⟨c, by omega, hne, hcf, fun h0 => ?_, ha, fun j => ?_⟩
  · rw [h0] at ha
    simp only [physBase, UInt64.toNat_zero] at ha
    omega
  · obtain ⟨hal, hidx⟩ := indices_page hi hp
    have hli : look (vmmAllocPages s 1).2 i = look s i := by
      rw [hl, if_neg (by omega)]
    obtain ⟨hti, hri⟩ := look_eq.1 hli
    have hm : j ∈ indices (.ofBitVec phys) 1 ↔ j = i := by rw [hidx, List.mem_singleton]
    rw [vmmFreePages_at hal]
    by_cases hji : j = i
    · subst hji
      rw [if_pos (hm.2 rfl), look_freePage, hti, hri, if_pos ⟨rfl, hi, hu⟩, if_neg hne.symm,
        if_pos rfl, decide_eq_true h1]
    · rw [if_neg (mt hm.1 hji), if_neg hji, hl]
      by_cases hjc : j = c
      · rw [if_pos hjc, if_pos (by omega)]
      · rw [if_neg hjc, if_neg (by omega)]

theorem enat_le_pred {x : ℕ∞} {r : Nat} (h : x + 1 ≤ r) : x ≤ ((r - 1 : Nat) : ℕ∞) := by
  induction x with
  | top => simp at h
  | coe n =>
    norm_cast at h ⊢
    omega

/-- The entry at `a`, which maps page `i`, is given a copy of it in page `c`, which was free: the entry
and the words of the copy change, and so do the records of the two pages. -/
structure Copied (m m' : Machine) (a i c : Nat) : Prop where
  leaf : Leaf m.mem a
  present : Present (m.mem a)
  frame : (frame (m.mem a)).toNat = pageAddr i
  lt : c < bitmapBits
  free : bmTest m.vmm c = false
  present' : Present (m'.mem a)
  frame' : (Vmm.frame (m'.mem a)).toNat = pageAddr c
  target : ∀ k < 512, m'.mem (word (pageAddr c) k) = m.mem (word (pageAddr i) k)
  other : ∀ x, x ≠ a → (∀ k < 512, x ≠ word (pageAddr c) k) → m'.mem x = m.mem x
  vmm : ∀ j, look m'.vmm j =
    if j = c then (true, 1) else if j = i then (true, m.vmm.refs i - 1) else look m.vmm j

section Copy

variable {m' : Machine} {c : Nat}

/-- The copy is no page table. -/
theorem Copied.not_table (hc : Copied m m' a i c) (hkept : Kept m) (hk : k ≤ 3) :
    ¬Table m.mem k (pageAddr c) := fun ht => by
  have := hc.free
  rw [hkept c hc.lt k hk ht] at this
  cases this

/-- The copy was mapped by nobody. -/
theorem Copied.not_mapped (hc : Copied m m' a i c) (h : Mapped m) (hb : Leaf m.mem b)
    (hp : Present (m.mem b)) : (Vmm.frame (m.mem b)).toNat ≠ pageAddr c := fun he => by
  obtain ⟨j, -, hj, hu⟩ := h.used b hb hp
  obtain rfl := pageAddr_inj (hj.symm.trans he)
  have := hc.free
  rw [hu] at this
  cases this

/-- The other words of the page tables have not changed. -/
theorem Copied.word_eq (hc : Copied m m' a i c) (hkept : Kept m) (hk : k ≤ 3) (ht : Table m.mem k t)
    (hj : j < 512) (hne : word t j ≠ a) : m'.mem (word t j) = m.mem (word t j) :=
  hc.other _ hne fun _ hk' he =>
    hc.not_table hkept hk ((word_inj ht.aligned (pageAddr_aligned c) hj hk' he).1 ▸ ht)

theorem Copied.upper_eq (hc : Copied m m' a i c) (h : Mapped m) (hkept : Kept m) :
    ∀ k ≤ 2, ∀ t, Table m.mem k t → ∀ j < 512, m'.mem (word t j) = m.mem (word t j) :=
  fun k hk _ ht _ hj =>
    hc.word_eq hkept (by omega) ht hj (h.not_upper hc.leaf hc.present hk ht hj)

theorem Copied.leaf_eq (hc : Copied m m' a i c) (hkept : Kept m) (hb : Leaf m.mem b) (hne : b ≠ a) :
    m'.mem b = m.mem b := by
  obtain ⟨t, ht, j, hj, rfl⟩ := hb
  exact hc.word_eq hkept le_rfl ht hj hne

/-- A page in use is still in use. -/
theorem Copied.stays (hc : Copied m m' a i c) (hu : bmTest m.vmm j = true) : bmTest m'.vmm j = true := by
  have := hc.vmm j
  split at this
  · exact (look_pair.1 this).1
  · split at this
    · exact (look_pair.1 this).1
    · exact (look_eq.1 this).1.trans hu

/-- **Who maps a page now**: the copy only the entry, every other page whoever mapped it except for the
entry. -/
theorem Copied.mappers_eq (hc : Copied m m' a i c) (h : Mapped m) (hkept : Kept m) (j : Nat) :
    mappers m'.mem j = if j = c then {a} else mappers m.mem j \ {a} := by
  have hleaf := leaf_congr (table_congr (hc.upper_eq h hkept) 3 le_rfl)
  have ha : a ∈ mappers m'.mem j ↔ j = c := by
    rw [mem_mappers, hleaf, hc.frame']
    exact ⟨fun hm => (pageAddr_inj hm.2.2).symm, fun hj => ⟨hc.leaf, hc.present', by rw [hj]⟩⟩
  have hb : ∀ b, b ≠ a → (b ∈ mappers m'.mem j ↔ b ∈ mappers m.mem j) := fun b hne => by
    rw [mem_mappers, mem_mappers, hleaf]
    refine and_congr_right fun hl => ?_
    rw [hc.leaf_eq hkept hl hne]
  ext b
  by_cases hne : b = a
  · subst hne
    rw [ha]
    split <;> simp [*]
  · rw [hb b hne]
    split
    case isTrue hj =>
      subst hj
      exact iff_of_false (fun hm => hc.not_mapped h hm.1 hm.2.1 hm.2.2) hne
    case isFalse => simp [hne]

theorem Copied.counted (hc : Copied m m' a i c) (h : Mapped m) (hkept : Kept m) (hj : j < bitmapBits) :
    (mappers m'.mem j).encard ≤ m'.vmm.refs j := by
  have hl := hc.vmm j
  have hle := h.counted j hj
  rw [hc.mappers_eq h hkept]
  by_cases hjc : j = c
  · rw [if_pos hjc] at hl ⊢
    rw [(look_pair.1 hl).2, Set.encard_singleton]
    exact le_rfl
  rw [if_neg hjc] at hl ⊢
  by_cases hji : j = i
  · -- One mapping less, and one reference less.
    subst hji
    rw [if_pos rfl] at hl
    have ha : a ∈ mappers m.mem j := ⟨hc.leaf, hc.present, hc.frame⟩
    have hone := Set.encard_sdiff_singleton_add_one ha
    rw [(look_pair.1 hl).2]
    rw [← hone] at hle
    exact enat_le_pred hle
  · rw [if_neg hji] at hl
    rw [(look_eq.1 hl).2]
    exact (Set.encard_le_encard Set.sdiff_subset).trans hle

theorem Copied.mapped (hc : Copied m m' a i c) (h : Mapped m) (hkept : Kept m) : Mapped m' := by
  have htab := table_congr (hc.upper_eq h hkept)
  have hleaf := leaf_congr (htab 3 le_rfl)
  refine ⟨fun b hb hp => ?_, fun b hb hp k hk ht => ?_, fun j hj => hc.counted h hkept hj⟩
  · by_cases hne : b = a
    · subst hne
      exact ⟨c, hc.lt, hc.frame', (look_pair.1 ((hc.vmm c).trans (if_pos rfl))).1⟩
    · have hb := (hleaf b).1 hb
      rw [hc.leaf_eq hkept hb hne] at hp ⊢
      obtain ⟨j, hj, hf, hu⟩ := h.used b hb hp
      exact ⟨j, hj, hf, hc.stays hu⟩
  · have ht := (htab k hk _).1 ht
    by_cases hne : b = a
    · subst hne
      rw [hc.frame'] at ht
      exact hc.not_table hkept hk ht
    · have hb := (hleaf b).1 hb
      rw [hc.leaf_eq hkept hb hne] at hp ht
      exact h.noTable b hb hp k hk ht

/-- **A copy isolates the page.** -/
theorem Copied.isolated (hc : Copied m m' a i c) (h : Mapped m) (hkept : Kept m)
    (hw : walk m.mem va = some a) (hwr : Writable (m'.mem a)) : Isolated m m' va ∧ Kept m' := by
  have hup := hc.upper_eq h hkept
  have htab := table_congr hup
  have hleaf := leaf_congr (htab 3 le_rfl)
  refine ⟨⟨⟨a, hw, (walk_congr hup va).trans hw, hc.present', hwr, ?_, ?_, ?_⟩, hleaf,
    hc.mapped h hkept⟩, fun j hj k hk ht => hc.stays (hkept j hj k hk ((htab k hk _).1 ht))⟩
  · rw [hc.frame', hc.frame]
    exact hc.target
  · intro b hb hp he
    have hm : b ∈ mappers m'.mem c := ⟨hb, hp, by rw [he, hc.frame']⟩
    rw [hc.mappers_eq h hkept, if_pos rfl] at hm
    exact hm
  · intro b hne hb
    refine ⟨hc.leaf_eq hkept hb hne, fun hp k hk => ?_⟩
    exact hc.other _ (h.not_in_frame hc.leaf hb hp hk) fun k' hk' he =>
      hc.not_mapped h hb hp (word_inj (frame_aligned _) (pageAddr_aligned c) hk hk' he).1

end Copy

/-! ## The call -/

/-- The loop and the new entry make a copy. -/
theorem copied_of_loop (h : Mapped m) (hkept : Kept m) (ha : Leaf m.mem a) (hp : Present (m.mem a))
    (hf : (frame (m.mem a)).toNat = pageAddr i) {c : Nat} (hc : c < bitmapBits)
    (hfree : bmTest m.vmm c = false) {copy : UInt64} (hcopy : copy.toNat = pageAddr c) {vmm : Allocator}
    (hl : ∀ j, look vmm j = if j = c then (true, 1) else if j = i then (true, m.vmm.refs i - 1) else look m.vmm j) :
    Copied m ⟨update (copyWords (frame (m.mem a)).toNat copy.toNat 512 m.mem) a
      (frame copy.toBitVec ||| 3#64), vmm⟩ a i c := by
  have hframe : frame (frame copy.toBitVec ||| 3#64) = copy.toBitVec := by
    have hal : copy.toBitVec.toNat % 4096 = 0 := by
      show copy.toNat % 4096 = 0
      rw [hcopy]
      exact pageAddr_aligned c
    rw [frame_of_aligned hal]
    exact (frame_or _ 3 (by omega)).trans (frame_of_aligned hal)
  have hne : pageAddr i ≠ pageAddr c := fun he => by
    obtain ⟨j, -, hj, hu⟩ := h.used a ha hp
    obtain rfl := pageAddr_inj ((hj.symm.trans hf).trans he)
    rw [hu] at hfree
    cases hfree
  have hout : ∀ k < 512, word (pageAddr c) k ≠ a := fun k hk he => by
    obtain ⟨t, ht, j, hj, rfl⟩ := ha
    obtain ⟨rfl, -⟩ := word_inj (pageAddr_aligned c) ht.aligned hk hj he
    rw [hkept c hc 3 le_rfl ht] at hfree
    cases hfree
  refine ⟨ha, hp, hf, hc, hfree, ?_, ?_, fun k hk => ?_, fun x hx hk => ?_, hl⟩
  · dsimp only
    rw [update_self, present_iff]
    simp
  · dsimp only
    rw [update_self, hframe]
    exact hcopy
  · dsimp only
    rw [update_of_ne (hout k hk), hf, hcopy]
    exact copyWords_target (pageAddr_aligned i) (pageAddr_aligned c) hne le_rfl k hk
  · dsimp only
    rw [update_of_ne hx, hcopy]
    exact copyWords_other _ _ hk

/-- **The call isolates the page or changes nothing.** -/
theorem vmmCowFault_isolates (m : Machine) (va : BitVec 64) (h : Mapped m) (hkept : Kept m) :
    ((vmmCowFault m va).1 = true → Isolated m (vmmCowFault m va).2 va ∧ Kept (vmmCowFault m va).2) ∧
      ((vmmCowFault m va).1 = false → (vmmCowFault m va).2 = m) := by
  rw [vmmCowFault, walk_pageBase]
  cases hw : walk m.mem va with
  | none => exact ⟨Bool.noConfusion, fun _ => rfl⟩
  | some a =>
    dsimp only
    by_cases hp : Present (m.mem a)
    case neg =>
      rw [if_pos hp]
      exact ⟨Bool.noConfusion, fun _ => rfl⟩
    rw [if_neg (not_not.2 hp)]
    by_cases hwr : Writable (m.mem a)
    case pos =>
      rw [if_pos hwr]
      exact ⟨Bool.noConfusion, fun _ => rfl⟩
    rw [if_neg hwr]
    have ha := leaf_of_walk hw
    obtain ⟨i, hi, hf, hu⟩ := h.used a ha hp
    rw [vmmRefcount_page hi hf]
    by_cases hr : m.vmm.refs i ≤ 1
    · rw [if_pos hr]
      exact ⟨fun _ => sole_isolated h hkept hw hp hi hf hr, Bool.noConfusion⟩
    · rw [if_neg hr]
      rcases alloc_free_spec hi hf hu (by omega) with he | ⟨c, hc, hci, hfree, hne, hcopy, hl⟩
      · rw [he]
        exact ⟨Bool.noConfusion, fun _ => rfl⟩
      · rw [if_neg hne]
        refine ⟨fun _ => ?_, Bool.noConfusion⟩
        refine (copied_of_loop h hkept ha hp hf hc hfree hcopy hl).isolated h hkept hw ?_
        dsimp only
        rw [update_self, writable_iff]
        simp

/-- Two entries of one page table, at `pt`, map the same frame. -/
def sample (pt : Nat) : Nat → BitVec 64 := fun x =>
  if x = 0x300000 then 0x301003#64 else
  if x = 0x301000 then 0x302003#64 else
  if x = 0x302000 then BitVec.ofNat 64 (pt + 3) else
  if x = pt ∨ x = pt + 8 then 0x1001001#64 else 0#64

/-- The frame is in use with a count of two, and no other page is. -/
def sampleVmm : Allocator where
  bitmap := fun x => if x = 0 then 2#8 else 0#8
  freePages := 28671
  refs := fun i => if i = 1 then 2 else 0

def sampleMachine (pt : Nat) : Machine := ⟨sample pt, sampleVmm⟩

section Sample

variable {pt x : Nat}

theorem sample_present (h : Present (sample pt x)) :
    x = 0x300000 ∨ x = 0x301000 ∨ x = 0x302000 ∨ x = pt ∨ x = pt + 8 := by
  by_contra hx
  simp only [not_or] at hx
  obtain ⟨h1, h2, h3, h4, h5⟩ := hx
  rw [sample, if_neg h1, if_neg h2, if_neg h3, if_neg (by omega)] at h
  exact absurd h (by decide)

/-- The table after `k` entries. -/
def sampleTable (pt : Nat) : Nat → Nat
  | 0 => 0x300000
  | 1 => 0x301000
  | 2 => 0x302000
  | _ => pt

theorem sample_entry (hpt : pt = 0x303000 ∨ pt = 0x1000000) : ∀ {k : Nat}, k < 3 →
    tableOf (sample pt (sampleTable pt k)) = sampleTable pt (k + 1)
  | 0, _ => by rcases hpt with rfl | rfl <;> decide
  | 1, _ => by rcases hpt with rfl | rfl <;> decide
  | 2, _ => by rcases hpt with rfl | rfl <;> decide

/-- The tables of the tree. -/
theorem sample_table (hpt : pt = 0x303000 ∨ pt = 0x1000000) : ∀ {k t : Nat}, k ≤ 3 →
    Table (sample pt) k t → t = sampleTable pt k
  | 0, _, _, h => h
  | k + 1, t, hk, ⟨p, hp, i, hi, hpr, he⟩ => by
    have hpk := sample_table hpt (by omega) hp
    have hx := sample_present hpr
    have hi0 : i = 0 := by
      subst hpk
      simp only [word] at hx
      match k, hk with
      | 0, _ => simp only [sampleTable] at hx; omega
      | 1, _ => simp only [sampleTable] at hx; omega
      | 2, _ => simp only [sampleTable] at hx; omega
    rw [he, hi0, hpk]
    exact sample_entry hpt (by omega)

theorem sample_leaf (hpt : pt = 0x303000 ∨ pt = 0x1000000) {a : Nat} (ha : Leaf (sample pt) a)
    (hp : Present (sample pt a)) : (a = pt ∨ a = pt + 8) ∧ (frame (sample pt a)).toNat = pageAddr 1 := by
  obtain ⟨t, ht, i, hi, rfl⟩ := ha
  obtain rfl : t = pt := sample_table hpt le_rfl ht
  have hx := sample_present hp
  have ha : word t i = t ∨ word t i = t + 8 := by
    simp only [word] at hx ⊢
    omega
  refine ⟨ha, ?_⟩
  rcases hpt with rfl | rfl <;> rcases ha with h | h <;> rw [h] <;> rfl

theorem sampleTable_ne (hpt : pt = 0x303000 ∨ pt = 0x1000000) {k : Nat} : sampleTable pt k ≠ pageAddr 1 := by
  rw [show pageAddr 1 = 0x1001000 from rfl]
  match k with
  | 0 => exact show 0x300000 ≠ 0x1001000 by decide
  | 1 => exact show 0x301000 ≠ 0x1001000 by decide
  | 2 => exact show 0x302000 ≠ 0x1001000 by decide
  | _ + 3 =>
    show pt ≠ 0x1001000
    omega

theorem sample_mapped (hpt : pt = 0x303000 ∨ pt = 0x1000000) : Mapped (sampleMachine pt) := by
  refine ⟨fun a ha hp => ?_, fun a ha hp k hk ht => ?_, fun i _ => ?_⟩
  · exact ⟨1, by decide, (sample_leaf hpt ha hp).2, show bmTest sampleVmm 1 = true by decide⟩
  · have he := sample_table hpt hk ht
    have hf : (frame ((sampleMachine pt).mem a)).toNat = pageAddr 1 := (sample_leaf hpt ha hp).2
    rw [hf] at he
    exact sampleTable_ne hpt he.symm
  · have hm : mappers (sample pt) i ⊆ if i = 1 then {pt, pt + 8} else ∅ := fun a ⟨ha, hp, hf⟩ => by
      obtain ⟨hx, h1⟩ := sample_leaf hpt ha hp
      obtain rfl := pageAddr_inj (hf.symm.trans h1)
      simpa using hx
    refine (Set.encard_le_encard hm).trans ?_
    by_cases hi : i = 1
    · subst hi
      exact (Set.encard_pair (by omega)).le
    · rw [if_neg hi, Set.encard_empty]
      exact zero_le

end Sample

/-- With the page table below the allocator's range, the second mapping of the frame gets a copy. -/
theorem vmmCowFault_isolates_sample : Isolated (sampleMachine 0x303000)
    (vmmCowFault (sampleMachine 0x303000) 0x1000#64).2 0x1000#64 := by
  have hpt : 0x303000 = 0x303000 ∨ 0x303000 = 0x1000000 := .inl rfl
  refine ((vmmCowFault_isolates (sampleMachine 0x303000) 0x1000#64 (sample_mapped hpt)
    fun i _ k hk ht => ?_).1 (by decide)).1
  have he : physBase + i * page = sampleTable 0x303000 k := sample_table hpt hk ht
  have hlt : sampleTable 0x303000 k < physBase := by
    match k with
    | 0 => exact show 0x300000 < physBase by decide
    | 1 => exact show 0x301000 < physBase by decide
    | 2 => exact show 0x302000 < physBase by decide
    | _ + 3 => exact show 0x303000 < physBase by decide
  omega

/-- **The page tables must be in use**: a page table in a free page of the allocator is overwritten by
the copy. -/
theorem cow_overwrites_table : ¬∀ (m : Machine) (va : BitVec 64), Mapped m →
    ((vmmCowFault m va).1 = true → Isolated m (vmmCowFault m va).2 va) ∧
      ((vmmCowFault m va).1 = false → (vmmCowFault m va).2 = m) := by
  intro h
  have hi := (h (sampleMachine 0x1000000) 0#64 (sample_mapped (.inr rfl))).1 (by decide)
  obtain ⟨a, hw, -, -, -, hsame, -⟩ := hi.mine
  have hw' : walk (sampleMachine 0x1000000).mem 0#64 = some 0x1000000 := by decide
  obtain rfl : a = 0x1000000 := Option.some.inj (hw.symm.trans hw')
  exact absurd (hsame 0 (by omega)) (by decide)

end WuBuOS.Vmm
