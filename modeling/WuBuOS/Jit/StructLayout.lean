import WuBuOS.Lib.Packing

/-!
# The layout of a struct

`minic_type_layout` of `jit/jit_minic_type.c` sorts the members by descending alignment, and gives each the next
offset that is a multiple of its alignment.  As the alignments are powers of two, and each divides the size, nothing is
left free between the members; so no other order gives a smaller struct.

The offsets are kept in 32 bits, and the size in 64.  `layout_iff` says for which members that is enough.  A member
behind 2 GiB of others gets a negative offset, or one where another member is; only an empty member may be lucky.
-/

namespace WuBuOS.Jit.TypeLayout

open Packing

/-! ## The code -/

/-- `MinicMember`: before the layout, `offset` is for the order of the declaration. -/
structure MinicMember where
  name : String
  mty : Int
  offset : Int
  size : Nat
  align : Nat

/-- `MinicType`, as far as the layout is concerned. -/
structure MinicType where
  size : Nat
  align : Nat
  members : List MinicMember
  defined : Bool

abbrev MinicTypeRegistry := List MinicType

def mtyType (r : MinicTypeRegistry) (idx : Int) : Option MinicType := if idx < 0 then none else r[idx.toNat]?

def mtyAlign (r : MinicTypeRegistry) (idx : Int) : Nat := ((mtyType r idx).map (·.align)).getD 1

def mtySize (r : MinicTypeRegistry) (idx : Int) : Nat := ((mtyType r idx).map (·.size)).getD 0

def memberAlignCmp (ma mb : MinicMember) : Int :=
  if mb.align ≠ ma.align then (mb.align : Int) - ma.align else ma.offset - mb.offset

/-- An `int64_t`; more than that is undefined. -/
def fits63 (v : Nat) : Option Nat := if v < 2 ^ 63 then some v else none

/-- `(off + align - 1) & ~((int64_t)align - 1)`. -/
def alignOff (off align : Nat) : Option Nat :=
  (fits63 (off + align)).map fun x => (BitVec.ofNat 64 (x - 1) &&& ~~~BitVec.ofNat 64 (align - 1)).toNat

/-- `(int32_t)off`. -/
def int32 (off : Nat) : Int := (BitVec.ofNat 32 off).toInt

/-- The second loop of `minic_type_layout`; it gives back the members, `off` and `max_align`. -/
def placeMembers : List MinicMember → Nat → Nat → Option (List MinicMember × Nat × Nat)
  | [], off, maxAlign => some ([], off, maxAlign)
  | m :: ms, off, maxAlign => do
    let off ← alignOff off m.align
    let next ← fits63 (off + m.size)
    let (ms, last) ← placeMembers ms next (max maxAlign m.align)
    some ({ m with offset := int32 off } :: ms, last)

/-- The layout, for members that are in their order. -/
def layoutInOrder (ms : List MinicMember) : Option MinicType := do
  let (ms, off, maxAlign) ← placeMembers ms 0 1
  let size ← alignOff off maxAlign
  some ⟨size, maxAlign, ms, true⟩

/-- The members after the first loop. -/
def keyedMembers (r : MinicTypeRegistry) (s : MinicType) : List MinicMember :=
  s.members.mapIdx fun i m => { m with offset := i, size := mtySize r m.mty, align := mtyAlign r m.mty }

/-- `qsort`. -/
def sortedMembers (r : MinicTypeRegistry) (s : MinicType) : List MinicMember :=
  (keyedMembers r s).mergeSort fun ma mb => memberAlignCmp ma mb ≤ 0

def minicTypeLayout (r : MinicTypeRegistry) (s : MinicType) : Option MinicType := layoutInOrder (sortedMembers r s)

/-! ## Offsets -/

/-- A power of two that is an `int`. -/
def IsAlign (a : Nat) : Prop := ∃ k ≤ 30, a = 2 ^ k

variable {ms : List MinicMember} {p : MinicMember × Nat} {a : Nat}

theorem IsAlign.pos (h : IsAlign a) : 0 < a := by
  obtain ⟨k, -, rfl⟩ := h
  exact Nat.two_pow_pos k

theorem IsAlign.dvd_of_le {a b : Nat} (ha : IsAlign a) (hb : IsAlign b) (h : a ≤ b) : a ∣ b := by
  obtain ⟨k, -, rfl⟩ := ha
  obtain ⟨l, -, rfl⟩ := hb
  exact Nat.pow_dvd_pow 2 ((Nat.pow_le_pow_iff_right (by decide)).1 h)

theorem IsAlign.max {a b : Nat} (ha : IsAlign a) (hb : IsAlign b) : IsAlign (max a b) := by
  rcases Nat.le_total a b with h | h
  · rwa [Nat.max_eq_right h]
  · rwa [Nat.max_eq_left h]

theorem mask_toNat {v k : Nat} (hv : v < 2 ^ 64) :
    (BitVec.ofNat 64 v &&& ~~~BitVec.ofNat 64 (2 ^ k - 1)).toNat = v / 2 ^ k * 2 ^ k := by
  have heq : BitVec.ofNat 64 v &&& ~~~BitVec.ofNat 64 (2 ^ k - 1) = (BitVec.ofNat 64 v >>> k) <<< k := by
    refine BitVec.eq_of_getLsbD_eq fun i hi => ?_
    have hmask : (BitVec.ofNat 64 (2 ^ k - 1)).getLsbD i = decide (i < k) := by
      rw [BitVec.getLsbD_ofNat, Nat.testBit_two_pow_sub_one, decide_eq_true hi, Bool.true_and]
    rw [BitVec.getLsbD_and, BitVec.getLsbD_not, hmask, BitVec.getLsbD_shiftLeft, BitVec.getLsbD_ushiftRight]
    by_cases hik : i < k
    · simp [hik]
    · simp [hik, hi, show k + (i - k) = i by omega]
  have hle : v / 2 ^ k * 2 ^ k ≤ v := Nat.div_mul_le_self v _
  rw [heq, BitVec.toNat_shiftLeft, BitVec.toNat_ushiftRight, BitVec.toNat_ofNat, Nat.mod_eq_of_lt hv,
    Nat.shiftRight_eq_div_pow, Nat.shiftLeft_eq, Nat.mod_eq_of_lt (by omega)]

theorem alignOff_eq {off a : Nat} (ha : IsAlign a) :
    alignOff off a = if off + a < 2 ^ 63 then some (alignUp off a) else none := by
  obtain ⟨k, hk, rfl⟩ := ha
  rw [alignOff, fits63]
  split
  case isTrue h =>
    rw [Option.map_some, mask_toNat (by omega), alignUp]
  case isFalse => rfl

/-- The largest alignment. -/
def maxAlignment (ms : List MinicMember) (maxAlign : Nat) : Nat := ms.foldl (fun a m => max a m.align) maxAlign

theorem le_maxAlignment : a ≤ maxAlignment ms a ∧ ∀ m ∈ ms, m.align ≤ maxAlignment ms a := by
  induction ms generalizing a with
  | nil => exact ⟨Nat.le_refl a, fun _ h => absurd h List.not_mem_nil⟩
  | cons m ms ih =>
    obtain ⟨hle, hmem⟩ := @ih (max a m.align)
    refine ⟨Nat.le_trans (Nat.le_max_left a _) hle, fun n hn => ?_⟩
    rcases List.mem_cons.1 hn with rfl | hn
    · exact Nat.le_trans (Nat.le_max_right a _) hle
    · exact hmem n hn

theorem isAlign_maxAlignment (h : ∀ m ∈ ms, IsAlign m.align) (ha : IsAlign a) : IsAlign (maxAlignment ms a) := by
  induction ms generalizing a with
  | nil => exact ha
  | cons m ms ih =>
    obtain ⟨hm, h⟩ := List.forall_mem_cons.1 h
    exact ih h (ha.max hm)

/-- A member at its place. -/
def MinicMember.at (m : MinicMember) (off : Nat) : MinicMember := { m with offset := int32 off }

/-- Members and places, as the library has them. -/
abbrev placedMembers (ms : List MinicMember) (off : Nat) : List (MinicMember × Nat) :=
  placed MinicMember.size MinicMember.align ms off

abbrev extentOf (ms : List MinicMember) (off : Nat) : Nat := extent MinicMember.size MinicMember.align ms off

theorem placeMembers_some {ms l : List MinicMember} (h : ∀ m ∈ ms, IsAlign m.align) {off off' a a' : Nat}
    (heq : placeMembers ms off a = some (l, off', a')) :
    l = (placedMembers ms off).map (fun p => p.1.at p.2) ∧ off' = extentOf ms off ∧ a' = maxAlignment ms a := by
  induction ms generalizing off off' a a' l with
  | nil =>
    obtain ⟨rfl, rfl, rfl⟩ : [] = l ∧ off = off' ∧ a = a' := by simpa [placeMembers] using heq
    exact ⟨rfl, rfl, rfl⟩
  | cons m ms ih =>
    obtain ⟨hm, h⟩ := List.forall_mem_cons.1 h
    obtain ⟨x, hx, heq⟩ := Option.bind_eq_some_iff.1 heq
    obtain ⟨y, hy, heq⟩ := Option.bind_eq_some_iff.1 heq
    obtain ⟨⟨l1, off1, a1⟩, hrest, heq⟩ := Option.bind_eq_some_iff.1 heq
    rw [alignOff_eq hm, Option.ite_none_right_eq_some] at hx
    rw [fits63, Option.ite_none_right_eq_some] at hy
    cases hx.2
    cases hy.2
    obtain ⟨rfl, rfl, rfl⟩ := ih h hrest
    obtain ⟨rfl, rfl, rfl⟩ : _ = l ∧ _ = off' ∧ _ = a' := by simpa using heq
    exact ⟨rfl, rfl, rfl⟩

theorem placeMembers_fits (h : ∀ m ∈ ms, IsAlign m.align) {off a : Nat}
    (hfit : extentOf ms off + maxAlignment ms a < 2 ^ 63) : ∃ r, placeMembers ms off a = some r := by
  induction ms generalizing off a with
  | nil => exact ⟨_, rfl⟩
  | cons m ms ih =>
    have hpos : ∀ i ∈ m :: ms, 0 < i.align := fun i hi => (h i hi).pos
    obtain ⟨hm, h⟩ := List.forall_mem_cons.1 h
    have hoff : off ≤ alignUp off m.align := le_alignUp off hm.pos
    have hnext : alignUp off m.align + m.size ≤ extentOf (m :: ms) off :=
      Nat.le_trans (Nat.le_add_right _ _) (add_total_le_extent (fun i hi => hpos i (List.mem_cons_of_mem m hi)) _)
    have ha : m.align ≤ maxAlignment (m :: ms) a := le_maxAlignment.2 m List.mem_cons_self
    obtain ⟨r, hr⟩ := @ih h (alignUp off m.align + m.size) (max a m.align) hfit
    have hfits : fits63 (alignUp off m.align + m.size) = some (alignUp off m.align + m.size) := if_pos (by omega)
    rw [placeMembers, alignOff_eq hm, if_pos (by omega)]
    simp [hfits, hr]

/-- **The layout of members that are in their order**: what comes out, and when it does. -/
theorem layoutInOrder_some (h : ∀ m ∈ ms, IsAlign m.align) {t : MinicType} :
    layoutInOrder ms = some t ↔ extentOf ms 0 + maxAlignment ms 1 < 2 ^ 63 ∧
      t = ⟨alignUp (extentOf ms 0) (maxAlignment ms 1), maxAlignment ms 1,
        (placedMembers ms 0).map (fun p => p.1.at p.2), true⟩ := by
  have hone : IsAlign 1 := ⟨0, by decide, rfl⟩
  have hmax := isAlign_maxAlignment h hone
  constructor
  · intro heq
    obtain ⟨⟨l, off, a⟩, hp, heq⟩ := Option.bind_eq_some_iff.1 heq
    obtain ⟨rfl, rfl, rfl⟩ := placeMembers_some h hp
    obtain ⟨size, hs, heq⟩ := Option.bind_eq_some_iff.1 heq
    rw [alignOff_eq hmax, Option.ite_none_right_eq_some] at hs
    cases hs.2
    exact ⟨hs.1, (Option.some.inj heq).symm⟩
  · rintro ⟨hfit, rfl⟩
    obtain ⟨⟨l, off, a⟩, hp⟩ := placeMembers_fits h hfit
    obtain ⟨rfl, rfl, rfl⟩ := placeMembers_some h hp
    rw [layoutInOrder, hp]
    show (alignOff (extentOf ms 0) (maxAlignment ms 1)).bind _ = _
    rw [alignOff_eq hmax, if_pos hfit]
    rfl

/-! ## The order -/

variable {r : MinicTypeRegistry} {s t : MinicType}

/-- A type with a power of two for its alignment, and a multiple of it for its size. -/
def WellTyped (r : MinicTypeRegistry) (idx : Int) : Prop := IsAlign (mtyAlign r idx) ∧ mtyAlign r idx ∣ mtySize r idx

theorem memberAlignCmp_le {a b : MinicMember} :
    memberAlignCmp a b ≤ 0 ↔ b.align < a.align ∨ b.align = a.align ∧ a.offset ≤ b.offset := by
  rw [memberAlignCmp]
  split <;> omega

theorem memberAlignCmp_trans (a b c : MinicMember) (hab : decide (memberAlignCmp a b ≤ 0) = true)
    (hbc : decide (memberAlignCmp b c ≤ 0) = true) : decide (memberAlignCmp a c ≤ 0) = true := by
  rw [decide_eq_true_eq, memberAlignCmp_le] at *
  omega

theorem memberAlignCmp_total (a b : MinicMember) :
    (decide (memberAlignCmp a b ≤ 0) || decide (memberAlignCmp b a ≤ 0)) = true := by
  rw [Bool.or_eq_true, decide_eq_true_eq, decide_eq_true_eq, memberAlignCmp_le, memberAlignCmp_le]
  omega

theorem sortedMembers_perm (r : MinicTypeRegistry) (s : MinicType) : (sortedMembers r s).Perm (keyedMembers r s) :=
  List.mergeSort_perm _ _

/-- What a sorted member has of its type. -/
theorem sortedMembers_spec (hw : ∀ m ∈ s.members, WellTyped r m.mty) {m : MinicMember} (hm : m ∈ sortedMembers r s) :
    m.size = mtySize r m.mty ∧ m.align = mtyAlign r m.mty ∧ IsAlign m.align ∧ m.align ∣ m.size := by
  obtain ⟨i, hi, rfl⟩ := List.mem_mapIdx.1 ((sortedMembers_perm r s).mem_iff.1 hm)
  exact ⟨rfl, rfl, hw _ (List.getElem_mem hi)⟩

/-- An alignment divides those before it. -/
theorem sortedMembers_pairwise (hw : ∀ m ∈ s.members, WellTyped r m.mty) :
    (sortedMembers r s).Pairwise fun a b => b.align ∣ a.align := by
  have hsort : (sortedMembers r s).Pairwise fun a b => decide (memberAlignCmp a b ≤ 0) = true :=
    List.pairwise_mergeSort memberAlignCmp_trans memberAlignCmp_total _
  refine hsort.imp_of_mem fun {a b} ha hb h => ?_
  refine (sortedMembers_spec hw hb).2.2.1.dvd_of_le (sortedMembers_spec hw ha).2.2.1 ?_
  rw [decide_eq_true_eq, memberAlignCmp_le] at h
  omega

theorem keyedMembers_map (r : MinicTypeRegistry) (s : MinicType) :
    (keyedMembers r s).map (fun m => (m.name, m.mty)) = s.members.map fun m => (m.name, m.mty) := by
  refine List.ext_getElem (by simp [keyedMembers]) fun i _ _ => ?_
  simp [keyedMembers]

/-! ## Layouts -/

/-- The members have no byte in common. -/
def Separate (a b : MinicMember) : Prop :=
  ∀ x : Int, a.offset ≤ x → x < a.offset + a.size → b.offset ≤ x → ¬x < b.offset + b.size

/-- **A layout of the struct**: the same members, each at a multiple of its alignment and in a place of its own, and no
order of them takes less. -/
structure LaidOut (r : MinicTypeRegistry) (s t : MinicType) : Prop where
  members : (t.members.map fun m => (m.name, m.mty)).Perm (s.members.map fun m => (m.name, m.mty))
  typed : ∀ m ∈ t.members, m.size = mtySize r m.mty ∧ m.align = mtyAlign r m.mty
  aligned : ∀ m ∈ t.members, (m.align : Int) ∣ m.offset
  apart : t.members.Pairwise Separate
  inside : ∀ m ∈ t.members, 0 ≤ m.offset ∧ m.offset + m.size ≤ t.size
  align_le : ∀ m ∈ t.members, m.align ≤ t.align
  align_eq : t.align = 1 ∨ ∃ m ∈ t.members, m.align = t.align
  size_dvd : t.align ∣ t.size
  minimal : ∀ ms : List MinicMember, ms.Perm (keyedMembers r s) → ∀ u, layoutInOrder ms = some u → t.size ≤ u.size

/-- How much the members take. -/
abbrev totalOf (ms : List MinicMember) : Nat := total MinicMember.size ms

/-- The struct fits into 64 bits, and every member starts in the first 2 GiB; or it is empty, and the low 32 bits of
where it starts are no negative number. -/
def LayoutFits (r : MinicTypeRegistry) (s : MinicType) : Prop :=
  totalOf (sortedMembers r s) + maxAlignment (sortedMembers r s) 1 < 2 ^ 63 ∧
    ∀ pre m post, sortedMembers r s = pre ++ m :: post →
      totalOf pre < 2 ^ 31 ∨ m.size = 0 ∧ totalOf pre % 2 ^ 32 < 2 ^ 31

theorem int32_eq (off : Nat) : int32 off =
    if off % 2 ^ 32 < 2 ^ 31 then ((off % 2 ^ 32 : Nat) : Int) else ((off % 2 ^ 32 : Nat) : Int) - 2 ^ 32 := by
  rw [int32, BitVec.toInt_eq_toNat_cond, BitVec.toNat_ofNat]
  split <;> split <;> omega

section
variable (hw : ∀ m ∈ s.members, WellTyped r m.mty)
include hw

theorem sorted_pos : ∀ m ∈ sortedMembers r s, 0 < m.align := fun _ hm => (sortedMembers_spec hw hm).2.2.1.pos

theorem sorted_dvd : ∀ m ∈ sortedMembers r s, m.align ∣ m.size := fun _ hm => (sortedMembers_spec hw hm).2.2.2

theorem extentOf_sorted : extentOf (sortedMembers r s) 0 = totalOf (sortedMembers r s) :=
  (extent_of_dvd (sorted_pos hw) (sortedMembers_pairwise hw) (sorted_dvd hw) fun _ _ => Nat.dvd_zero _).trans
    (Nat.zero_add _)

theorem mem_placed_sorted : p ∈ placedMembers (sortedMembers r s) 0 ↔
    ∃ pre post, sortedMembers r s = pre ++ p.1 :: post ∧ p.2 = totalOf pre := by
  rw [mem_placed_of_dvd (sorted_pos hw) (sortedMembers_pairwise hw) (sorted_dvd hw) fun _ _ => Nat.dvd_zero _]
  simp only [Nat.zero_add]

theorem mem_sorted_of_placed (hp : p ∈ placedMembers (sortedMembers r s) 0) : p.1 ∈ sortedMembers r s := by
  obtain ⟨pre, post, heq, -⟩ := (mem_placed_sorted hw).1 hp
  rw [heq]
  simp

/-- The members in front of one are a layout of their own. -/
theorem extentOf_prefix {pre post : List MinicMember} (heq : sortedMembers r s = pre ++ post) :
    extentOf pre 0 = 0 + totalOf pre := by
  have hsub : ∀ m ∈ pre, m ∈ sortedMembers r s := fun m hm => heq ▸ List.mem_append_left post hm
  refine extent_of_dvd (fun m hm => sorted_pos hw m (hsub m hm)) ?_ (fun m hm => sorted_dvd hw m (hsub m hm))
    fun _ _ => Nat.dvd_zero _
  exact (List.pairwise_append.mp (heq ▸ sortedMembers_pairwise hw)).1

/-- What the layout is, where there is one. -/
theorem minicTypeLayout_some : minicTypeLayout r s = some t ↔
    totalOf (sortedMembers r s) + maxAlignment (sortedMembers r s) 1 < 2 ^ 63 ∧
      t = ⟨alignUp (totalOf (sortedMembers r s)) (maxAlignment (sortedMembers r s) 1),
        maxAlignment (sortedMembers r s) 1,
        (placedMembers (sortedMembers r s) 0).map (fun p => p.1.at p.2), true⟩ := by
  rw [minicTypeLayout, layoutInOrder_some fun m hm => (sortedMembers_spec hw hm).2.2.1, extentOf_sorted hw]

/-- Where the offsets are kept, they are what they should be, up to empty members. -/
theorem LayoutFits.offset (h : LayoutFits r s) (hp : p ∈ placedMembers (sortedMembers r s) 0) :
    int32 p.2 = ((p.2 % 2 ^ 32 : Nat) : Int) ∧ (p.1.size ≠ 0 → p.2 % 2 ^ 32 = p.2) := by
  obtain ⟨pre, post, heq, hpre⟩ := (mem_placed_sorted hw).1 hp
  have hfit := h.2 pre p.1 post heq
  rw [← hpre] at hfit
  rw [int32_eq]
  constructor
  · rw [if_pos (by omega)]
  · intro hne
    omega

end

theorem maxAlignment_eq (ms : List MinicMember) (a : Nat) :
    maxAlignment ms a = a ∨ ∃ m ∈ ms, m.align = maxAlignment ms a := by
  induction ms generalizing a with
  | nil => exact .inl rfl
  | cons m ms ih =>
    rcases ih (max a m.align) with h | ⟨n, hn, h⟩
    · rcases Nat.le_total a m.align with hle | hle
      · exact .inr ⟨m, List.mem_cons_self, by rw [maxAlignment, List.foldl_cons, ← maxAlignment, h,
          Nat.max_eq_right hle]⟩
      · exact .inl (by rw [maxAlignment, List.foldl_cons, ← maxAlignment, h, Nat.max_eq_left hle])
    · exact .inr ⟨n, List.mem_cons_of_mem m hn, h⟩

theorem maxAlignment_perm {ms ms' : List MinicMember} (h : ms.Perm ms') (a : Nat) :
    maxAlignment ms a = maxAlignment ms' a :=
  haveI : RightCommutative fun (a : Nat) (m : MinicMember) => max a m.align := ⟨fun a _ _ => Nat.max_right_comm a _ _⟩
  h.foldl_eq a

/-- Placing changes nothing but the offsets. -/
theorem map_placedMembers {β : Type*} (f : MinicMember → β) (hf : ∀ m off, f (m.at off) = f m) (ms : List MinicMember)
    (off : Nat) : ((placedMembers ms off).map fun p => p.1.at p.2).map f = ms.map f := by
  rw [List.map_map]
  calc (placedMembers ms off).map (f ∘ fun p => p.1.at p.2) = (placedMembers ms off).map (f ∘ Prod.fst) :=
        List.map_congr_left fun p _ => hf p.1 p.2
    _ = ms.map f := by rw [← List.map_map, map_placed]

section
variable (hw : ∀ m ∈ s.members, WellTyped r m.mty)
include hw

theorem LayoutFits.dvd_offset (h : LayoutFits r s)
    (hp : p ∈ placedMembers (sortedMembers r s) 0) : (p.1.align : Int) ∣ int32 p.2 := by
  obtain ⟨k, hk, hp2⟩ := (sortedMembers_spec hw (mem_sorted_of_placed hw hp)).2.2.1
  have hdvd : p.1.align ∣ p.2 % 2 ^ 32 :=
    (Nat.dvd_mod_iff (hp2 ▸ Nat.pow_dvd_pow 2 (by omega))).2 (placed_spec (sorted_pos hw) hp).1
  rw [(h.offset hw hp).1]
  exact Int.natCast_dvd_natCast.2 hdvd

/-- Two members are apart in the layout where they are apart in the order. -/
theorem LayoutFits.separate (h : LayoutFits r s) {p q : MinicMember × Nat}
    (hp : p ∈ placedMembers (sortedMembers r s) 0) (hq : q ∈ placedMembers (sortedMembers r s) 0)
    (hpq : p.2 + p.1.size ≤ q.2) : Separate (p.1.at p.2) (q.1.at q.2) := by
  intro x h1 h2 h3 h4
  change int32 p.2 ≤ x at h1
  change x < int32 p.2 + p.1.size at h2
  change int32 q.2 ≤ x at h3
  change x < int32 q.2 + q.1.size at h4
  obtain ⟨hp32, hpne⟩ := h.offset hw hp
  obtain ⟨hq32, hqne⟩ := h.offset hw hq
  rw [hp32, hpne (by omega)] at h1 h2
  rw [hq32, hqne (by omega)] at h3 h4
  omega

theorem LayoutFits.inside (h : LayoutFits r s) (hp : p ∈ placedMembers (sortedMembers r s) 0) (ha : 0 < a) :
    0 ≤ int32 p.2 ∧ int32 p.2 + p.1.size ≤ (alignUp (totalOf (sortedMembers r s)) a : Nat) := by
  have hend : p.2 + p.1.size ≤ totalOf (sortedMembers r s) :=
    Nat.le_trans (placed_spec (sorted_pos hw) hp).2.2 (Nat.le_of_eq (extentOf_sorted hw))
  have hup := @le_alignUp _ (totalOf (sortedMembers r s)) ha
  rw [(h.offset hw hp).1]
  omega

/-- **No order takes less.** -/
theorem sorted_minimal (hms : ms.Perm (keyedMembers r s)) {u : MinicType} (hu : layoutInOrder ms = some u) :
    alignUp (totalOf (sortedMembers r s)) (maxAlignment (sortedMembers r s) 1) ≤ u.size := by
  have hperm : ms.Perm (sortedMembers r s) := hms.trans (sortedMembers_perm r s).symm
  have halign : ∀ m ∈ ms, IsAlign m.align := fun m hm => (sortedMembers_spec hw (hperm.mem_iff.1 hm)).2.2.1
  obtain ⟨-, rfl⟩ := (layoutInOrder_some halign).1 hu
  have hle : totalOf (sortedMembers r s) ≤ extentOf ms 0 := Nat.le_trans (Nat.le_of_eq (extentOf_sorted hw).symm)
    (extent_le_of_perm (sorted_pos hw) (sortedMembers_pairwise hw) (sorted_dvd hw) hperm)
  rw [maxAlignment_perm hperm]
  exact alignUp_mono hle _

theorem laidOut_of_fits (h : LayoutFits r s) (ht : minicTypeLayout r s = some t) : LaidOut r s t := by
  obtain ⟨-, rfl⟩ := (minicTypeLayout_some hw).1 ht
  have hall : ∀ {P : MinicMember → Prop}, (∀ p ∈ placedMembers (sortedMembers r s) 0, P (p.1.at p.2)) →
      ∀ m ∈ (placedMembers (sortedMembers r s) 0).map (fun p => p.1.at p.2), P m := by
    rintro P hP m hm
    obtain ⟨p, hp, rfl⟩ := List.mem_map.1 hm
    exact hP p hp
  have hspec : ∀ p ∈ placedMembers (sortedMembers r s) 0, _ := fun p hp =>
    sortedMembers_spec hw (mem_sorted_of_placed hw hp)
  have hmax : IsAlign (maxAlignment (sortedMembers r s) 1) :=
    isAlign_maxAlignment (fun m hm => (sortedMembers_spec hw hm).2.2.1) ⟨0, by decide, rfl⟩
  refine
    { members := ?_
      typed := hall fun p hp => ⟨(hspec p hp).1, (hspec p hp).2.1⟩
      aligned := hall fun p hp => h.dvd_offset hw hp
      apart := ?_
      inside := hall fun p hp => h.inside hw hp hmax.pos
      align_le := hall fun p hp => le_maxAlignment.2 p.1 (mem_sorted_of_placed hw hp)
      align_eq := ?_
      size_dvd := dvd_alignUp _ _
      minimal := fun ms hms u hu => sorted_minimal hw hms hu }
  · rw [map_placedMembers _ (fun _ _ => rfl), ← keyedMembers_map r s]
    exact (sortedMembers_perm r s).map _
  · exact List.pairwise_map.2 ((placed_pairwise (sorted_pos hw) 0).imp_of_mem fun hp hq => h.separate hw hp hq)
  · rcases maxAlignment_eq (sortedMembers r s) 1 with heq | ⟨m, hm, heq⟩
    · exact .inl heq
    · have hmem : m ∈ (placedMembers (sortedMembers r s) 0).map Prod.fst := by rwa [map_placed]
      obtain ⟨p, hp, rfl⟩ := List.mem_map.1 hmem
      exact .inr ⟨p.1.at p.2, List.mem_map_of_mem hp, heq⟩

end

theorem fits_of_laidOut (hw : ∀ m ∈ s.members, WellTyped r m.mty) (ht : minicTypeLayout r s = some t)
    (h : LaidOut r s t) : LayoutFits r s := by
  obtain ⟨hfit, rfl⟩ := (minicTypeLayout_some hw).1 ht
  refine ⟨hfit, fun pre m post heq => ?_⟩
  have hm : (m, totalOf pre) ∈ placedMembers (sortedMembers r s) 0 := (mem_placed_sorted hw).2 ⟨pre, post, heq, rfl⟩
  have hinside : 0 ≤ int32 (totalOf pre) := (h.inside _ (List.mem_map_of_mem hm)).1
  rw [int32_eq] at hinside
  have hmod : totalOf pre % 2 ^ 32 < 2 ^ 31 := by
    by_contra hge
    rw [if_neg hge] at hinside
    omega
  by_contra hne
  rw [not_or] at hne
  -- another member has the byte at the truncated offset
  have hext : extent MinicMember.size MinicMember.align pre 0 = 0 + totalOf pre := extentOf_prefix hw heq
  have hpos : ∀ i ∈ pre, 0 < i.align := fun i hi => sorted_pos hw i (heq ▸ List.mem_append_left _ hi)
  obtain ⟨q, hq, hle, hlt⟩ := exists_placed_of_lt hpos hext (Nat.zero_le (totalOf pre % 2 ^ 32)) (by omega)
  have hplace : placedMembers (sortedMembers r s) 0 =
      placedMembers pre 0 ++ (m, totalOf pre) :: placedMembers post (totalOf pre + m.size) := by
    rw [heq, placedMembers, placed_append, hext, Nat.zero_add, placed,
      alignUp_of_dvd (sorted_pos hw m (mem_sorted_of_placed hw hm)) (placed_spec (sorted_pos hw) hm).1]
  have hapart : Separate (q.1.at q.2) (m.at (totalOf pre)) := by
    have hpair := h.apart
    rw [show (⟨_, _, _, _⟩ : MinicType).members = (placedMembers (sortedMembers r s) 0).map (fun p => p.1.at p.2) from rfl,
      hplace, List.map_append, List.pairwise_append] at hpair
    exact hpair.2.2 _ (List.mem_map_of_mem hq) _ (List.mem_map_of_mem List.mem_cons_self)
  have hq32 : int32 q.2 = q.2 := by rw [int32_eq, if_pos (by omega)]; omega
  have hm32 : int32 (totalOf pre) = ((totalOf pre % 2 ^ 32 : Nat) : Int) := by rw [int32_eq, if_pos hmod]
  refine hapart ((totalOf pre % 2 ^ 32 : Nat) : Int) ?_ ?_ ?_ ?_
  · show int32 q.2 ≤ _
    omega
  · show _ < int32 q.2 + (q.1.size : Int)
    omega
  · show int32 (totalOf pre) ≤ _
    omega
  · show _ < int32 (totalOf pre) + (m.size : Int)
    omega

/-- **The layout of a struct** is as it should be exactly where it fits. -/
theorem layout_iff (r : MinicTypeRegistry) (s : MinicType) (hw : ∀ m ∈ s.members, WellTyped r m.mty) :
    (∃ t, minicTypeLayout r s = some t ∧ LaidOut r s t) ↔ LayoutFits r s := by
  constructor
  · rintro ⟨t, ht, h⟩
    exact fits_of_laidOut hw ht h
  · intro h
    have ht := (minicTypeLayout_some hw).2 ⟨h.1, rfl⟩
    exact ⟨_, ht, laidOut_of_fits hw h ht⟩

/-- Small members fit. -/
theorem fits_of_small (hlen : s.members.length ≤ 32)
    (h : ∀ m ∈ s.members, mtySize r m.mty ≤ 8 ∧ mtyAlign r m.mty ≤ 8) : LayoutFits r s := by
  have hsize : ∀ ms : List MinicMember, (∀ m ∈ ms, m.size ≤ 8) → totalOf ms ≤ 8 * ms.length := by
    intro ms hms
    induction ms with
    | nil => exact Nat.le_refl 0
    | cons m ms ih =>
      obtain ⟨hm, hms⟩ := List.forall_mem_cons.1 hms
      have htail : total MinicMember.size ms ≤ 8 * ms.length := ih hms
      rw [totalOf, total_cons, List.length_cons]
      omega
  have hmem : ∀ m ∈ sortedMembers r s, m.size ≤ 8 ∧ m.align ≤ 8 := by
    intro m hm
    obtain ⟨i, hi, rfl⟩ := List.mem_mapIdx.1 ((sortedMembers_perm r s).mem_iff.1 hm)
    exact h _ (List.getElem_mem hi)
  have hsorted : (sortedMembers r s).length ≤ 32 := by
    rw [(sortedMembers_perm r s).length_eq, keyedMembers, List.length_mapIdx]
    exact hlen
  have htotal := hsize _ fun m hm => (hmem m hm).1
  refine ⟨?_, fun pre m post heq => .inl ?_⟩
  · rcases maxAlignment_eq (sortedMembers r s) 1 with heq | ⟨m, hm, heq⟩
    · omega
    · have := (hmem m hm).2
      omega
  · have hpre := hsize pre fun n hn => (hmem n (heq ▸ List.mem_append_left _ hn)).1
    have hlen' : pre.length ≤ 32 := by
      rw [heq, List.length_append] at hsorted
      omega
    omega

/-- `MTY_I64`, `MTY_U8` and `void *`. -/
def primitiveTypes : MinicTypeRegistry := [⟨8, 8, [], true⟩, ⟨1, 1, [], true⟩, ⟨8, 8, [], true⟩]

/-- `struct { char c1; long x; char c2; }` -/
def mixedStruct : MinicType := ⟨0, 1, [⟨"c1", 1, 0, 0, 0⟩, ⟨"x", 0, 0, 0, 0⟩, ⟨"c2", 1, 0, 0, 0⟩], false⟩

theorem layout_iff_mixed : ∃ t, minicTypeLayout primitiveTypes mixedStruct = some t ∧
    LaidOut primitiveTypes mixedStruct t := by
  refine (layout_iff primitiveTypes mixedStruct ?_).2 (fits_of_small (by decide) (by decide))
  simp only [mixedStruct, List.forall_mem_cons]
  exact ⟨⟨⟨0, by decide, rfl⟩, by decide⟩, ⟨⟨3, by decide, rfl⟩, by decide⟩, ⟨⟨0, by decide, rfl⟩, by decide⟩,
    fun _ h => absurd h List.not_mem_nil⟩

/-- An array of 2 GiB, as the only type. -/
def hugeTypes : MinicTypeRegistry := [⟨2 ^ 31, 1, [], true⟩]

/-- Two such arrays. -/
def hugeStruct : MinicType := ⟨0, 1, [⟨"a", 0, 0, 0, 0⟩, ⟨"b", 0, 0, 0, 0⟩], false⟩

/-- The second one gets the offset -2 ^ 31. -/
theorem layout_huge : ¬∃ t, minicTypeLayout hugeTypes hugeStruct = some t ∧ LaidOut hugeTypes hugeStruct t := by
  rintro ⟨t, ht, h⟩
  have hw : ∀ m ∈ hugeStruct.members, WellTyped hugeTypes m.mty := by
    simp only [hugeStruct, List.forall_mem_cons]
    exact ⟨⟨⟨0, by decide, rfl⟩, by decide⟩, ⟨⟨0, by decide, rfl⟩, by decide⟩, fun _ h => absurd h List.not_mem_nil⟩
  have hsorted : sortedMembers hugeTypes hugeStruct = [⟨"a", 0, 0, 2 ^ 31, 1⟩, ⟨"b", 0, 1, 2 ^ 31, 1⟩] :=
    List.mergeSort_of_pairwise (by simp [keyedMembers, hugeStruct, mtyAlign, mtyType, hugeTypes, memberAlignCmp])
  have hfit := (fits_of_laidOut hw ht h).2 [⟨"a", 0, 0, 2 ^ 31, 1⟩] ⟨"b", 0, 1, 2 ^ 31, 1⟩ [] hsorted
  exact absurd hfit (by decide)

end WuBuOS.Jit.TypeLayout
