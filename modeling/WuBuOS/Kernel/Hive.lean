import Mathlib.Data.List.Perm.Basic
import Mathlib.Data.List.Range
import WuBuOS.Lib.Cursor
import WuBuOS.Lib.Linked
import WuBuOS.Lib.Runs

/-!
# The hive

`kernel/wubu_hive.c`.  A hive is a bag of pointers.  They are kept in blocks with a fixed number of
slots, and a block is never given back, so that a pointer stays in its slot until it is erased.

Which slots are in use is recorded three times.  Every block has a bit for each slot, a list of its
dead slots, which is threaded through the slots themselves, and counters.  `BlockOk` says that the bits
and the list agree; that the counters do is part of `Ok`.

* Iteration follows the bits.  What it goes through is `items`, in the order of the blocks and of the
  slots in them, and a call of `wubu_hive_next` moves to the first item above (`next_eq`).  The rest is
  the theory of such a cursor.
* `reachable_spec` says of all sequences of calls that the items are the elements that have been inserted
  and not erased, and that the three records agree; and that a traversal which erases at its iterator
  visits all of them.
-/

namespace WuBuOS.Hives

open Linked
open Function (update update_of_ne update_self)

variable {elem : Nat}

/-! ## Blocks -/

/-- `WUBU_HIVE_NONE`, which is `(size_t)-1`. -/
def none64 : Nat := 2 ^ 64 - 1

/-- `WUBU_HIVE_DEFAULT_CAP`. -/
def defaultCap : Nat := 32

/-- `wubu_hive_block_t`.  A slot holds a pointer, or the index of another slot. -/
structure Block where
  slots : Nat → Nat
  skip : Nat → UInt8
  live : Nat
  cap : Nat
  freeHead : Nat

def skipGet (skip : Nat → UInt8) (i : Nat) : Bool := (skip (i / 8)).toNat.testBit (i % 8)

def skipSet (skip : Nat → UInt8) (i : Nat) : Nat → UInt8 :=
  update skip (i / 8) (UInt8.ofNat ((skip (i / 8)).toNat ||| 2 ^ (i % 8)))

def skipClr (skip : Nat → UInt8) (i : Nat) : Nat → UInt8 :=
  update skip (i / 8)
    (UInt8.ofNat ((skip (i / 8)).toNat &&& ((2 ^ 8 - 1) ^^^ 2 ^ (i % 8))))

/-- A block all of whose slots are free: each of them leads to the next one. -/
def freshBlock (cap : Nat) : Block where
  slots i := if i + 1 < cap then i + 1 else none64
  skip _ := 0xFF
  live := 0
  cap := cap
  freeHead := 0

/-- A slot of the block is taken from its freelist, for this element. -/
def Block.insert (b : Block) (elem : Nat) : Block :=
  { b with
    freeHead := b.slots b.freeHead
    slots := update b.slots b.freeHead elem
    skip := skipClr b.skip b.freeHead
    live := b.live + 1 }

/-- The slot goes to the freelist. -/
def Block.erase (b : Block) (idx : Nat) : Block :=
  { b with
    slots := update b.slots idx b.freeHead
    freeHead := idx
    skip := skipSet b.skip idx
    live := b.live - 1 }

/-- The first slot in use among the `n` from `i` on. -/
def Block.scan (b : Block) : Nat → Nat → Option Nat
  | _, 0 => none
  | i, n + 1 => if skipGet b.skip i then b.scan (i + 1) n else some i

/-- `wubu_hive_block_first_live`. -/
def Block.firstLive (b : Block) : Nat := (b.scan 0 b.cap).getD none64

/-! ## The hive -/

/-- `wubu_hive_t`.  The blocks are in the order in which they are linked; they are only ever added at
the end, by an allocator that does not fail. -/
structure Hive where
  blocks : List Block
  blockCap : Nat
  size : Nat
  capacity : Nat

/-- `wubu_hive_iter_t`; a block is its place in the list. -/
structure Iter where
  block : Option Nat
  idx : Nat
  deriving DecidableEq, Repr

def wubuHiveNew (blockCap : UInt64) : Hive where
  blocks := []
  blockCap := if blockCap = 0 then defaultCap else blockCap.toNat
  size := 0
  capacity := 0

def wubuHiveBlockNew (h : Hive) : Hive :=
  { h with
    blocks := h.blocks ++ [freshBlock h.blockCap]
    capacity := h.capacity + h.blockCap }

/-- The element goes to the first block that has a free slot, if there is one. -/
def insertIn (elem : Nat) : List Block → Option (List Block)
  | [] => none
  | b :: blocks =>
    if b.freeHead = none64 then (insertIn elem blocks).map (b :: ·)
    else some (b.insert elem :: blocks)

/-- `wubu_hive_insert`; the element `0` is the null pointer. -/
def wubuHiveInsert (h : Hive) (elem : Nat) : Nat × Hive :=
  if elem = 0 then (0, h)
  else
    match insertIn elem h.blocks with
    | some blocks => (elem, { h with blocks := blocks, size := h.size + 1 })
    | none =>
      (elem, { wubuHiveBlockNew h with
        blocks := h.blocks ++ [(freshBlock h.blockCap).insert elem]
        size := h.size + 1 })

/-- `wubu_hive_erase_at`; whether it returns `1`. -/
def wubuHiveEraseAt (h : Hive) (it : Iter) : Bool × Hive :=
  match it.block with
  | none => (false, h)
  | some k =>
    match h.blocks[k]? with
    | none => (false, h)
    | some b =>
      if b.cap ≤ it.idx ∨ skipGet b.skip it.idx then (false, h)
      else (true, { h with blocks := h.blocks.set k (b.erase it.idx), size := h.size - 1 })

def wubuHiveClear (h : Hive) : Hive :=
  { h with blocks := h.blocks.map fun b => freshBlock b.cap, size := 0 }

/-! ## Iteration -/

/-- The first element in the blocks from number `k` on, and the iterator at it. -/
def firstIn : Nat → List Block → Nat × Iter
  | _, [] => (0, ⟨none, 0⟩)
  | k, b :: blocks =>
    if b.firstLive ≠ none64 then (b.slots b.firstLive, ⟨some k, b.firstLive⟩)
    else firstIn (k + 1) blocks

def wubuHiveFirst (h : Hive) : Nat × Iter := firstIn 0 h.blocks

def wubuHiveNext (h : Hive) (it : Iter) : Nat × Iter :=
  match it.block with
  | none => (0, it)
  | some k =>
    match h.blocks[k]? with
    | none => (0, it)
    | some b =>
      match b.scan (it.idx + 1) (b.cap - (it.idx + 1)) with
      | some i => (b.slots i, ⟨some k, i⟩)
      | none => firstIn (k + 1) (h.blocks.drop (k + 1))

/-- A loop over the hive goes on as long as the element is not null. -/
def item (r : Nat × Iter) : Option (Nat × Iter) := if r.1 = 0 then none else some r

def wubuHiveErase (h : Hive) (elem : Nat) : Nat × Hive :=
  if elem = 0 then (0, h)
  else
    match Cursor.seek (fun x => item (wubuHiveNext h x.2)) (fun x => x.1 == elem) (h.size + 1)
      (item (wubuHiveFirst h)) with
    | some (some x) => (elem, (wubuHiveEraseAt h x.2).2)
    | _ => (0, h)

/-- A loop over the hive that erases the `n`-th element it visits if `d n`, while it is there. -/
def sweep (d : Nat → Bool) (fuel : Nat) (h : Hive) : Option (List (Nat × Iter) × Hive) :=
  Cursor.sweep (fun h x => item (wubuHiveNext h x.2)) (fun h x => (wubuHiveEraseAt h x.2).2) d fuel 0 h
    (item (wubuHiveFirst h))

/-- A loop over the hive that does nothing. -/
def traverse (fuel : Nat) (h : Hive) : Option (List (Nat × Iter)) :=
  (sweep (fun _ => false) fuel h).map Prod.fst

/-! ## The bits of a block -/

theorem testBit_ofNat (n : Nat) {k : Nat} (hk : k < 8) : (UInt8.ofNat n).toNat.testBit k = n.testBit k := by
  rw [UInt8.toNat_ofNat', Nat.testBit_mod_two_pow, decide_eq_true hk, Bool.true_and]

theorem skipGet_skipSet (skip : Nat → UInt8) (i j : Nat) :
    skipGet (skipSet skip i) j = (decide (i = j) || skipGet skip j) := by
  have hj : j % 8 < 8 := Nat.mod_lt j (by decide)
  rw [skipGet, skipSet]
  by_cases hb : j / 8 = i / 8
  · rw [hb, update_self, testBit_ofNat _ hj, Nat.testBit_or, Nat.testBit_two_pow, Bool.or_comm, skipGet, hb]
    congr 1
    exact decide_eq_decide.2 (by omega)
  · rw [update_of_ne hb, decide_eq_false (by rintro rfl; exact hb rfl), Bool.false_or, skipGet]

theorem skipGet_skipClr (skip : Nat → UInt8) (i j : Nat) :
    skipGet (skipClr skip i) j = (!decide (i = j) && skipGet skip j) := by
  have hj : j % 8 < 8 := Nat.mod_lt j (by decide)
  rw [skipGet, skipClr]
  by_cases hb : j / 8 = i / 8
  · rw [hb, update_self, testBit_ofNat _ hj, Nat.testBit_and, Nat.testBit_xor,
      Nat.testBit_two_pow_sub_one, Nat.testBit_two_pow, decide_eq_true hj, Bool.true_xor, Bool.and_comm,
      skipGet, hb]
    congr 2
    exact decide_eq_decide.2 (by omega)
  · rw [update_of_ne hb, decide_eq_false (by rintro rfl; exact hb rfl), Bool.not_false, Bool.true_and, skipGet]

theorem skipGet_fresh (i : Nat) : skipGet (fun _ => 0xFF) i = true := by
  have hi : i % 8 < 8 := Nat.mod_lt i (by decide)
  change (2 ^ 8 - 1).testBit (i % 8) = true
  rw [Nat.testBit_two_pow_sub_one, decide_eq_true hi]

/-! ## What is in a block -/

/-- The slots in use. -/
def Block.used (b : Block) : List Nat := (List.range b.cap).filter fun i => !skipGet b.skip i

/-- **The records of a block agree**: its freelist goes through its dead slots, the others hold
pointers, and there are as many as it counts. -/
structure BlockOk (cap : Nat) (b : Block) : Prop where
  cap : b.cap = cap
  free : ∃ l, IsList b.slots none64 b.freeHead l ∧ ∀ i, i ∈ l ↔ i < b.cap ∧ skipGet b.skip i = true
  elems : ∀ i < b.cap, skipGet b.skip i = false → b.slots i ≠ 0
  live : b.live = b.used.length

variable {b : Block} {cap i n k : Nat}

theorem mem_used : i ∈ b.used ↔ i < b.cap ∧ skipGet b.skip i = false := by
  rw [Block.used, List.mem_filter, List.mem_range, Bool.not_eq_true']

theorem filter_ne {α : Type} [DecidableEq α] [BEq α] [LawfulBEq α] {l : List α} {a : α} (hl : l.Nodup) :
    l.filter (· ≠ a) = l.erase a := by
  rw [hl.erase_eq_filter]
  exact List.filter_congr fun _ _ => Bool.eq_iff_iff.2 (by simp)

theorem nodup_used : b.used.Nodup := List.nodup_range.filter _

/-- The freelist of a fresh block, from a slot on. -/
theorem isList_fresh (hcap : cap < 2 ^ 64) (n : Nat) : ∀ i, i + n = cap → 0 < n →
    IsList (freshBlock cap).slots none64 i (List.range' i n) := by
  induction n with
  | zero => exact fun _ _ h => absurd h (Nat.lt_irrefl 0)
  | succ n ih =>
    intro i hi _
    rw [List.range'_succ]
    refine ⟨rfl, by rw [none64]; omega, ?_⟩
    change IsList _ _ (if i + 1 < cap then i + 1 else none64) _
    by_cases hn : 0 < n
    · rw [if_pos (by omega)]
      exact ih (i + 1) (by omega) hn
    · obtain rfl : n = 0 := by omega
      rw [if_neg (by omega)]
      rfl

theorem used_fresh (cap : Nat) : (freshBlock cap).used = [] := by
  rw [Block.used, List.filter_eq_nil_iff]
  intro i _
  rw [show (freshBlock cap).skip = fun _ => 0xFF from rfl, skipGet_fresh]
  exact Bool.false_ne_true

theorem blockOk_fresh (hpos : 0 < cap) (hcap : cap < 2 ^ 64) : BlockOk cap (freshBlock cap) where
  cap := rfl
  free := by
    refine ⟨List.range' 0 cap, isList_fresh hcap cap 0 (Nat.zero_add cap) hpos, fun i => ?_⟩
    rw [List.mem_range'_1, show (freshBlock cap).skip = fun _ => 0xFF from rfl, skipGet_fresh]
    change _ ↔ i < cap ∧ _
    simp
  elems i _ hi := by
    rw [show (freshBlock cap).skip = fun _ => 0xFF from rfl, skipGet_fresh] at hi
    cases hi
  live := by rw [used_fresh]; rfl

theorem BlockOk.freeHead_free (h : BlockOk cap b) (hb : b.freeHead ≠ none64) :
    b.freeHead < b.cap ∧ skipGet b.skip b.freeHead = true := by
  obtain ⟨l, hl, hmem⟩ := h.free
  cases l with
  | nil => exact absurd hl hb
  | cons a l =>
    obtain rfl : b.freeHead = a := hl.1
    exact (hmem _).1 List.mem_cons_self

theorem mem_used_insert {elem j : Nat} (hi : b.freeHead < b.cap) :
    j ∈ (b.insert elem).used ↔ j = b.freeHead ∨ j ∈ b.used := by
  rw [mem_used, mem_used]
  change j < b.cap ∧ skipGet (skipClr b.skip b.freeHead) j = false ↔ _
  rw [skipGet_skipClr]
  by_cases hj : b.freeHead = j
  · subst hj
    simp [hi]
  · simp [hj, Ne.symm hj]

theorem used_erase : (b.erase i).used = b.used.filter (· ≠ i) := by
  rw [Block.used, Block.used, List.filter_filter]
  refine List.filter_congr fun j _ => ?_
  change (!skipGet (skipSet b.skip i) j) = _
  rw [skipGet_skipSet, Bool.not_or]
  congr 1
  by_cases hj : i = j
  · simp [hj]
  · simp [hj, Ne.symm hj]

theorem used_insert (h : BlockOk cap b) (hb : b.freeHead ≠ none64) :
    (b.insert elem).used.Perm (b.freeHead :: b.used) := by
  obtain ⟨hlt, hdead⟩ := h.freeHead_free hb
  refine (List.perm_ext_iff_of_nodup nodup_used (List.nodup_cons.2 ⟨?_, nodup_used⟩)).2 fun j => ?_
  · rw [mem_used, hdead]
    exact fun h => Bool.noConfusion h.2
  · rw [mem_used_insert hlt, List.mem_cons]

/-- The elements of a block. -/
def Block.elements (b : Block) : List Nat := b.used.map b.slots

theorem elements_insert (h : BlockOk cap b) (hb : b.freeHead ≠ none64) :
    (b.insert elem).elements.Perm (elem :: b.elements) := by
  have hdead := (h.freeHead_free hb).2
  refine ((used_insert h hb).map (b.insert elem).slots).trans ?_
  rw [List.map_cons, show (b.insert elem).slots b.freeHead = elem from update_self .., Block.elements]
  refine .of_eq (congrArg _ (List.map_congr_left fun j hj => update_of_ne ?_ ..))
  rintro rfl
  rw [(mem_used.1 hj).2] at hdead
  cases hdead

theorem BlockOk.insert (h : BlockOk cap b) (hb : b.freeHead ≠ none64) (helem : elem ≠ 0) :
    BlockOk cap (b.insert elem) := by
  refine ⟨h.cap, ?_, fun i hi hlive => ?_, ?_⟩
  · obtain ⟨l, hl, hmem⟩ := h.free
    cases l with
    | nil => exact absurd hl hb
    | cons a l =>
      have hnot : a ∉ l := (List.nodup_cons.1 hl.nodup).1
      obtain ⟨ha, -, hl⟩ := hl
      subst ha
      have hne : ∀ j ∈ l, j ≠ b.freeHead := fun j hj h => hnot (h ▸ hj)
      refine ⟨l, hl.congr fun j hj => update_of_ne (hne j hj) .., fun j => ?_⟩
      change _ ↔ j < b.cap ∧ skipGet (skipClr b.skip b.freeHead) j = true
      have hj := hmem j
      rw [List.mem_cons] at hj
      rw [skipGet_skipClr]
      by_cases hja : b.freeHead = j
      · subst hja
        simp [hnot]
      · simp only [hja, Ne.symm hja, false_or, decide_false, Bool.not_false, Bool.true_and] at hj ⊢
        exact hj
  · change skipGet (skipClr b.skip b.freeHead) i = false at hlive
    change update b.slots b.freeHead elem i ≠ 0
    by_cases hi' : i = b.freeHead
    · rw [hi', update_self]
      exact helem
    · rw [skipGet_skipClr, decide_eq_false (Ne.symm hi'), Bool.not_false, Bool.true_and] at hlive
      rw [update_of_ne hi']
      exact h.elems i hi hlive
  · rw [(used_insert h hb).length_eq, List.length_cons, ← h.live]
    rfl

theorem BlockOk.erase (h : BlockOk cap b) (hcap : cap < 2 ^ 64) (hi : i < b.cap)
    (hlive : skipGet b.skip i = false) : BlockOk cap (b.erase i) := by
  have hused : i ∈ b.used := mem_used.2 ⟨hi, hlive⟩
  refine ⟨h.cap, ?_, fun j hj hj' => ?_, ?_⟩
  · obtain ⟨l, hl, hmem⟩ := h.free
    have hnot : i ∉ l := by
      rw [hmem, hlive]
      exact fun h => Bool.noConfusion h.2
    have hne : ∀ j ∈ l, j ≠ i := fun j hj h => hnot (h ▸ hj)
    have hnone : i ≠ none64 := by
      have := h.cap
      rw [none64]
      omega
    refine ⟨i :: l, hl.push hnone (update_self ..) fun j hj =>
      update_of_ne (hne j hj) .., fun j => ?_⟩
    change _ ↔ j < b.cap ∧ skipGet (skipSet b.skip i) j = true
    rw [List.mem_cons, hmem, skipGet_skipSet]
    by_cases hj : i = j
    · subst hj
      simp [hi]
    · simp [hj, Ne.symm hj]
  · change skipGet (skipSet b.skip i) j = false at hj'
    change update b.slots i b.freeHead j ≠ 0
    rw [skipGet_skipSet, Bool.or_eq_false_iff] at hj'
    rw [update_of_ne (Ne.symm (of_decide_eq_false hj'.1))]
    exact h.elems j hj hj'.2
  · change b.live - 1 = _
    rw [used_erase, h.live, filter_ne nodup_used, List.length_erase_of_mem hused]

/-! ## What is in the hive -/

/-- The items of the blocks from number `k` on. -/
def itemsIn : Nat → List Block → List (Nat × Iter)
  | _, [] => []
  | k, b :: blocks => b.used.map (fun i => (b.slots i, ⟨some k, i⟩)) ++ itemsIn (k + 1) blocks

/-- **The items of the hive**: its elements, and the iterators at them. -/
def Hive.items (h : Hive) : List (Nat × Iter) := itemsIn 0 h.blocks

/-- The order of the items. -/
def Before (x y : Nat × Iter) : Prop :=
  match x.2.block, y.2.block with
  | some k, some k' => k < k' ∨ (k = k' ∧ x.2.idx < y.2.idx)
  | _, _ => False

instance : DecidableRel Before := fun x y => by
  unfold Before
  split
  · exact inferInstance
  · exact inferInstance

theorem before_irrefl (x : Nat × Iter) : ¬ Before x x := by
  rw [Before]
  split
  · next k k' hk hk' =>
    cases hk.symm.trans hk'
    omega
  · exact id

theorem before_trans (x y z : Nat × Iter) (h : Before x y) (h' : Before y z) : Before x z := by
  obtain ⟨ex, ⟨kx, ix⟩⟩ := x
  obtain ⟨ey, ⟨ky, iy⟩⟩ := y
  obtain ⟨ez, ⟨kz, iz⟩⟩ := z
  cases kx with
  | none => exact h
  | some kx =>
    cases ky with
    | none => exact absurd h id
    | some ky =>
      cases kz with
      | none => exact absurd h' id
      | some kz =>
        simp only [Before] at h h' ⊢
        omega

variable {blocks : List Block} {h : Hive} {x : Nat × Iter}

theorem mem_itemsIn : x ∈ itemsIn k blocks ↔
    ∃ j b, blocks[j]? = some b ∧ ∃ i ∈ b.used, x = (b.slots i, ⟨some (k + j), i⟩) := by
  induction blocks generalizing k with
  | nil => simp [itemsIn]
  | cons b blocks ih =>
    rw [itemsIn, List.mem_append, ih, List.mem_map]
    constructor
    · rintro (⟨i, hi, rfl⟩ | ⟨j, c, hc, i, hi, rfl⟩)
      · exact ⟨0, b, rfl, i, hi, rfl⟩
      · exact ⟨j + 1, c, hc, i, hi, by rw [Nat.add_right_comm, Nat.add_assoc]⟩
    · rintro ⟨j, c, hc, i, hi, rfl⟩
      cases j with
      | zero =>
        cases hc
        exact Or.inl ⟨i, hi, rfl⟩
      | succ j => exact Or.inr ⟨j, c, hc, i, hi, by rw [Nat.add_right_comm, Nat.add_assoc]⟩

theorem pairwise_itemsIn : (itemsIn k blocks).Pairwise Before := by
  induction blocks generalizing k with
  | nil => exact List.Pairwise.nil
  | cons b blocks ih =>
    refine List.pairwise_append.2 ⟨?_, ih, fun x hx y hy => ?_⟩
    · rw [List.pairwise_map]
      exact (List.pairwise_lt_range.filter _).imp fun h => Or.inr ⟨rfl, h⟩
    · obtain ⟨i, -, rfl⟩ := List.mem_map.1 hx
      obtain ⟨j, c, -, i', -, rfl⟩ := mem_itemsIn.1 hy
      exact Or.inl (by omega)

/-- A scan finds the first of the slots in use. -/
theorem scan_eq (b : Block) (i n : Nat) : b.scan i n = ((List.range' i n).filter fun i => !skipGet b.skip i).head? := by
  induction n generalizing i with
  | zero => rfl
  | succ n ih =>
    rw [Block.scan, List.range'_succ, ih]
    cases hskip : skipGet b.skip i with
    | true => rw [if_pos rfl, List.filter_cons_of_neg (by simp [hskip])]
    | false => rw [if_neg Bool.false_ne_true, List.filter_cons_of_pos (by simp [hskip]), List.head?_cons]

theorem scan_zero (b : Block) : b.scan 0 b.cap = b.used.head? := by
  rw [scan_eq, Block.used, List.range_eq_range']

theorem scan_above (b : Block) (i : Nat) : b.scan (i + 1) (b.cap - (i + 1)) = (b.used.filter (i < ·)).head? := by
  rw [scan_eq, Block.used, List.filter_filter]
  congr 1
  -- the slots above `i` are those from the next one on
  have hrange : (List.range b.cap).filter (i < ·) = List.range' (i + 1) (b.cap - (i + 1)) := by
    by_cases hi : i + 1 ≤ b.cap
    · have hsplit : List.range b.cap = List.range (i + 1) ++ List.range' (i + 1) (b.cap - (i + 1)) := by
        have happend := @List.range'_append_1 0 (i + 1) (b.cap - (i + 1))
        rw [Nat.zero_add, Nat.add_sub_cancel' hi] at happend
        rw [List.range_eq_range', List.range_eq_range', happend]
      rw [hsplit, List.filter_append]
      have h1 : (List.range (i + 1)).filter (i < ·) = [] := by
        rw [List.filter_eq_nil_iff]
        intro j hj
        have := List.mem_range.1 hj
        simp only [decide_eq_true_eq]
        omega
      rw [h1, List.nil_append, List.filter_eq_self]
      intro j hj
      exact decide_eq_true (by have := (List.mem_range'_1.1 hj).1; omega)
    · rw [Nat.sub_eq_zero_of_le (by omega), List.range'_zero, List.filter_eq_nil_iff]
      intro j hj
      have := List.mem_range.1 hj
      simp only [decide_eq_true_eq]
      omega
  rw [← hrange, List.filter_filter]
  exact List.filter_congr fun j _ => Bool.and_comm ..

/-- **The first element.** -/
theorem firstIn_eq (hcap : cap < 2 ^ 64) (hb : ∀ b ∈ blocks, BlockOk cap b) :
    firstIn k blocks = (itemsIn k blocks).headD (0, ⟨none, 0⟩) := by
  induction blocks generalizing k with
  | nil => rfl
  | cons b blocks ih =>
    rw [firstIn, itemsIn, Block.firstLive, scan_zero]
    have hblock := hb b List.mem_cons_self
    cases hused : b.used with
    | nil =>
      rw [List.head?_nil, Option.getD_none, if_neg (by simp)]
      exact ih fun c hc => hb c (List.mem_cons_of_mem b hc)
    | cons i used =>
      have hi : i < b.cap := (mem_used.mp (hused ▸ List.mem_cons_self)).1
      have hne : i ≠ none64 := by
        have := hblock.cap
        rw [none64]
        omega
      rw [List.head?_cons, Option.getD_some, if_pos hne]
      rfl

theorem item_headD {l : List (Nat × Iter)} {r : Nat × Iter} (hr : r.1 = 0) (hl : ∀ x ∈ l, x.1 ≠ 0) :
    item (l.headD r) = l.head? := by
  cases l with
  | nil => exact if_pos hr
  | cons x l => exact if_neg (hl x List.mem_cons_self)

theorem itemsIn_ne_zero (hb : ∀ b ∈ blocks, BlockOk cap b) (hx : x ∈ itemsIn k blocks) : x.1 ≠ 0 := by
  obtain ⟨j, b, hj, i, hi, rfl⟩ := mem_itemsIn.1 hx
  obtain ⟨hlt, hlive⟩ := mem_used.1 hi
  exact (hb b (List.mem_of_getElem? hj)).elems i hlt hlive

/-- What is above an iterator. -/
theorem above_itemsIn {j : Nat} (e : Nat) (hj : blocks[j]? = some b) :
    Cursor.above Before (itemsIn k blocks) (e, ⟨some (k + j), i⟩) =
      (b.used.filter (i < ·)).map (fun i => (b.slots i, ⟨some (k + j), i⟩)) ++
        itemsIn (k + j + 1) (blocks.drop (j + 1)) := by
  induction blocks generalizing k j with
  | nil => cases hj
  | cons c blocks ih =>
    rw [Cursor.above, itemsIn, List.filter_append]
    cases j with
    | zero =>
      cases hj
      congr 1
      · rw [List.filter_map]
        congr 1
        refine List.filter_congr fun i' _ => decide_eq_decide.2 ?_
        change k + 0 < k ∨ k + 0 = k ∧ i < i' ↔ i < i'
        omega
      · rw [Nat.add_zero, List.drop_succ_cons, List.drop_zero, List.filter_eq_self]
        intro y hy
        obtain ⟨j, c, -, i', -, rfl⟩ := mem_itemsIn.1 hy
        exact decide_eq_true (Or.inl (by omega))
    | succ j =>
      have hnil : (c.used.map fun i => (c.slots i, (⟨some k, i⟩ : Iter))).filter
          (Before (e, ⟨some (k + (j + 1)), i⟩) ·) = [] := by
        rw [List.filter_eq_nil_iff]
        intro y hy
        obtain ⟨i', -, rfl⟩ := List.mem_map.1 hy
        rw [decide_eq_true_eq]
        change ¬ (k + (j + 1) < k ∨ k + (j + 1) = k ∧ i < i')
        omega
      have hk : k + (j + 1) = k + 1 + j := by omega
      rw [hnil, List.nil_append, List.drop_succ_cons, hk]
      exact ih hj

/-- **The records of the hive agree.** -/
structure Ok (h : Hive) : Prop where
  pos : 0 < h.blockCap
  lt : h.blockCap < 2 ^ 64
  blocks : ∀ b ∈ h.blocks, BlockOk h.blockCap b
  size : h.size = h.items.length

theorem first_eq (hok : Ok h) : item (wubuHiveFirst h) = h.items.head? := by
  rw [wubuHiveFirst, firstIn_eq hok.lt hok.blocks]
  exact item_headD rfl fun _ => itemsIn_ne_zero hok.blocks

/-- **The next element** is the first one above the iterator, whatever has happened to the slot at
which it is. -/
theorem next_eq (hok : Ok h) (x : Nat × Iter) : item (wubuHiveNext h x.2) = (Cursor.above Before h.items x).head? := by
  obtain ⟨e, ⟨block, i⟩⟩ := x
  rw [wubuHiveNext]
  cases block with
  | none =>
    have hnil : Cursor.above Before h.items (e, ⟨none, i⟩) = [] := by
      rw [Cursor.above, List.filter_eq_nil_iff]
      exact fun y _ hy => of_decide_eq_true hy
    rw [hnil]
    rfl
  | some k =>
    dsimp only
    cases hk : h.blocks[k]? with
    | none =>
      have hnil : Cursor.above Before h.items (e, ⟨some k, i⟩) = [] := by
        rw [Cursor.above, List.filter_eq_nil_iff]
        intro y hy hlt
        obtain ⟨j, c, hj, i', -, rfl⟩ := mem_itemsIn.1 hy
        have hlt : k < 0 + j ∨ k = 0 + j ∧ i < i' := of_decide_eq_true hlt
        have := (List.getElem?_eq_some_iff.1 hj).1
        have := List.getElem?_eq_none_iff.1 hk
        omega
      rw [hnil]
      rfl
    | some b =>
      have habove := above_itemsIn (k := 0) (i := i) e hk
      rw [Nat.zero_add] at habove
      have hdrop : ∀ c ∈ h.blocks.drop (k + 1), BlockOk h.blockCap c :=
        fun c hc => hok.blocks c (List.mem_of_mem_drop hc)
      rw [Hive.items, habove]
      dsimp only
      rw [scan_above]
      cases hused : b.used.filter (i < ·) with
      | nil =>
        rw [List.head?_nil, List.map_nil, List.nil_append]
        rw [firstIn_eq hok.lt hdrop]
        exact item_headD rfl fun _ => itemsIn_ne_zero hdrop
      | cons i' used =>
        have hmem : i' ∈ b.used := (List.mem_filter.mp (hused ▸ List.mem_cons_self)).1
        obtain ⟨hlt, hlive⟩ := mem_used.1 hmem
        have hne := (hok.blocks b (List.mem_of_getElem? hk)).elems i' hlt hlive
        exact if_neg hne

/-! ## What the operations do -/

theorem nodup_items : h.items.Nodup :=
  pairwise_itemsIn.imp fun {x y} (hxy : Before x y) (heq : x = y) => before_irrefl y (heq ▸ hxy)

/-- A block with a slot less. -/
theorem itemsIn_set {j : Nat} (hj : blocks[j]? = some b) : itemsIn k (blocks.set j (b.erase i)) =
      (itemsIn k blocks).filter (· ≠ (b.slots i, ⟨some (k + j), i⟩)) := by
  induction blocks generalizing k j with
  | nil => cases hj
  | cons c blocks ih =>
    cases j with
    | zero =>
      cases hj
      rw [List.set_cons_zero, itemsIn, itemsIn, List.filter_append, used_erase, List.filter_map]
      congr 1
      · have hfilter : b.used.filter (· ≠ i) = b.used.filter ((decide <| · ≠ (b.slots i, (⟨some (k + 0), i⟩ : Iter))) ∘
              fun i => (b.slots i, ⟨some k, i⟩)) := by
          refine List.filter_congr fun i' _ => decide_eq_decide.2 ?_
          simp only [ne_eq, Prod.mk.injEq, Iter.mk.injEq, Nat.add_zero, true_and]
          exact not_congr ⟨fun h => ⟨h ▸ rfl, h⟩, fun h => h.2⟩
        rw [← hfilter]
        refine List.map_congr_left fun i' hi' => ?_
        have hne : i' ≠ i := of_decide_eq_true (List.mem_filter.1 hi').2
        rw [show (b.erase i).slots i' = b.slots i' from update_of_ne hne ..]
      · refine (List.filter_eq_self.2 fun y hy => ?_).symm
        obtain ⟨j, c, -, i', -, rfl⟩ := mem_itemsIn.1 hy
        simp
        omega
    | succ j =>
      rw [List.set_cons_succ, itemsIn, itemsIn, List.filter_append, ih hj, Nat.add_right_comm, Nat.add_assoc]
      congr 1
      refine (List.filter_eq_self.2 fun y hy => ?_).symm
      obtain ⟨i', -, rfl⟩ := List.mem_map.1 hy
      simp

/-- **An item is erased** at its iterator; the others are not touched. -/
theorem eraseAt_spec (hok : Ok h) (hx : x ∈ h.items) : (wubuHiveEraseAt h x.2).1 = true ∧ Ok (wubuHiveEraseAt h x.2).2 ∧
      (wubuHiveEraseAt h x.2).2.items = h.items.filter (· ≠ x) := by
  obtain ⟨k, b, hk, i, hi, rfl⟩ := mem_itemsIn.1 hx
  obtain ⟨hlt, hlive⟩ := mem_used.1 hi
  have hb := hok.blocks b (List.mem_of_getElem? hk)
  have hitems : itemsIn 0 (h.blocks.set k (b.erase i)) =
      h.items.filter (· ≠ (b.slots i, ⟨some (0 + k), i⟩)) := itemsIn_set hk
  rw [wubuHiveEraseAt]
  dsimp only
  rw [Nat.zero_add, hk]
  dsimp only
  rw [if_neg (by rw [hlive]; simp; omega)]
  rw [Nat.zero_add] at hitems
  refine ⟨rfl, ⟨hok.pos, hok.lt, fun c hc => ?_, ?_⟩, hitems⟩
  · obtain hc | rfl := List.mem_or_eq_of_mem_set hc
    · exact hok.blocks c hc
    · exact hb.erase hok.lt hlt hlive
  · change h.size - 1 = (itemsIn 0 (h.blocks.set k (b.erase i))).length
    rw [Nat.zero_add] at hx
    rw [hitems, filter_ne nodup_items, List.length_erase_of_mem hx, hok.size]

/-- Where there is no item, nothing is erased. -/
theorem eraseAt_dead {it : Iter} (h' : ∀ x ∈ h.items, x.2 ≠ it) : wubuHiveEraseAt h it = (false, h) := by
  rw [wubuHiveEraseAt]
  cases hblock : it.block with
  | none => rfl
  | some k =>
    dsimp only
    cases hk : h.blocks[k]? with
    | none => rfl
    | some b =>
      refine if_pos ?_
      by_contra hnot
      push Not at hnot
      obtain ⟨hlt, hlive⟩ := hnot
      have hi : it.idx ∈ b.used := mem_used.2 ⟨hlt, Bool.eq_false_iff.2 hlive⟩
      refine h' _ (mem_itemsIn.2 ⟨k, b, hk, it.idx, hi, rfl⟩) ?_
      rw [Nat.zero_add, ← hblock]

theorem itemsIn_fst : (itemsIn k blocks).map Prod.fst = blocks.flatMap Block.elements := by
  induction blocks generalizing k with
  | nil => rfl
  | cons b blocks ih =>
    rw [itemsIn, List.map_append, List.map_map, ih, List.flatMap_cons]
    rfl

/-- The elements of the hive. -/
def Hive.elements (h : Hive) : List Nat := h.items.map Prod.fst

/-- **An element is erased** at an iterator. -/
theorem eraseAt_elements (hok : Ok h) (hx : x ∈ h.items) :
    (wubuHiveEraseAt h x.2).2.elements.Perm (h.elements.erase x.1) := by
  have hperm := (List.perm_cons_erase hx).map Prod.fst
  rw [Hive.elements, (eraseAt_spec hok hx).2.2, filter_ne nodup_items]
  exact (List.cons_perm_iff_perm_erase.1 hperm.symm).2

theorem insertIn_spec (helem : elem ≠ 0) {blocks' : List Block}
    (hb : ∀ b ∈ blocks, BlockOk cap b) (h : insertIn elem blocks = some blocks') :
    (∀ b ∈ blocks', BlockOk cap b) ∧ (blocks'.flatMap Block.elements).Perm (elem :: blocks.flatMap Block.elements) := by
  induction blocks generalizing blocks' with
  | nil => cases h
  | cons b blocks ih =>
    rw [insertIn] at h
    have hblock := hb b List.mem_cons_self
    split at h
    case isTrue =>
      obtain ⟨rest, hrest, rfl⟩ := Option.map_eq_some_iff.1 h
      obtain ⟨hok, hperm⟩ := ih (fun c hc => hb c (List.mem_cons_of_mem b hc)) hrest
      refine ⟨List.forall_mem_cons.2 ⟨hblock, hok⟩, ?_⟩
      rw [List.flatMap_cons, List.flatMap_cons]
      exact (hperm.append_left _).trans List.perm_middle
    case isFalse hfree =>
      cases h
      refine ⟨List.forall_mem_cons.2 ⟨hblock.insert hfree helem, fun c hc => hb c (List.mem_cons_of_mem b hc)⟩, ?_⟩
      rw [List.flatMap_cons, List.flatMap_cons]
      exact (elements_insert hblock hfree).append_right _

/-- **An element is inserted.** -/
theorem insert_spec (hok : Ok h) (helem : elem ≠ 0) :
    Ok (wubuHiveInsert h elem).2 ∧ (wubuHiveInsert h elem).2.elements.Perm (elem :: h.elements) := by
  -- both ways of inserting give blocks with one element more
  have key : ∀ blocks capacity, (∀ b ∈ blocks, BlockOk h.blockCap b) →
      (blocks.flatMap Block.elements).Perm (elem :: h.blocks.flatMap Block.elements) →
      Ok ⟨blocks, h.blockCap, h.size + 1, capacity⟩ ∧
        (Hive.elements ⟨blocks, h.blockCap, h.size + 1, capacity⟩).Perm (elem :: h.elements) := by
    intro blocks capacity hb hperm
    have helements : (Hive.elements ⟨blocks, h.blockCap, h.size + 1, capacity⟩).Perm
        (elem :: h.elements) := by
      rw [Hive.elements, Hive.elements, Hive.items, Hive.items, itemsIn_fst, itemsIn_fst]
      exact hperm
    refine ⟨⟨hok.pos, hok.lt, hb, ?_⟩, helements⟩
    have hlen := helements.length_eq
    rw [Hive.elements, Hive.elements, List.length_cons, List.length_map, List.length_map, ← hok.size] at hlen
    exact hlen.symm
  rw [wubuHiveInsert, if_neg helem]
  cases hins : insertIn elem h.blocks with
  | some blocks =>
    obtain ⟨hb, hperm⟩ := insertIn_spec helem hok.blocks hins
    exact key blocks h.capacity hb hperm
  | none =>
    have hfresh := blockOk_fresh hok.pos hok.lt
    have hfree : (freshBlock h.blockCap).freeHead ≠ none64 := show 0 ≠ none64 by decide
    refine key _ _ ?_ ?_
    · intro b hb
      obtain hb | hb := List.mem_append.1 hb
      · exact hok.blocks b hb
      · rw [List.mem_singleton.1 hb]
        exact hfresh.insert hfree helem
    · have hnil : (freshBlock h.blockCap).elements = [] := by
        rw [Block.elements, used_fresh, List.map_nil]
      have hnew : ((freshBlock h.blockCap).insert elem).elements.Perm [elem] :=
        hnil ▸ elements_insert hfresh hfree
      rw [List.flatMap_append, List.flatMap_singleton]
      exact (hnew.append_left _).trans (List.perm_append_comm)

/-- **Everything is erased.** -/
theorem clear_spec (hok : Ok h) : Ok (wubuHiveClear h) ∧ (wubuHiveClear h).elements = [] := by
  have hitems : ∀ k, itemsIn k (h.blocks.map fun b => freshBlock b.cap) = [] := by
    induction h.blocks with
    | nil => exact fun _ => rfl
    | cons b blocks ih =>
      intro k
      rw [List.map_cons, itemsIn, used_fresh, ih]
      rfl
  refine ⟨⟨hok.pos, hok.lt, fun b hb => ?_, ?_⟩, ?_⟩
  · obtain ⟨c, hc, rfl⟩ := List.mem_map.1 hb
    rw [(hok.blocks c hc).cap]
    exact blockOk_fresh hok.pos hok.lt
  · rw [Hive.items, wubuHiveClear, hitems]
    rfl
  · rw [Hive.elements, Hive.items, wubuHiveClear, hitems]
    rfl

/-- **An element is erased**, if it is there. -/
theorem erase_spec (hok : Ok h) (elem : Nat) :
    Ok (wubuHiveErase h elem).2 ∧ (wubuHiveErase h elem).2.elements.Perm (h.elements.erase elem) := by
  have hseek : Cursor.seek (fun x => item (wubuHiveNext h x.2)) (fun x => x.1 == elem) (h.size + 1)
      (item (wubuHiveFirst h)) = some (h.items.find? fun x => x.1 == elem) := by
    rw [first_eq hok]
    refine Cursor.seek_spec before_irrefl before_trans pairwise_itemsIn (next_eq hok) _ [] h.items rfl ?_
    rw [hok.size]
    exact Nat.lt_succ_self _
  -- if it is not there, the list without it is the same
  have hno : elem ∉ h.elements → Ok h ∧ h.elements.Perm (h.elements.erase elem) := by
    intro hnot
    rw [List.erase_of_not_mem hnot]
    exact ⟨hok, List.Perm.refl _⟩
  rw [wubuHiveErase]
  split
  case isTrue hzero =>
    refine hno fun hmem => ?_
    obtain ⟨x, hx, rfl⟩ := List.mem_map.1 hmem
    exact itemsIn_ne_zero hok.blocks hx hzero
  case isFalse =>
    rw [hseek]
    cases hfind : h.items.find? fun x => x.1 == elem with
    | none =>
      refine hno fun hmem => ?_
      obtain ⟨x, hx, rfl⟩ := List.mem_map.1 hmem
      exact List.find?_eq_none.1 hfind x hx (beq_self_eq_true _)
    | some x =>
      have hx : x ∈ h.items := List.mem_of_find?_eq_some hfind
      obtain rfl : x.1 = elem := eq_of_beq (List.find?_some (p := fun x : Nat × Iter => x.1 == elem) hfind)
      exact ⟨(eraseAt_spec hok hx).2.1, eraseAt_elements hok hx⟩

/-! ## Sequences of calls -/

/-- A call of a function of `wubu_hive.h` that changes the hive. -/
inductive Call
  | insert (elem : Nat)
  | erase (elem : Nat)
  | eraseAt (it : Iter)
  | clear
  deriving DecidableEq, Repr

/-- The hive, and the elements that should be in it. -/
structure Session where
  hive : Hive
  live : List Nat

/-- The element at an iterator. -/
def elementAt (h : Hive) (it : Iter) : Nat :=
  match it.block.bind (h.blocks[·]?) with
  | none => 0
  | some b => b.slots it.idx

/-- A call is made. -/
def Session.step (s : Session) : Call → Session
  | .insert elem => ⟨(wubuHiveInsert s.hive elem).2, if elem = 0 then s.live else elem :: s.live⟩
  | .erase elem => ⟨(wubuHiveErase s.hive elem).2, s.live.erase elem⟩
  | .eraseAt it =>
    let r := wubuHiveEraseAt s.hive it
    ⟨r.2, if r.1 then s.live.erase (elementAt s.hive it) else s.live⟩
  | .clear => ⟨wubuHiveClear s.hive, []⟩

/-- The hive is in order, and what should be in it is. -/
def Holds (s : Session) : Prop := Ok s.hive ∧ s.hive.elements.Perm s.live

theorem holds_new (blockCap : UInt64) : Holds ⟨wubuHiveNew blockCap, []⟩ := by
  refine ⟨⟨?_, ?_, fun b hb => absurd hb List.not_mem_nil, rfl⟩, List.Perm.refl _⟩
  · change 0 < if blockCap = 0 then defaultCap else blockCap.toNat
    split
    · decide
    · next hne =>
      refine Nat.pos_of_ne_zero fun h => hne (UInt64.toNat_inj.1 ?_)
      exact h
  · change (if blockCap = 0 then defaultCap else blockCap.toNat) < 2 ^ 64
    split
    · decide
    · exact blockCap.toNat_lt

theorem elementAt_item (hx : x ∈ h.items) : elementAt h x.2 = x.1 := by
  obtain ⟨k, b, hk, i, hi, rfl⟩ := mem_itemsIn.1 hx
  rw [elementAt, Nat.zero_add]
  change (match h.blocks[k]? with
    | none => 0
    | some b => b.slots i) = _
  rw [hk]

/-- **A call keeps it so.** -/
theorem Holds.step {s : Session} (hs : Holds s) (call : Call) : Holds (s.step call) := by
  obtain ⟨hok, hperm⟩ := hs
  cases call with
  | insert elem =>
    by_cases helem : elem = 0
    · rw [Session.step, wubuHiveInsert, if_pos helem, if_pos helem]
      exact ⟨hok, hperm⟩
    · obtain ⟨hok', hperm'⟩ := insert_spec hok helem
      rw [Session.step, if_neg helem]
      exact ⟨hok', hperm'.trans (hperm.cons elem)⟩
  | erase elem =>
    obtain ⟨hok', hperm'⟩ := erase_spec hok elem
    exact ⟨hok', hperm'.trans (hperm.erase elem)⟩
  | eraseAt it =>
    rw [Session.step]
    by_cases hit : ∃ x ∈ s.hive.items, x.2 = it
    · obtain ⟨x, hx, rfl⟩ := hit
      obtain ⟨hret, hok', -⟩ := eraseAt_spec hok hx
      rw [hret, if_pos rfl, elementAt_item hx]
      exact ⟨hok', (eraseAt_elements hok hx).trans (hperm.erase x.1)⟩
    · rw [eraseAt_dead fun x hx h => hit ⟨x, hx, h⟩, if_neg Bool.false_ne_true]
      exact ⟨hok, hperm⟩
  | clear =>
    obtain ⟨hok', hnil⟩ := clear_spec hok
    refine ⟨hok', ?_⟩
    change (wubuHiveClear s.hive).elements.Perm []
    rw [hnil]

theorem holds_run (calls : List Call) {s : Session} (hs : Holds s) : Holds (calls.foldl Session.step s) := by
  induction calls generalizing s with
  | nil => exact hs
  | cons call calls ih => exact ih (hs.step call)

/-- A traversal that erases at its iterator visits all the items. -/
theorem sweep_eq (hok : Ok h) (d : Nat → Bool) {fuel : Nat} (hf : h.size < fuel) :
    ∃ h', sweep d fuel h = some (h.items, h') ∧ Ok h' ∧ h'.items = Cursor.kept d 0 h.items := by
  rw [sweep, first_eq hok]
  exact Cursor.sweep_spec before_irrefl before_trans Ok (fun _ _ => pairwise_itemsIn)
    (fun h x hok => next_eq hok x) (fun h x hok hx => (eraseAt_spec hok hx).2) d hok (hok.size ▸ hf)

theorem traverse_eq (hok : Ok h) {fuel : Nat} (hf : h.size < fuel) : traverse fuel h = some h.items := by
  obtain ⟨h', hsweep, -⟩ := sweep_eq hok (fun _ => false) hf
  rw [traverse, hsweep]
  rfl

theorem items_places : (h.items.map Prod.snd).Nodup := by
  rw [List.Nodup, List.pairwise_map]
  refine pairwise_itemsIn.imp fun {x y} (hxy : Before x y) (heq : x.2 = y.2) => before_irrefl y ?_
  rw [Before, heq] at hxy
  exact hxy

/-- The slot is in the list of dead slots of its block, or an iteration comes to it. -/
theorem free_spec (hok : Ok h) (hk : h.blocks[k]? = some b) : ∃ l, IsList b.slots none64 b.freeHead l ∧ l.Nodup ∧
      ∀ i, i ∈ l ↔ i < b.cap ∧ (⟨some k, i⟩ : Iter) ∉ h.items.map Prod.snd := by
  obtain ⟨l, hl, hmem⟩ := (hok.blocks b (List.mem_of_getElem? hk)).free
  refine ⟨l, hl, hl.nodup, fun i => (hmem i).trans (and_congr_right fun hlt => ?_)⟩
  rw [← Bool.not_eq_false, not_iff_not, List.mem_map]
  constructor
  · intro hlive
    exact ⟨_, mem_itemsIn.2 ⟨k, b, hk, i, mem_used.2 ⟨hlt, hlive⟩, rfl⟩, by rw [Nat.zero_add]⟩
  · rintro ⟨x, hx, hxi⟩
    obtain ⟨j, c, hj, i', hi', rfl⟩ := mem_itemsIn.1 hx
    rw [Nat.zero_add] at hxi
    cases hxi
    cases hk.symm.trans hj
    exact (mem_used.1 hi').2

/-- **The hive is a bag**, after any sequence of calls.  An iteration visits the elements in it, each
once; they are as many as it says; the freelist of a block has the slots that are not visited; and an
iteration that erases some of the elements it comes to still visits all of them, and leaves the
others. -/
theorem reachable_spec (blockCap : UInt64) (calls : List Call) :
    let s := calls.foldl Session.step ⟨wubuHiveNew blockCap, []⟩
    ∃ items : List (Nat × Iter), (∀ fuel, s.hive.size < fuel → traverse fuel s.hive = some items) ∧
      (items.map Prod.fst).Perm s.live ∧ (items.map Prod.snd).Nodup ∧
      s.hive.size = s.live.length ∧
      (∀ k b, s.hive.blocks[k]? = some b → ∃ l, IsList b.slots none64 b.freeHead l ∧ l.Nodup ∧
        ∀ i, i ∈ l ↔ i < b.cap ∧ (⟨some k, i⟩ : Iter) ∉ items.map Prod.snd) ∧
      ∀ d fuel, s.hive.size < fuel → ∃ h', sweep d fuel s.hive = some (items, h') ∧
        ∀ fuel', h'.size < fuel' → traverse fuel' h' = some (Cursor.kept d 0 items) := by
  intro s
  obtain ⟨hok, hperm⟩ := holds_run calls (holds_new blockCap)
  refine ⟨s.hive.items, fun fuel hf => traverse_eq hok hf, hperm, items_places, ?_,
    fun k b hk => free_spec hok hk, fun d fuel hf => ?_⟩
  · rw [hok.size, ← hperm.length_eq, Hive.elements, List.length_map]
  · obtain ⟨h', hsweep, hok', hitems⟩ := sweep_eq hok d hf
    exact ⟨h', hsweep, fun fuel' hf' => hitems ▸ traverse_eq hok' hf'⟩

end WuBuOS.Hives
