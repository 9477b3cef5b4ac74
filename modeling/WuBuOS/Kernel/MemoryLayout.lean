import WuBuOS.Kernel.Memory
import WuBuOS.Lib.Extents
import Mathlib.Order.Interval.Finset.Nat

/-!
# How the heap is laid out

What there is to know about the heap between two calls is which addresses blocks begin at, where each
block is kept, and how far it reaches.  Only part of this is written in the heap.  Where a block is
kept, in use or on which list, is `own`; how far it reaches is `span`, and it is not the size in its
header: a block that is larger than a request by 32 bytes or less is not split, and a block of 4 GiB
or more has a size that does not fit the header.

`Inv h own span` says that the blocks do not meet, and that the heap agrees: every list holds the
blocks that are kept on it, and no size exceeds the block's extent.  A block can also be in the hands
of the function that runs, and nothing is said of the size of such a block; so `mem_alloc` and
`mem_free` are sequences of the following steps.

* `Inv.take`: a block is taken off a list; `Inv.link`: one is put on the front of a list;
* `Inv.hold`, `Inv.give`: a block in use is taken back, and one is given to a user;
* `Inv.fresh`: pages beyond all blocks become a block;
* `Inv.split`: a block becomes two; `Inv.merge`: two that meet become one;
* `Inv.of_fields`: memory changes where no header is, or in the header of a block that is held.
-/

namespace WuBuOS.Memory

open Bytes Linked Extents
open Function (update update_of_ne update_self)

/-! ## The fields of a header -/

/-- Two headers do not meet. -/
def Far (a b : Nat) : Prop := a + 16 ≤ b ∨ b + 16 ≤ a

section Fields

variable (h : Heap) {a b : Nat} (v : Nat)

theorem size_setSize : (h.setSize b v).size b = v % 2 ^ 32 := get_put h.mem (b + 4) 4 v

theorem next_setNext : (h.setNext b v).next b = v % 2 ^ 64 := get_put h.mem (b + 8) 8 v

theorem size_setSig (hab : a = b ∨ Far a b) : (h.setSig b v).size a = h.size a := by
  unfold Far at hab
  exact get_put_outside (by omega)

theorem size_setNext (hab : a = b ∨ Far a b) : (h.setNext b v).size a = h.size a := by
  unfold Far at hab
  exact get_put_outside (by omega)

theorem next_setNext_of_far (hab : Far a b) : (h.setNext b v).next a = h.next a := by
  unfold Far at hab
  exact get_put_outside (by omega)

end Fields

@[simp] theorem next_setHead (h : Heap) (l : FreeList) (v : Nat) : (h.setHead l v).next = h.next := by
  cases l <;> rfl

@[simp] theorem size_setHead (h : Heap) (l : FreeList) (v : Nat) : (h.setHead l v).size = h.size := by
  cases l <;> rfl

theorem head_setHead (h : Heap) (l : FreeList) (v : Nat) : (h.setHead l v).head l = v := by
  cases l
  · exact update_self ..
  · rfl

theorem head_setHead_of_ne (h : Heap) {l l' : FreeList} (v : Nat) (hl : l' ≠ l) :
    (h.setHead l v).head l' = h.head l' := by
  cases l <;> cases l'
  · exact update_of_ne (fun h => hl (congrArg _ h)) ..
  · rfl
  · rfl
  · exact absurd rfl hl

/-! ## The invariant -/

/-- Where a block is kept: in use for so many bytes, on a list, or in the hands of the function that
runs. -/
inductive Place
  | live (bytes : Nat)
  | held
  | free (l : FreeList)
  deriving DecidableEq, Repr

/-- The first address a block can begin at. -/
def Heap.bottom (h : Heap) : Nat := h.gHeap + 2 * memPagSize

/-- The list holds the blocks that are kept on it, each once. -/
def OnList (h : Heap) (own : Nat → Option Place) (l : FreeList) : Prop :=
  ∃ xs, IsList h.next 0 (h.head l) xs ∧ xs.Nodup ∧ ∀ a, a ∈ xs ↔ own a = some (.free l)

/-- The blocks do not meet, and the heap agrees with where they are kept and how far they reach. -/
structure Inv (h : Heap) (own : Nat → Option Place) (span : Nat → Nat) : Prop where
  heap : h.gHeap ≠ 0
  bottom : h.bottom ≤ h.gNextPage
  top : h.gNextPage ≤ h.gHeapEnd
  total : h.gHeapEnd = h.gHeap + h.gHeapTotal
  space : h.gHeapEnd < 2 ^ 64
  apart : Apart span { a | own a ≠ none }
  low : ∀ a, own a ≠ none → h.bottom ≤ a
  high : ∀ a, own a ≠ none → a + span a ≤ h.gNextPage
  room : ∀ a, own a ≠ none → 32 ≤ span a
  size : ∀ a, own a ≠ none → own a ≠ some .held → h.size a ≤ span a
  usable : ∀ a n, own a = some (.live n) → n + 48 ≤ span a ∧ (h.size a = 0 ∨ 64 ≤ h.size a)
  chain : ∀ l, OnList h own l
  bucket : ∀ i a, own a = some (.free (.bucket i)) → h.size a = i

variable {h h' : Heap} {own own' : Nat → Option Place} {span span' : Nat → Nat} {a b n x w : Nat}
  {l : FreeList} {p : Place} {l1 l2 : List Nat}

theorem ne_none_of_eq (ha : own a = some p) : own a ≠ none := by
  rw [ha]
  exact Option.some_ne_none p

/-- The globals are the same. -/
structure SameGlobals (h h' : Heap) : Prop where
  heap : h'.gHeap = h.gHeap
  nextPage : h'.gNextPage = h.gNextPage
  heapEnd : h'.gHeapEnd = h.gHeapEnd
  total : h'.gHeapTotal = h.gHeapTotal

theorem SameGlobals.bottom (hg : SameGlobals h h') : h'.bottom = h.bottom := by
  rw [Heap.bottom, Heap.bottom, hg.heap]

theorem SameGlobals.refl (h : Heap) : SameGlobals h h := ⟨rfl, rfl, rfl, rfl⟩

theorem SameGlobals.trans {h'' : Heap} (h1 : SameGlobals h h') (h2 : SameGlobals h' h'') : SameGlobals h h'' :=
  ⟨h2.1.trans h1.1, h2.2.trans h1.2, h2.3.trans h1.3, h2.4.trans h1.4⟩

theorem sameGlobals_setHead (h : Heap) (l : FreeList) (v : Nat) : SameGlobals h (h.setHead l v) := by
  cases l <;> exact ⟨rfl, rfl, rfl, rfl⟩

theorem Inv.sep (hi : Inv h own span) (ha : own a ≠ none) (hb : own b ≠ none) (hab : a ≠ b) : Far a b := by
  have h1 := hi.room a ha
  have h2 := hi.room b hb
  rcases hi.apart a ha b hb hab with h3 | h3
  · exact Or.inl (by omega)
  · exact Or.inr (by omega)

theorem Inv.eq_or_far (hi : Inv h own span) (ha : own a ≠ none) (hb : own b ≠ none) : a = b ∨ Far a b :=
  (eq_or_ne a b).imp_right (hi.sep ha hb)

theorem Inv.bounds (hi : Inv h own span) (ha : own a ≠ none) : a ≠ 0 ∧ a + span a < 2 ^ 64 := by
  have h1 := hi.low a ha
  have h2 := hi.high a ha
  have h4 := hi.top
  have h5 := hi.space
  have h6 : h.bottom = h.gHeap + 8192 := rfl
  omega

theorem Inv.size_of_free (hi : Inv h own span) (ha : own a = some (.free l)) : h.size a ≤ span a :=
  hi.size a (ne_none_of_eq ha) (by simp [ha])

theorem OnList.congr (hl : OnList h own l) (hhead : h'.head l = h.head l)
    (hnext : ∀ a, own a = some (.free l) → h'.next a = h.next a)
    (hown : ∀ a, own' a = some (.free l) ↔ own a = some (.free l)) : OnList h' own' l := by
  obtain ⟨xs, hxs, hnd, hmem⟩ := hl
  refine ⟨xs, ?_, hnd, fun a => (hmem a).trans (hown a).symm⟩
  rw [hhead]
  exact hxs.congr fun b hb => hnext b ((hmem b).1 hb)

/-- The list, once it has been read. -/
theorem Inv.list (hi : Inv h own span) {xs : List Nat} (hl : IsList h.next 0 (h.head l) xs) :
    xs.Nodup ∧ ∀ a, a ∈ xs ↔ own a = some (.free l) := by
  obtain ⟨ys, hys, hnd, hmem⟩ := hi.chain l
  rw [hl.unique hys]
  exact ⟨hnd, hmem⟩

/-- A list is shorter than the heap. -/
theorem Inv.length_lt (hi : Inv h own span) {xs : List Nat} (hl : IsList h.next 0 (h.head l) xs) :
    xs.length < h.gHeapTotal := by
  obtain ⟨hnd, hmem⟩ := hi.list hl
  have hsub : xs.toFinset ⊆ Finset.Ico h.bottom h.gNextPage := by
    intro a ha
    have hown := ne_none_of_eq ((hmem a).1 (List.mem_toFinset.1 ha))
    have h1 := hi.high a hown
    have h2 := hi.room a hown
    exact Finset.mem_Ico.2 ⟨hi.low a hown, by omega⟩
  have hcard := Finset.card_le_card hsub
  rw [List.toFinset_card_of_nodup hnd, Nat.card_Ico] at hcard
  have h3 := hi.bottom
  have h4 := hi.top
  have h5 := hi.total
  have h6 : h.bottom = h.gHeap + 8192 := rfl
  omega

/-! ## Steps -/

/-- **Memory changes where no header is**, or in the header of a block that is held. -/
theorem Inv.of_fields (hi : Inv h own span) (hg : SameGlobals h h') (hhead : h'.head = h.head)
    (hf : ∀ a, own a ≠ none → own a ≠ some .held → h'.next a = h.next a ∧ h'.size a = h.size a) :
    Inv h' own span where
  heap := by rw [hg.heap]; exact hi.heap
  bottom := by rw [hg.bottom, hg.nextPage]; exact hi.bottom
  top := by rw [hg.nextPage, hg.heapEnd]; exact hi.top
  total := by rw [hg.heapEnd, hg.heap, hg.total]; exact hi.total
  space := by rw [hg.heapEnd]; exact hi.space
  apart := hi.apart
  low := fun a ha => by rw [hg.bottom]; exact hi.low a ha
  high := fun a ha => by rw [hg.nextPage]; exact hi.high a ha
  room := hi.room
  size := fun a ha hh => by rw [(hf a ha hh).2]; exact hi.size a ha hh
  usable := fun a n ha => by
    rw [(hf a (ne_none_of_eq ha) (by simp [ha])).2]
    exact hi.usable a n ha
  chain := fun l => (hi.chain l).congr (by rw [hhead])
    (fun a ha => (hf a (ne_none_of_eq ha) (by simp [ha])).1) fun _ => Iff.rfl
  bucket := fun i a ha => by
    rw [(hf a (ne_none_of_eq ha) (by simp [ha])).2]
    exact hi.bucket i a ha

/-- Memory changes, but in the header of no block that is not held. -/
theorem Inv.of_mem (hi : Inv h own span) {m : Nat → UInt8}
    (hm : ∀ a, own a ≠ none → own a ≠ some .held → ∀ y, a ≤ y → y < a + 16 → m y = h.mem y) :
    Inv { h with mem := m } own span := by
  refine hi.of_fields ⟨rfl, rfl, rfl, rfl⟩ (funext fun l => by cases l <;> rfl) fun a ha hh => ⟨?_, ?_⟩
  · exact get_congr fun y h1 h2 => hm a ha hh y (by omega) (by omega)
  · exact get_congr fun y h1 h2 => hm a ha hh y (by omega) (by omega)

/-- **Memory changes in a block, behind its header.** -/
theorem Inv.write (hi : Inv h own span) {f : Nat → UInt8} (hx : own x ≠ none) (ha : x + 16 ≤ a)
    (hn : a + n ≤ x + span x) : Inv { h with mem := write h.mem a n f } own span := by
  refine hi.of_mem fun b hb _ y h1 h2 => write_outside ?_
  rcases eq_or_ne b x with rfl | hbx
  · omega
  · have := hi.apart b hb x hx hbx
    omega

/-- The header of a block that is held changes. -/
theorem Inv.writeHeader (hi : Inv h own span) {f : Nat → UInt8} (hx : own x = some .held)
    (ha : x ≤ a) (hn : a + n ≤ x + 16) : Inv { h with mem := Bytes.write h.mem a n f } own span := by
  refine hi.of_mem fun b hb hh y h1 h2 => write_outside ?_
  have hbx : b ≠ x := by
    rintro rfl
    exact hh hx
  have := hi.sep hb (ne_none_of_eq hx) hbx
  unfold Far at this
  omega

theorem Inv.setSig (hi : Inv h own span) (hx : own x = some .held) (v : Nat) : Inv (h.setSig x v) own span :=
  hi.writeHeader hx (Nat.le_refl x) (by omega)

theorem Inv.setSize (hi : Inv h own span) (hx : own x = some .held) (v : Nat) : Inv (h.setSize x v) own span :=
  hi.writeHeader hx (by omega) (by omega)

theorem Inv.setNext (hi : Inv h own span) (hx : own x = some .held) (v : Nat) : Inv (h.setNext x v) own span :=
  hi.writeHeader hx (by omega) (by omega)

/-- What a block has to be like to be kept at a place. -/
def Fits (size span : Nat) : Place → Prop
  | .live n => size ≤ span ∧ n + 48 ≤ span ∧ (size = 0 ∨ 64 ≤ size)
  | .held => True
  | .free (.bucket i) => size ≤ span ∧ size = i
  | .free .mallocFreeList => size ≤ span

/-- **A block is kept elsewhere**, if it fits there and the lists are right afterwards. -/
theorem Inv.rekeep (hi : Inv h own span) (hg : SameGlobals h h') (hx : own x ≠ none)
    (hsize : ∀ a, own a ≠ none → h'.size a = h.size a) (hfits : Fits (h.size x) (span x) p)
    (hchain : ∀ l, OnList h' (update own x (some p)) l) :
    Inv h' (update own x (some p)) span := by
  have hown : ∀ b, update own x (some p) b ≠ none → own b ≠ none := by
    intro b hb
    rcases eq_or_ne b x with rfl | hbx
    · exact hx
    · rwa [update_of_ne hbx] at hb
  exact
    { heap := by rw [hg.heap]; exact hi.heap
      bottom := by rw [hg.bottom, hg.nextPage]; exact hi.bottom
      top := by rw [hg.nextPage, hg.heapEnd]; exact hi.top
      total := by rw [hg.heapEnd, hg.heap, hg.total]; exact hi.total
      space := by rw [hg.heapEnd]; exact hi.space
      apart := hi.apart.mono (fun b hb => hown b hb) fun _ _ => rfl
      low := fun b hb => by rw [hg.bottom]; exact hi.low b (hown b hb)
      high := fun b hb => by rw [hg.nextPage]; exact hi.high b (hown b hb)
      room := fun b hb => hi.room b (hown b hb)
      size := by
        intro b hb hh
        rw [hsize b (hown b hb)]
        rcases eq_or_ne b x with rfl | hbx
        · rw [update_self] at hh
          match p, hfits with
          | .live _, hf => exact hf.1
          | .held, _ => exact absurd rfl hh
          | .free (.bucket _), hf => exact hf.1
          | .free .mallocFreeList, hf => exact hf
        · rw [update_of_ne hbx] at hb hh
          exact hi.size b hb hh
      usable := by
        intro b n hb
        rcases eq_or_ne b x with rfl | hbx
        · rw [update_self, Option.some.injEq] at hb
          subst hb
          rw [hsize b hx]
          exact hfits.2
        · rw [update_of_ne hbx] at hb
          rw [hsize b (ne_none_of_eq hb)]
          exact hi.usable b n hb
      chain := hchain
      bucket := by
        intro i b hb
        rcases eq_or_ne b x with rfl | hbx
        · rw [update_self, Option.some.injEq] at hb
          subst hb
          rw [hsize b hx]
          exact hfits.2
        · rw [update_of_ne hbx] at hb
          rw [hsize b (ne_none_of_eq hb)]
          exact hi.bucket i b hb }

/-- A list that a block neither was on nor is on now has the blocks it had. -/
theorem update_free_iff (hl : own x ≠ some (.free l)) (hp : p ≠ .free l) :
    update own x (some p) b = some (.free l) ↔ own b = some (.free l) := by
  rcases eq_or_ne b x with rfl | hbx
  · rw [update_self]
    exact iff_of_false (fun h => hp (Option.some.inj h)) hl
  · rw [update_of_ne hbx]

/-- A block in use is taken back. -/
theorem Inv.hold (hi : Inv h own span) (hx : own x = some (.live n)) :
    Inv h (update own x (some .held)) span :=
  hi.rekeep (.refl h) (ne_none_of_eq hx) (fun _ _ => rfl) trivial fun l =>
    (hi.chain l).congr rfl (fun _ _ => rfl) fun _ => update_free_iff (by simp [hx]) (by simp)

/-- A block that is held is given to a user. -/
theorem Inv.give (hi : Inv h own span) (hx : own x = some .held) (hsize : h.size x ≤ span x)
    (hn : n + 48 ≤ span x) (hsize' : h.size x = 0 ∨ 64 ≤ h.size x) :
    Inv h (update own x (some (.live n))) span :=
  hi.rekeep (.refl h) (ne_none_of_eq hx) (fun _ _ => rfl) ⟨hsize, hn, hsize'⟩ fun l =>
    (hi.chain l).congr rfl (fun _ _ => rfl) fun _ => update_free_iff (by simp [hx]) (by simp)

/-- The link to a block is redirected past it. -/
theorem Inv.isList_relink (hi : Inv h own span) (hl : IsList h.next 0 (h.head l) (l1 ++ x :: l2)) :
    IsList (h.relink l (l1.getLastD 0) (h.next x)).next 0
      ((h.relink l (l1.getLastD 0) (h.next x)).head l) (l1 ++ l2) := by
  obtain ⟨hnd, hmem⟩ := hi.list hl
  have hown : ∀ a ∈ l1 ++ x :: l2, own a ≠ none := fun a ha => ne_none_of_eq ((hmem a).1 ha)
  rcases List.eq_nil_or_concat' l1 with rfl | ⟨ys, y, rfl⟩
  · rw [List.getLastD_nil, Heap.relink, if_pos rfl, next_setHead, head_setHead]
    exact hl.unlink_head
  · have hy : own y ≠ none := hown y (by simp)
    rw [List.getLastD_concat, Heap.relink, if_neg (hi.bounds hy).1]
    refine hl.unlink (by simp) ?_ ?_ hnd
    · rw [List.getLast_append_singleton, next_setNext]
      exact Nat.mod_eq_of_lt (get_lt ..)
    · intro b hb hby
      rw [List.getLast_append_singleton] at hby
      have hb' : b ∈ ys ++ [y] ++ x :: l2 := by
        rcases List.mem_append.1 hb with hb | hb
        · exact List.mem_append_left _ hb
        · exact List.mem_append_right _ (List.mem_cons_of_mem x hb)
      exact next_setNext_of_far h _ (hi.sep (hown b hb') hy hby)

/-- Redirecting a link of a list leaves the rest alone. -/
theorem Inv.relink_frame (hi : Inv h own span) {prev v : Nat} (hprev : prev = 0 ∨ own prev = some (.free l)) :
    SameGlobals h (h.relink l prev v) ∧ (∀ a, own a ≠ none → (h.relink l prev v).size a = h.size a) ∧
      ∀ l', l' ≠ l → (h.relink l prev v).head l' = h.head l' ∧
        ∀ a, own a = some (.free l') → (h.relink l prev v).next a = h.next a := by
  rw [Heap.relink]
  split
  · exact ⟨sameGlobals_setHead h l v, fun a _ => by rw [size_setHead], fun l' hl' =>
      ⟨head_setHead_of_ne h v hl', fun a _ => by rw [next_setHead]⟩⟩
  · rename_i h0
    have hprev := hprev.resolve_left h0
    refine ⟨⟨rfl, rfl, rfl, rfl⟩, fun a ha => ?_, fun l' hl' => ⟨rfl, fun a ha => ?_⟩⟩
    · exact size_setNext h v (hi.eq_or_far ha (ne_none_of_eq hprev))
    · refine next_setNext_of_far h v (hi.sep (ne_none_of_eq ha) (ne_none_of_eq hprev) ?_)
      rintro rfl
      rw [ha] at hprev
      exact hl' (by simpa using hprev)

/-- The node before a block on a list is none, or on the list. -/
theorem Inv.prev_mem (hi : Inv h own span) (hl : IsList h.next 0 (h.head l) (l1 ++ x :: l2)) :
    l1.getLastD 0 = 0 ∨ own (l1.getLastD 0) = some (.free l) := by
  rcases List.eq_nil_or_concat' l1 with rfl | ⟨ys, y, rfl⟩
  · exact Or.inl rfl
  · rw [List.getLastD_concat]
    exact Or.inr (((hi.list hl).2 y).1 (by simp))

/-- **A block is taken off its list.** -/
theorem Inv.take (hi : Inv h own span) (hl : IsList h.next 0 (h.head l) (l1 ++ x :: l2)) :
    Inv (h.relink l (l1.getLastD 0) (h.next x)) (update own x (some .held)) span := by
  obtain ⟨hnd, hmem⟩ := hi.list hl
  have hx : own x = some (.free l) := (hmem x).1 (by simp)
  obtain ⟨hg, hsize, hframe⟩ := hi.relink_frame (v := h.next x) (hi.prev_mem hl)
  refine hi.rekeep hg (ne_none_of_eq hx) hsize trivial fun l' => ?_
  rcases eq_or_ne l' l with rfl | hl'
  · refine ⟨l1 ++ l2, hi.isList_relink hl, hnd.sublist (by simp), fun a => ?_⟩
    have hnx : x ∉ l1 ++ l2 := (List.nodup_cons.1 (List.nodup_middle.1 hnd)).1
    rcases eq_or_ne a x with rfl | hax
    · rw [update_self]
      exact iff_of_false hnx (by simp)
    · rw [update_of_ne hax, ← hmem a]
      simp [hax]
  · refine (hi.chain l').congr (hframe l' hl').1 (hframe l' hl').2 fun _ => update_free_iff ?_ ?_
    · simpa [hx] using hl'.symm
    · simp

/-- **A block is put on the front of a list.** -/
theorem Inv.link (hi : Inv h own span) (hx : own x = some .held) (hfits : Fits (h.size x) (span x) (.free l)) :
    Inv (h.push l x) (update own x (some (.free l))) span := by
  have hx' := ne_none_of_eq hx
  have hne : ∀ l' a, own a = some (.free l') → a ≠ x := by
    rintro l' a ha rfl
    simp [hx] at ha
  have hnext : ∀ l' a, own a = some (.free l') → (h.push l x).next a = h.next a := by
    intro l' a ha
    rw [Heap.push, next_setHead]
    exact next_setNext_of_far h _ (hi.sep (ne_none_of_eq ha) hx' (hne l' a ha))
  refine hi.rekeep ?_ hx' (fun a ha => ?_) hfits fun l' => ?_
  · have hg : SameGlobals h (h.setNext x (h.head l)) := ⟨rfl, rfl, rfl, rfl⟩
    exact hg.trans (sameGlobals_setHead _ l x)
  · rw [Heap.push, size_setHead]
    exact size_setNext h _ (hi.eq_or_far ha hx')
  · rcases eq_or_ne l' l with rfl | hl'
    · obtain ⟨xs, hxs, hnd, hmem⟩ := hi.chain l'
      have hnx : x ∉ xs := fun hm => hne l' x ((hmem x).1 hm) rfl
      refine ⟨x :: xs, ?_, List.nodup_cons.2 ⟨hnx, hnd⟩, fun a => ?_⟩
      · rw [show (h.push l' x).head l' = x from head_setHead ..]
        refine hxs.push (hi.bounds hx').1 ?_ fun b hb => hnext l' b ((hmem b).1 hb)
        rw [Heap.push, next_setHead, next_setNext]
        refine Nat.mod_eq_of_lt ?_
        -- the head of a list is a block or null
        cases xs with
        | nil => rw [show h.head l' = 0 from hxs]; exact Nat.two_pow_pos 64
        | cons y ys =>
          have := (hi.bounds (ne_none_of_eq ((hmem y).1 (by simp)))).2
          rw [hxs.1]
          omega
      · rcases eq_or_ne a x with rfl | hax
        · rw [update_self]
          simp
        · rw [update_of_ne hax, List.mem_cons, ← hmem a]
          exact or_iff_right hax
    · refine (hi.chain l').congr (head_setHead_of_ne _ x hl') (hnext l') fun _ =>
        update_free_iff (by simp [hx]) ?_
      simpa using hl'.symm

/-- A place that only the function that runs knows of. -/
def InHand (p : Option Place) : Prop := p = none ∨ p = some .held

theorem InHand.not_live {q : Option Place} (hq : InHand q) (n : Nat) : q ≠ some (.live n) := by
  rcases hq with rfl | rfl <;> simp

theorem InHand.not_free {q : Option Place} (hq : InHand q) (l : FreeList) : q ≠ some (.free l) := by
  rcases hq with rfl | rfl <;> simp

/-- **Blocks in hand are laid out anew**, and pages are added to the heap. -/
theorem Inv.layout (hi : Inv h own span) (hn : h.gNextPage ≤ n) (hn' : n ≤ h.gHeapEnd)
    (hsame : ∀ a, own' a = own a ∧ span' a = span a ∨ InHand (own a) ∧ InHand (own' a))
    (hapart : Apart span' { a | own' a ≠ none })
    (hblock : ∀ a, own' a ≠ none → h.bottom ≤ a ∧ a + span' a ≤ n ∧ 32 ≤ span' a) :
    Inv { h with gNextPage := n } own' span' := by
  have hfree : ∀ l a, own' a = some (.free l) ↔ own a = some (.free l) := by
    intro l a
    rcases hsame a with ⟨ha, -⟩ | ⟨ha, ha'⟩
    · rw [ha]
    · exact iff_of_false (ha'.not_free l) (ha.not_free l)
  exact
    { heap := hi.heap, bottom := hi.bottom.trans hn, top := hn', total := hi.total
      space := hi.space, apart := hapart
      low := fun a ha => (hblock a ha).1
      high := fun a ha => (hblock a ha).2.1
      room := fun a ha => (hblock a ha).2.2
      size := by
        intro a ha hh
        rcases hsame a with ⟨h1, h2⟩ | ⟨-, h1⟩
        · rw [h1] at ha hh
          rw [h2]
          exact hi.size a ha hh
        · exact absurd h1 (not_or.2 ⟨ha, hh⟩)
      usable := by
        intro a n ha
        rcases hsame a with ⟨h1, h2⟩ | ⟨-, h1⟩
        · rw [h1] at ha
          rw [h2]
          exact hi.usable a n ha
        · exact absurd ha (h1.not_live n)
      chain := fun l => (hi.chain l).congr rfl (fun _ _ => rfl) (hfree l)
      bucket := fun i a ha => hi.bucket i a ((hfree _ a).1 ha) }

/-- **Pages beyond all blocks become a block.** -/
theorem Inv.fresh (hi : Inv h own span) (hw : 32 ≤ w) (htop : h.gNextPage + w ≤ h.gHeapEnd) :
    Inv { h with gNextPage := h.gNextPage + w } (update own h.gNextPage (some .held))
      (update span h.gNextPage w) := by
  have hnone : own h.gNextPage = none := by
    by_contra hn
    have h1 := hi.high _ hn
    have h2 := hi.room _ hn
    omega
  refine hi.layout (Nat.le_add_right _ w) htop (fun a => ?_) ?_ fun a ha => ?_
  · rcases eq_or_ne a h.gNextPage with rfl | hax
    · rw [update_self]
      exact Or.inr ⟨Or.inl hnone, Or.inr rfl⟩
    · rw [update_of_ne hax, update_of_ne hax]
      exact Or.inl ⟨rfl, rfl⟩
  · refine hi.apart.insert (w := h.gNextPage) hi.high (fun a ha => ?_) fun a ha => ?_
    · refine update_of_ne ?_ ..
      rintro rfl
      exact ha hnone
    · rcases eq_or_ne a h.gNextPage with rfl | hax
      · exact Or.inr rfl
      · rw [Set.mem_ofPred_eq, update_of_ne hax] at ha
        exact Or.inl ha
  · rcases eq_or_ne a h.gNextPage with rfl | hax
    · rw [update_self]
      exact ⟨hi.bottom, Nat.le_refl _, hw⟩
    · rw [update_of_ne hax] at ha ⊢
      exact ⟨hi.low a ha, Nat.le_add_right_of_le (hi.high a ha), hi.room a ha⟩

/-- **A block becomes two.** -/
theorem Inv.split (hi : Inv h own span) (hx : own x = some .held) (hw : 32 ≤ w) (hw' : w + 32 ≤ span x) :
    Inv h (update own (x + w) (some .held))
      (update (update span x w) (x + w) (span x - w)) := by
  have hx' := ne_none_of_eq hx
  have hxw : x ≠ x + w := by omega
  have hnone : own (x + w) = none := by
    by_contra hn
    have h1 := hi.apart x hx' (x + w) hn hxw
    omega
  have hextx : update (update span x w) (x + w) (span x - w) x = w := by
    rw [update_of_ne hxw, update_self]
  have hext : ∀ a, a ≠ x → a ≠ x + w → update (update span x w) (x + w) (span x - w) a = span a := by
    intro a h1 h2
    rw [update_of_ne h2, update_of_ne h1]
  refine hi.layout (Nat.le_refl _) hi.top (fun a => ?_) ?_ fun a ha => ?_
  · rcases eq_or_ne a (x + w) with rfl | haw
    · rw [update_self]
      exact Or.inr ⟨Or.inl hnone, Or.inr rfl⟩
    · rw [update_of_ne haw]
      rcases eq_or_ne a x with rfl | hax
      · exact Or.inr ⟨Or.inr hx, Or.inr hx⟩
      · exact Or.inl ⟨rfl, hext a hax haw⟩
  · refine hi.apart.split hx' (w := w) (fun a ha => ?_) ⟨hextx, ?_⟩ (by omega) fun b hb hbx => ?_
    · rcases eq_or_ne a (x + w) with rfl | haw
      · exact Or.inr rfl
      · rw [Set.mem_ofPred_eq, update_of_ne haw] at ha
        exact Or.inl ha
    · rw [update_self]
      omega
    · refine hext b hbx ?_
      rintro rfl
      exact hb hnone
  · have hlo := hi.low x hx'
    have hhi := hi.high x hx'
    rcases eq_or_ne a (x + w) with rfl | haw
    · rw [update_self]
      omega
    · rw [update_of_ne haw] at ha
      rcases eq_or_ne a x with rfl | hax
      · rw [hextx]
        omega
      · rw [hext a hax haw]
        exact ⟨hi.low a ha, hi.high a ha, hi.room a ha⟩

/-- **Two blocks that meet become one.** -/
theorem Inv.merge (hi : Inv h own span) (hx : own x = some .held) (hb : own (x + span x) = some .held) :
    Inv h (update own (x + span x) none)
      (update span x (span x + span (x + span x))) := by
  have hx' := ne_none_of_eq hx
  have hb' := ne_none_of_eq hb
  have hroom := hi.room x hx'
  refine hi.layout (Nat.le_refl _) hi.top (fun a => ?_) ?_ fun a ha => ?_
  · rcases eq_or_ne a (x + span x) with rfl | hab
    · rw [update_self]
      exact Or.inr ⟨Or.inr hb, Or.inl rfl⟩
    · rw [update_of_ne hab]
      rcases eq_or_ne a x with rfl | hax
      · exact Or.inr ⟨Or.inr hx, Or.inr hx⟩
      · exact Or.inl ⟨rfl, update_of_ne hax ..⟩
  · refine hi.apart.merge hx' hb' (by omega) (fun a ha => ?_) (update_self ..) fun b _ hbx =>
      update_of_ne hbx ..
    rcases eq_or_ne a (x + span x) with rfl | hab
    · exact absurd (update_self ..) ha
    · rw [Set.mem_ofPred_eq, update_of_ne hab] at ha
      exact ⟨ha, hab⟩
  · rcases eq_or_ne a (x + span x) with rfl | hab
    · exact absurd (update_self ..) ha
    · rw [update_of_ne hab] at ha
      rcases eq_or_ne a x with rfl | hax
      · have h1 := hi.high _ hb'
        rw [update_self]
        exact ⟨hi.low a ha, by omega, by omega⟩
      · rw [update_of_ne hax]
        exact ⟨hi.low a ha, hi.high a ha, hi.room a ha⟩

/-- A block in use is forgotten. -/
theorem Inv.forget (hi : Inv h own span) (hx : own x = some .held) : Inv h (update own x none) span := by
  have hmem : ∀ a, update own x none a ≠ none → own a ≠ none := by
    intro a ha
    rcases eq_or_ne a x with rfl | hax
    · exact absurd (update_self ..) ha
    · rwa [update_of_ne hax] at ha
  refine hi.layout (Nat.le_refl _) hi.top (fun a => ?_) ?_ fun a ha => ?_
  · rcases eq_or_ne a x with rfl | hax
    · rw [update_self]
      exact Or.inr ⟨Or.inr hx, Or.inl rfl⟩
    · rw [update_of_ne hax]
      exact Or.inl ⟨rfl, rfl⟩
  · exact hi.apart.mono (fun a ha => hmem a ha) fun _ _ => rfl
  · exact ⟨hi.low a (hmem a ha), hi.high a (hmem a ha), hi.room a (hmem a ha)⟩

end WuBuOS.Memory
