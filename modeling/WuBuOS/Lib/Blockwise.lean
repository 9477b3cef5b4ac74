import Mathlib.Data.Int.NatAbs
import Mathlib.Data.List.Basic

/-!
# Taking input in blocks

A function that takes its input in blocks of one length, while the input arrives in pieces.  `absorb` feeds
the whole blocks of a list to the function and keeps what is left over, and `absorb_append` says that what is
left over and the next piece can be absorbed together, so that it does not matter where the pieces end.

`feed` is the same with the left-over bytes kept in a buffer that is filled up first, which is how such
functions are written, and `absorb_eq` reads `absorb` as a fold over the `blocks` of the whole list.
-/

namespace Blockwise

universe u v

variable {σ : Type u} {α : Type v}

/-- So many blocks at most. -/
def absorbN (size : Nat) (f : σ → List α → σ) : Nat → σ → List α → σ × List α
  | 0, s, l => (s, l)
  | n + 1, s, l => if l.length < size then (s, l) else absorbN size f n (f s (l.take size)) (l.drop size)

/-- The state after the whole blocks, and what is left over. -/
def absorb (size : Nat) (f : σ → List α → σ) (s : σ) (l : List α) : σ × List α := absorbN size f l.length s l

variable {size : Nat} {f : σ → List α → σ} {s : σ} {l l' : List α}

theorem absorbN_of_lt (h : l.length < size) (n : Nat) : absorbN size f n s l = (s, l) := by
  cases n with
  | zero => rfl
  | succ n => rw [absorbN, if_pos h]

/-- Enough is enough. -/
theorem absorbN_eq (hsize : 0 < size) : ∀ {n m : Nat} {s : σ} {l : List α}, l.length ≤ n → l.length ≤ m →
    absorbN size f n s l = absorbN size f m s l
  | 0, m, s, l, hn, _ => by
    rw [absorbN_of_lt (Nat.lt_of_le_of_lt hn hsize), absorbN_of_lt (Nat.lt_of_le_of_lt hn hsize)]
  | n + 1, 0, s, l, _, hm => by
    rw [absorbN_of_lt (Nat.lt_of_le_of_lt hm hsize), absorbN_of_lt (Nat.lt_of_le_of_lt hm hsize)]
  | n + 1, m + 1, s, l, hn, hm => by
    rw [absorbN, absorbN]
    split
    · rfl
    · refine absorbN_eq hsize ?_ ?_ <;>
      · rw [List.length_drop]
        omega

theorem absorb_of_lt (h : l.length < size) : absorb size f s l = (s, l) := absorbN_of_lt h _

/-- The first block. -/
theorem absorb_block (hsize : 0 < size) (h : l.length = size) (l' : List α) :
    absorb size f s (l ++ l') = absorb size f (f s l) l' := by
  obtain ⟨n, hn⟩ : ∃ n, (l ++ l').length = n + 1 := ⟨(l ++ l').length - 1, by rw [List.length_append]; omega⟩
  rw [absorb, hn, absorbN, if_neg (by rw [List.length_append]; omega), List.take_left' h, List.drop_left' h]
  rw [List.length_append] at hn
  exact absorbN_eq hsize (by omega) (Nat.le_refl _)

/-- **It does not matter where the pieces end.** -/
theorem absorb_append (hsize : 0 < size) (s : σ) (l l' : List α) :
    absorb size f s (l ++ l') = absorb size f (absorb size f s l).1 ((absorb size f s l).2 ++ l') := by
  induction hn : l.length using Nat.strongRecOn generalizing s l with
  | _ n ih =>
    by_cases hlt : l.length < size
    · rw [absorb_of_lt hlt]
    · have hlen : (l.take size).length = size := by
        rw [List.length_take]
        omega
      have hshort : (l.drop size).length < n := by
        rw [List.length_drop]
        omega
      conv_lhs => rw [← List.take_append_drop size l, List.append_assoc, absorb_block hsize hlen]
      rw [ih _ hshort _ _ rfl]
      have hfirst : absorb size f s l = absorb size f (f s (l.take size)) (l.drop size) := by
        conv_lhs => rw [← List.take_append_drop size l, absorb_block hsize hlen]
      rw [hfirst]

/-! ## Through a buffer -/

/-- What is in the buffer and the next piece: fill the buffer up to a block, and go on with the piece. -/
def feed (size : Nat) (f : σ → List α → σ) (s : σ) (buf data : List α) : σ × List α :=
  if buf.length ≠ 0 then
    if data.length < size - buf.length then (s, buf ++ data)
    else absorbN size f (data.drop (size - buf.length)).length (f s (buf ++ data.take (size - buf.length)))
      (data.drop (size - buf.length))
  else absorbN size f data.length s data

theorem feed_eq {buf : List α} (hbuf : buf.length < size) (s : σ) (data : List α) :
    feed size f s buf data = absorb size f s (buf ++ data) := by
  rw [feed]
  split
  · split
    · rename_i hshort
      rw [absorb_of_lt (by rw [List.length_append]; omega)]
    · have hlen : (buf ++ data.take (size - buf.length)).length = size := by
        rw [List.length_append, List.length_take]
        omega
      rw [← absorb, ← absorb_block (Nat.zero_lt_of_lt hbuf) hlen, List.append_assoc, List.take_append_drop]
  · rename_i hempty
    rw [List.eq_nil_of_length_eq_zero (not_not.1 hempty), List.nil_append, absorb]

/-- A function that takes two pieces as one takes any number of them as one. -/
theorem foldl_pieces {γ : Type*} (update : γ → List α → γ) (c : γ) (hnil : update c [] = c)
    (happend : ∀ data data', update (update c data) data' = update c (data ++ data')) (pieces : List (List α)) :
    pieces.foldl update c = update c pieces.flatten := by
  have hfold : ∀ (pieces : List (List α)) (data : List α),
      pieces.foldl update (update c data) = update c (data ++ pieces.flatten) := by
    intro pieces
    induction pieces with
    | nil => simp
    | cons piece pieces ih =>
      intro data
      rw [List.foldl_cons, happend, ih, List.append_assoc, List.flatten_cons]
  have h := hfold pieces []
  rwa [hnil, List.nil_append] at h

/-! ## The blocks of a list -/

/-- The whole blocks of a list, in order. -/
def blocks (size : Nat) (l : List α) : List (List α) :=
  (List.range (l.length / size)).map fun i => (l.drop (size * i)).take size

theorem blocks_of_lt (h : l.length < size) : blocks size l = [] := by
  rw [blocks, Nat.div_eq_of_lt h]
  rfl

theorem blocks_block (hsize : 0 < size) (h : l.length = size) (l' : List α) :
    blocks size (l ++ l') = l :: blocks size l' := by
  have hcount : (l ++ l').length / size = l'.length / size + 1 := by
    rw [List.length_append, h, Nat.add_div_left _ hsize]
  rw [blocks, hcount, List.range_succ_eq_map, List.map_cons, List.map_map, Nat.mul_zero, List.drop_zero,
    List.take_left' h, blocks]
  congr 2
  funext i
  have hdrop : size * (i + 1) = l.length + size * i := by
    rw [Nat.mul_succ, h]
    omega
  rw [Function.comp_apply, hdrop, List.drop_length_add_append]

theorem length_of_mem_blocks (hsize : 0 < size) {b : List α} (hb : b ∈ blocks size l) : b.length = size := by
  obtain ⟨i, hi, rfl⟩ := List.mem_map.1 hb
  have hle : size * i + size ≤ l.length := by
    rw [← Nat.mul_succ]
    exact Nat.le_trans (Nat.mul_le_mul_left _ (List.mem_range.1 hi)) (Nat.mul_div_le _ _)
  rw [List.length_take, List.length_drop]
  omega

/-- Two functions that do the same to every block do the same to all of them. -/
theorem foldl_blocks {τ : Type*} {f' : τ → List α → τ} (hsize : 0 < size) (g : σ → τ)
    (h : ∀ s b, b.length = size → g (f s b) = f' (g s) b) (s : σ) (l : List α) :
    g ((blocks size l).foldl f s) = (blocks size l).foldl f' (g s) := by
  have hlen : ∀ b ∈ blocks size l, b.length = size := fun b => length_of_mem_blocks hsize
  generalize blocks size l = bs at hlen
  induction bs generalizing s with
  | nil => rfl
  | cons b bs ih =>
    rw [List.foldl_cons, List.foldl_cons, ← h s b (hlen b List.mem_cons_self)]
    exact ih _ fun c hc => hlen c (List.mem_cons_of_mem b hc)

/-- **Absorbing is a fold over the blocks**, and what is left over is the rest. -/
theorem absorb_eq (hsize : 0 < size) (s : σ) (l : List α) :
    (absorb size f s l).1 = (blocks size l).foldl f s ∧ (absorb size f s l).2.length = l.length % size := by
  induction hn : l.length using Nat.strongRecOn generalizing s l with
  | _ n ih =>
    by_cases hlt : l.length < size
    · rw [absorb_of_lt hlt, blocks_of_lt hlt, ← hn, Nat.mod_eq_of_lt hlt]
      exact ⟨rfl, rfl⟩
    · have hlen : (l.take size).length = size := by
        rw [List.length_take]
        omega
      have hshort : (l.drop size).length < n := by
        rw [List.length_drop]
        omega
      obtain ⟨hfold, hrest⟩ := ih _ hshort (f s (l.take size)) (l.drop size) rfl
      rw [List.length_drop, hn, ← Nat.mod_eq_sub_mod (by omega)] at hrest
      have hfirst := absorb_block (f := f) (s := s) hsize hlen (l.drop size)
      have hblocks := blocks_block hsize hlen (l.drop size)
      rw [List.take_append_drop] at hfirst hblocks
      rw [hfirst, hblocks]
      exact ⟨hfold, hrest⟩

/-- Less than a block is left over. -/
theorem length_absorb_lt (hsize : 0 < size) (s : σ) (l : List α) : (absorb size f s l).2.length < size := by
  rw [(absorb_eq hsize s l).2]
  exact Nat.mod_lt _ hsize

end Blockwise
