import WuBuOS.Lib.Bytes

/-!
# Code with bounded buffers

A function that takes apart what it is given refuses it or goes on, and may go wrong on the way: it can touch a
byte that is not its own, or never end.  `Stop` is why it stops, and a `Buffer` has a size that every access
is checked against.

A loop over the elements of an array is `each`.  What a step of it amounts to when its accesses are all right
is a function to `Option`, `none` for a refusal; `Each` says of every element that is reached that they
are.  Then the loop amounts to `eachSome` (`each_eq`), and where they are not it goes wrong (`each_wild`).
-/

namespace Guarded

/-- Why the code stops. -/
inductive Stop where
  | refused
  | wild
  | hung
  deriving DecidableEq

/-- The code ends, and does not go wrong. -/
def Settled {α : Type} : Except Stop α → Prop
  | .ok _ | .error .refused => True
  | .error _ => False

@[simp]
theorem ok_bind {α β : Type} (x : α) (g : α → Except Stop β) : (Except.ok x >>= g) = g x := rfl

/-! ## Buffers -/

structure Buffer where
  size : Nat
  byte : Nat → UInt8

/-- The number in the `n` bytes from `a`. -/
def Buffer.get (b : Buffer) (a n : Nat) : Except Stop Nat :=
  if a + n ≤ b.size then .ok (Bytes.get b.byte a n) else .error .wild

/-- The bytes after `v` has been stored in the `n` bytes from `a`. -/
def Buffer.put (b : Buffer) (a n v : Nat) : Except Stop (Nat → UInt8) :=
  if a + n ≤ b.size then .ok (Bytes.put b.byte a n v) else .error .wild

/-- The bytes after `n` bytes from `src` in another buffer have been copied to `dst`. -/
def Buffer.copy (b : Buffer) (dst : Nat) (f : Buffer) (src n : Nat) : Except Stop (Nat → UInt8) :=
  if dst + n ≤ b.size ∧ src + n ≤ f.size then .ok (Bytes.write b.byte dst n fun i => f.byte (src + i))
  else .error .wild

section

variable {b f : Buffer} {a n v dst src : Nat}

theorem Buffer.get_eq (h : a + n ≤ b.size) : b.get a n = .ok (Bytes.get b.byte a n) := if_pos h

theorem Buffer.get_wild (h : b.size < a + n) : b.get a n = .error .wild := if_neg (Nat.not_le_of_lt h)

theorem Buffer.put_eq (h : a + n ≤ b.size) : b.put a n v = .ok (Bytes.put b.byte a n v) := if_pos h

theorem Buffer.copy_eq (hdst : dst + n ≤ b.size) (hsrc : src + n ≤ f.size) :
    b.copy dst f src n = .ok (Bytes.write b.byte dst n fun i => f.byte (src + i)) := if_pos ⟨hdst, hsrc⟩

theorem Buffer.copy_wild (h : b.size < dst + n) : b.copy dst f src n = .error .wild :=
  if_neg fun hin => Nat.not_le_of_lt h hin.1

end

/-! ## Loops -/

variable {σ : Type} {w n k a : Nat} {s t : σ}

/-- The `n` elements of an array from `a`, `w` bytes each. -/
def each (w : Nat) (step : Nat → σ → Except Stop σ) : Nat → Nat → σ → Except Stop σ
  | 0, _, s => .ok s
  | n + 1, a, s => (step a s).bind (each w step n (a + w))

def eachSome (w : Nat) (f : Nat → σ → Option σ) : Nat → Nat → σ → Option σ
  | 0, _, s => some s
  | n + 1, a, s => (f a s).bind (eachSome w f n (a + w))

/-- Every element that is reached has the property. -/
def Each (w : Nat) (f : Nat → σ → Option σ) (P : Nat → σ → Prop) : Nat → Nat → σ → Prop
  | 0, _, _ => True
  | n + 1, a, s => P a s ∧ ∀ t, f a s = some t → Each w f P n (a + w) t

/-- The outcome `none` is a refusal. -/
def answer : Option σ → Except Stop σ
  | none => .error .refused
  | some s => .ok s

variable {step : Nat → σ → Except Stop σ} {f : Nat → σ → Option σ} {P : Nat → σ → Prop}

/-- Every step that meets the condition amounts to `f`, and every other one goes wrong. -/
structure Checks (w : Nat) (step : Nat → σ → Except Stop σ) (f : Nat → σ → Option σ) (P : Nat → σ → Prop)
    (n a : Nat) : Prop where
  fit : ∀ i < n, ∀ s, P (a + w * i) s → step (a + w * i) s = answer (f (a + w * i) s)
  unfit : ∀ i < n, ∀ s, ¬P (a + w * i) s → step (a + w * i) s = .error .wild

theorem Checks.tail (h : Checks w step f P (n + 1) a) : Checks w step f P n (a + w) where
  fit i hi s hp := by
    have := h.fit (i + 1) (Nat.succ_lt_succ hi) s
    rw [Nat.mul_succ, Nat.add_comm (w * i), ← Nat.add_assoc] at this
    exact this hp
  unfit i hi s hp := by
    have := h.unfit (i + 1) (Nat.succ_lt_succ hi) s
    rw [Nat.mul_succ, Nat.add_comm (w * i), ← Nat.add_assoc] at this
    exact this hp

theorem Checks.head (h : Checks w step f P (n + 1) a) (s : σ) :
    (P a s → step a s = answer (f a s)) ∧ (¬P a s → step a s = .error .wild) :=
  ⟨h.fit 0 (Nat.succ_pos n) s, h.unfit 0 (Nat.succ_pos n) s⟩

/-- **A loop whose elements are all right amounts to `eachSome`.** -/
theorem each_eq (h : Checks w step f P n a) (hs : Each w f P n a s) :
    each w step n a s = answer (eachSome w f n a s) := by
  induction n generalizing a s with
  | zero => rfl
  | succ n ih =>
    rw [each, eachSome, (h.head s).1 hs.1]
    cases hf : f a s with
    | none => rfl
    | some t => exact ih h.tail (hs.2 t hf)

/-- **A loop that reaches an element that is not goes wrong.** -/
theorem each_wild (h : Checks w step f P n a) (hs : ¬Each w f P n a s) : each w step n a s = .error .wild := by
  induction n generalizing a s with
  | zero => exact absurd trivial hs
  | succ n ih =>
    rw [each]
    by_cases hp : P a s
    · obtain ⟨t, hf, ht⟩ : ∃ t, f a s = some t ∧ ¬Each w f P n (a + w) t := by
        by_contra hall
        refine hs ⟨hp, fun t hf => ?_⟩
        by_contra ht
        exact hall ⟨t, hf, ht⟩
      rw [(h.head s).1 hp, hf]
      exact ih h.tail ht
    · rw [(h.head s).2 hp]
      rfl

/-- A loop in two parts. -/
theorem each_add (step : Nat → σ → Except Stop σ) (n k a : Nat) (s : σ) :
    each w step (n + k) a s = (each w step n a s).bind (each w step k (a + w * n)) := by
  induction n generalizing a s with
  | zero => rw [Nat.zero_add]; rfl
  | succ n ih =>
    rw [Nat.add_right_comm, each, each]
    cases step a s with
    | error e => rfl
    | ok t =>
      show each w step (n + k) (a + w) t = (each w step n (a + w) t).bind _
      rw [ih, Nat.mul_succ, Nat.add_comm (w * n), ← Nat.add_assoc]

end Guarded
