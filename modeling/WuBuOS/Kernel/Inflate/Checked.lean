import WuBuOS.Kernel.Inflate.Correct

/-!
# The inflater with its accesses checked

`wubu_inflate.c` once more, with every index it uses: into the source, the code lengths, the tables of symbols and
the destination.  An index out of range is `wild`, and a loop that does not end is `hung`.  Where none of this
happens, it is the inflater of before (`inflateRaw_sound`).

A position is a `uint32_t`.  The check that the four bytes before stored data are there adds `4` to it, and at
the very end of a source of almost 4 GB the sum starts again from zero: the check is passed, and the bytes
read may not be there.  Nothing else can go wrong (`LengthsThere`).

A `Reader` counts the bits that are taken from the stream, those at its end that are made up included.
-/

namespace WuBuOS
namespace Inflate
namespace Checked

/-- Why the inflater stops. -/
inductive Stop where
  /-- It returns this. -/
  | refused (code : Int)
  /-- An index is out of range. -/
  | wild
  | hung
  deriving DecidableEq

/-! ## The bit reader -/

/-- A bit reader, and how many bits of the stream lie behind it. -/
structure Reader extends Br where
  taken : Nat

/-- `br_get`. -/
def get (b : Reader) (n : Nat) : Except Stop (Nat × Reader) :=
  if (brFill n n b.toBr).bitcnt < n then .error .hung
  else .ok ((brGet b.toBr n).1, ⟨(brGet b.toBr n).2, b.taken + n⟩)

/-! ## Codes -/

/-- The room for symbols in a table. -/
def maxSym : Nat := 288

/-- The second loop of `huff_build`. -/
def huffSort : List Nat → Nat → (Nat → Nat) → (Nat → Nat) → Except Stop (Nat → Nat)
  | [], _, _, sym => .ok sym
  | len :: ls, i, offs, sym =>
    if len = 0 then huffSort ls (i + 1) offs sym
    else if maxSym ≤ offs len then .error .wild
    else huffSort ls (i + 1) (store offs len (offs len + 1)) (store sym (offs len) i)

/-- `huff_build`; there are counts for lengths up to fifteen. -/
def huffBuild (lengths : List Nat) : Except Stop Huff :=
  let cnt := huffCnt lengths
  if lengths.any (15 < ·) then .error .wild
  else
    match huffLeft cnt 15 1 1 with
    | none => .error (.refused (-1))
    | some left =>
      if left ≠ 0 ∧ (lengths.length = 0 ∨ left ≠ 1) then .error (.refused (-1))
      else do
        let sym ← huffSort lengths 0 (huffOffs cnt) fun _ => 0
        .ok ⟨cnt, sym⟩

/-- The loop of `huff_decode`. -/
def huffDecodeFrom (h : Huff) : Nat → Nat → Nat → Nat → Nat → Reader → Except Stop (Nat × Reader)
  | 0, _, _, _, _, _ => .error (.refused (-1))
  | k + 1, len, code, first, index, b => do
    let (bit, b) ← get b 1
    let code := code ||| bit
    let count := h.cnt len
    if code - first < count then
      if maxSym ≤ index + (code - first) then .error .wild else .ok (h.sym (index + (code - first)), b)
    else huffDecodeFrom h k (len + 1) (code <<< 1) ((first + count) <<< 1) (index + count) b

def huffDecode (b : Reader) (h : Huff) : Except Stop (Nat × Reader) :=
  huffDecodeFrom h 15 1 0 0 0 b

/-! ## Blocks -/

def sinkPut (cap : Nat) (out : List UInt8) (c : UInt8) : Except Stop (List UInt8) :=
  if cap ≤ out.length then .error (.refused (-2)) else .ok (out ++ [c])

/-- Copy bytes from `distance` back, which have to be bytes that have been written. -/
def copyBack (cap distance : Nat) : Nat → List UInt8 → Except Stop (List UInt8)
  | 0, out => .ok out
  | k + 1, out => do
    if distance = 0 ∨ out.length < distance then .error .wild
    else
      let out ← sinkPut cap out (out.getD (out.length - distance) 0)
      copyBack cap distance k out

def blockDecode (lit dist : Huff) (cap : Nat) :
    Nat → Reader → List UInt8 → Except Stop (Reader × List UInt8)
  | 0, _, _ => .error .hung
  | fuel + 1, b, out => do
    let (sym, b) ← huffDecode b lit
    if sym = 256 then .ok (b, out)
    else if sym < 256 then do
      let out ← sinkPut cap out (UInt8.ofNat sym)
      blockDecode lit dist cap fuel b out
    else if 29 ≤ sym - 257 then .error (.refused (-1))
    else do
      let (e, b) ← get b (lenExtra.getD (sym - 257) 0)
      let length := lenBase.getD (sym - 257) 0 + e
      let (ds, b) ← huffDecode b dist
      if 30 ≤ ds then .error (.refused (-1))
      else do
        let (e, b) ← get b (distExtra.getD ds 0)
        let distance := distBase.getD ds 0 + e
        if out.length < distance then .error (.refused (-1))
        else do
          let out ← copyBack cap distance length out
          blockDecode lit dist cap fuel b out

/-- The room for the lengths of the code for the code lengths. -/
def maxOrder : Nat := 19

/-- Read the lengths of the code for the code lengths. -/
def readOrder : List Nat → Reader → List Nat → Except Stop (List Nat × Reader)
  | [], b, cl => .ok (cl, b)
  | o :: os, b, cl => do
    let (v, b) ← get b 3
    if maxOrder ≤ o then .error .wild else readOrder os b (cl.set o v)

/-- The room for code lengths. -/
def maxLengths : Nat := 320

/-- `lengths[i++] = v`. -/
def pushLength (v : Nat) (ls : List Nat) : Except Stop (List Nat) :=
  if maxLengths ≤ ls.length then .error .wild else .ok (ls ++ [v])

/-- `while (rep-- > 0 && i < n) lengths[i++] = v`. -/
def repeatLength (n v : Nat) : Nat → List Nat → Except Stop (List Nat)
  | 0, ls => .ok ls
  | rep + 1, ls =>
    if ls.length < n then do
      let ls ← pushLength v ls
      repeatLength n v rep ls
    else .ok ls

/-- The loop of `block_dynamic`. -/
def readLengths (clh : Huff) (n : Nat) : Nat → Reader → List Nat → Except Stop (List Nat × Reader)
  | 0, b, ls => if ls.length < n then .error .hung else .ok (ls, b)
  | fuel + 1, b, ls =>
    if ls.length < n then do
      let (s, b) ← huffDecode b clh
      if s < 16 then do
        let ls ← pushLength s ls
        readLengths clh n fuel b ls
      else if s = 16 then
        if ls.length = 0 then .error (.refused (-1))
        else do
          let (e, b) ← get b 2
          let ls ← repeatLength n (ls.getD (ls.length - 1) 0) (e + 3) ls
          readLengths clh n fuel b ls
      else if s = 17 then do
        let (e, b) ← get b 3
        let ls ← repeatLength n 0 (e + 3) ls
        readLengths clh n fuel b ls
      else if s = 18 then do
        let (e, b) ← get b 7
        let ls ← repeatLength n 0 (e + 11) ls
        readLengths clh n fuel b ls
      else .error (.refused (-1))
    else .ok (ls, b)

def blockDynamic (cap : Nat) (b : Reader) (out : List UInt8) : Except Stop (Reader × List UInt8) := do
  let (e, b) ← get b 5
  let hlit := e + 257
  let (e, b) ← get b 5
  let hdist := e + 1
  let (e, b) ← get b 4
  let hclen := e + 4
  if maxOrder < hclen then .error .wild
  else do
    let (cl, b) ← readOrder (order.take hclen) b (List.replicate 19 0)
    let clh ← huffBuild cl
    let (lengths, b) ← readLengths clh (hlit + hdist) (hlit + hdist) b []
    let lit ← huffBuild (lengths.take hlit)
    let dist ← huffBuild (lengths.drop hlit)
    blockDecode lit dist cap (cap + 1) b out

/-- At a byte of the source. -/
def Reader.moveTo (b : Reader) (p : Nat) : Reader := ⟨{ b.toBr with pos := p }, 8 * p⟩

/-- The bytes of a stored block. -/
def storedCopy (cap : Nat) : Nat → Reader → List UInt8 → Except Stop (Reader × List UInt8)
  | 0, b, out => .ok (b, out)
  | k + 1, b, out =>
    if b.data.length ≤ b.pos then .error (.refused (-1))
    else do
      let out ← sinkPut cap out (b.data.getD b.pos 0)
      storedCopy cap k (b.moveTo (b.pos + 1)) out

/-- `br_align`. -/
def Reader.align (b : Reader) : Reader := ⟨brAlign b.toBr, b.taken⟩

/-- The length before stored data. -/
def storedLength (b : Br) : Nat := (b.data.getD b.pos 0).toNat ||| (b.data.getD (b.pos + 1) 0).toNat <<< 8

/-- A stored block.  Two bytes are read behind the bound check, and those of the complement are skipped. -/
def blockStored (cap : Nat) (b : Reader) (out : List UInt8) : Except Stop (Reader × List UInt8) :=
  let b := b.align
  if b.data.length < (b.pos + 4) % 2 ^ 32 then .error (.refused (-1))
  else if b.data.length ≤ b.pos + 1 then .error .wild
  else storedCopy cap (storedLength b.toBr) (b.moveTo ((b.pos + 4) % 2 ^ 32)) out

/-- A block with the fixed codes. -/
def blockFixed (cap : Nat) (b : Reader) (out : List UInt8) : Except Stop (Reader × List UInt8) := do
  let lit ← huffBuild fixedLitlen
  let dist ← huffBuild fixedDist
  blockDecode lit dist cap (cap + 1) b out

/-- The branch on the type of the block. -/
def blockOf (cap btype : Nat) (b : Reader) (out : List UInt8) : Except Stop (Reader × List UInt8) :=
  if btype = 0 then blockStored cap b out
  else if btype = 1 then blockFixed cap b out
  else if btype = 2 then blockDynamic cap b out
  else .error (.refused (-1))

/-- What is returned, the bytes and how many of the source have been fetched; and how many bits of the stream have
been taken, and the type of the last block. -/
structure Inflated where
  out : List UInt8
  used : Nat
  taken : Nat
  lastType : Nat

/-- The two fields before a block, and the reader behind them. -/
def blockHeader (b : Reader) : Nat × Nat × Reader :=
  ((brGet b.toBr 1).1, (brGet (brGet b.toBr 1).2 2).1, ⟨(brGet (brGet b.toBr 1).2 2).2, b.taken + 1 + 2⟩)

/-- The loop of `inflate_raw`. -/
def inflateLoop (cap : Nat) : Nat → Reader → List UInt8 → Except Stop Inflated
  | 0, _, _ => .error (.refused (-1))
  | guard + 1, b, out => do
    let (bfinal, b) ← get b 1
    let (btype, b) ← get b 2
    let (b, out) ← blockOf cap btype b out
    if bfinal ≠ 0 then .ok ⟨out, b.pos, b.taken, btype⟩ else inflateLoop cap guard b out

/-- The reader at the beginning of the source. -/
def Reader.start (src : List UInt8) : Reader := ⟨⟨src, 0, 0, 0⟩, 0⟩

def inflateRaw (src : List UInt8) (cap : Nat) : Except Stop Inflated := inflateLoop cap 1000000 (.start src) []

/-- **The lengths of stored blocks are there**: at every stored block that the decoder comes to, the position of its
length is not in the last four bytes below `2 ^ 32`, or its two bytes are in the source all the same. -/
def LengthsThere (cap : Nat) : Nat → Reader → List UInt8 → Prop
  | 0, _, _ => True
  | guard + 1, b, out =>
    ((blockHeader b).2.1 = 0 → (blockHeader b).2.2.pos + 4 < 2 ^ 32 ∨ (blockHeader b).2.2.pos + 1 < b.data.length) ∧
      ∀ r, blockOf cap (blockHeader b).2.1 (blockHeader b).2.2 out = .ok r → (blockHeader b).1 = 0 →
        LengthsThere cap guard r.1 r.2

/-! ## The checks pass -/

variable {α β : Type} {b : Reader} {ls lens : List Nat} {cap n v : Nat}

/-- What the inflater without checks returns. -/
def answer : Except Int α → Except Stop α
  | .ok a => .ok a
  | .error c => .error (.refused c)

/-- **The checks pass**: the one with checks does what the one without does, but for what it counts, and what it
returns has the property. -/
structure Sound (f : α → β) (checked : Except Stop α) (plain : Except Int β) (P : α → Prop) : Prop where
  eq : checked.map f = answer plain
  post : ∀ a, checked = .ok a → P a

section

variable {α' β' : Type} {x : Except Stop α} {y : Except Int β} {f : α → β} {g : α' → β'} {P P' : α → Prop}
  {F : α → Except Stop α'} {G : β → Except Int β'} {Q : α' → Prop}

theorem bind_ok (a : α) (F : α → Except Stop β) : (Except.ok a >>= F) = F a := rfl

theorem Sound.ok {a : α} (h : P a) : Sound f (.ok a) (.ok (f a)) P where
  eq := rfl
  post _ ha := Except.ok.inj ha ▸ h

theorem Sound.error (c : Int) : Sound f (.error (.refused c)) (.error c) P where
  eq := rfl
  post _ ha := nomatch ha

theorem Sound.bind (h : Sound f x y P) (hF : ∀ a, P a → Sound g (F a) (G (f a)) Q) : Sound g (x >>= F) (y >>= G) Q := by
  have heq := h.eq
  cases x with
  | error e =>
    cases y with
    | error c =>
      obtain rfl := Except.error.inj heq
      exact .error c
    | ok b => cases heq
  | ok a =>
    cases y with
    | error c => cases heq
    | ok b =>
      cases heq
      exact hF a (h.post a rfl)

/-- What the one without checks does not have to bind. -/
theorem Sound.bind_pure {b : β} {z : Except Int β'} (h : Sound f x (.ok b) P)
    (hF : ∀ a, P a → f a = b → Sound g (F a) z Q) : Sound g (x >>= F) z Q := by
  have heq := h.eq
  cases x with
  | error e => cases heq
  | ok a => exact hF a (h.post a rfl) (Except.ok.inj heq)

theorem Sound.ite {c : Prop} [Decidable c] {x' : Except Stop α} {y' : Except Int β} (h : c → Sound f x y P)
    (h' : ¬c → Sound f x' y' P) : Sound f (if c then x else x') (if c then y else y') P := by
  split
  · exact h ‹_›
  · exact h' ‹_›

/-- What it returns is what has been returned. -/
theorem Sound.self (h : Sound f x y P) : Sound f x y fun a => P a ∧ x = .ok a := ⟨h.eq, fun a ha => ⟨h.post a ha, ha⟩⟩

theorem Sound.mono (h : Sound f x y P) (hP : ∀ a, P a → P' a) : Sound f x y P' := ⟨h.eq, fun a ha => hP a (h.post a ha)⟩

end

/-! ### Bits -/

/-- A reader of the source, which has not passed its end. -/
structure Within (src : List UInt8) (b : Br) : Prop where
  data : b.data = src
  pos : b.pos ≤ src.length

theorem brFetch_cnt (b : Br) : (brFetch b).bitcnt = b.bitcnt + 8 := by
  rw [brFetch]
  split
  · rfl
  · rfl

/-- The loop of `br_get` ends with bits enough. -/
theorem brFill_cnt {b : Br} {k : Nat} (h : n ≤ b.bitcnt + 8 * k) : n ≤ (brFill n k b).bitcnt := by
  induction k generalizing b with
  | zero => exact h
  | succ k ih =>
    rw [brFill]
    split
    · refine ih ?_
      rw [brFetch_cnt]
      omega
    · omega

theorem get_eq (b : Reader) (n : Nat) : get b n = .ok ((brGet b.toBr n).1, ⟨(brGet b.toBr n).2, b.taken + n⟩) :=
  if_neg (Nat.not_lt.2 (brFill_cnt (by omega)))

variable {src out : List UInt8}

theorem Within.fetch {b : Br} (h : Within src b) : Within src (brFetch b) := by
  rw [brFetch]
  split
  · exact ⟨h.data, h.pos⟩
  · rename_i hlt
    rw [h.data] at hlt
    exact ⟨h.data, Nat.lt_of_not_le hlt⟩

theorem Within.fill {b : Br} {k : Nat} (h : Within src b) : Within src (brFill n k b) := by
  induction k generalizing b with
  | zero => exact h
  | succ k ih =>
    rw [brFill]
    split
    · exact ih h.fetch
    · exact h

theorem Within.get {b : Br} (h : Within src b) (n : Nat) : Within src (brGet b n).2 := ⟨h.fill.data, h.fill.pos⟩

theorem brGet_lt (b : Br) (n : Nat) : (brGet b n).1 < 2 ^ n := by
  simp only [brGet, Nat.one_shiftLeft, Nat.and_two_pow_sub_one_eq_mod]
  exact Nat.mod_lt _ (Nat.two_pow_pos n)

/-- What is read, without what is counted. -/
def uncounted (r : α × Reader) : α × Br := (r.1, r.2.toBr)

/-! ### Codes -/

/-- There is room for the symbols of all words. -/
structure TableOk (h : Huff) : Prop where
  zero : h.cnt 0 = 0
  room : ∀ l, huffOffs h.cnt l ≤ maxSym

theorem huffSort_sound {i : Nat} {offs sym : Nat → Nat} (h : ∀ l, l ≠ 0 → offs l + lens.count l ≤ maxSym) :
    huffSort lens i offs sym = .ok (Inflate.huffSort lens i offs sym) := by
  induction lens generalizing i offs sym with
  | nil => rfl
  | cons len ls ih =>
    rw [huffSort, Inflate.huffSort]
    split
    · rename_i hlen
      refine ih fun l hl => ?_
      have := h l hl
      rwa [List.count_cons_of_ne (by omega)] at this
    · rename_i hlen
      have hself := h len hlen
      rw [List.count_cons_self] at hself
      rw [if_neg (by omega)]
      refine ih fun l hl => ?_
      rw [store]
      split
      · rename_i heq
        rw [heq]
        omega
      · rename_i hne
        have := h l hl
        rwa [List.count_cons_of_ne (fun heq => hne heq.symm)] at this

theorem countP_succ (lens : List Nat) (l : Nat) : lens.countP (· < l + 1) = lens.countP (· < l) + lens.count l := by
  induction lens with
  | nil => rfl
  | cons x xs ih =>
    rw [List.countP_cons, List.countP_cons, List.count_cons, ih]
    rcases Nat.lt_trichotomy x l with hlt | heq | hgt
    · simp [hlt, Nat.lt_succ_of_lt hlt, Nat.ne_of_lt hlt]
      omega
    · simp [heq]
      omega
    · simp [Nat.not_lt_of_gt hgt, Nat.ne_of_gt hgt, show ¬x < l + 1 by omega]

theorem huffOffs_le (lens : List Nat) (l : Nat) : huffOffs (huffCnt lens) l ≤ lens.countP (· < l) := by
  induction l with
  | zero => exact Nat.zero_le _
  | succ l ih =>
    rw [huffOffs, countP_succ, huffCnt]
    split
    · omega
    · omega

theorem huffBuild_sound (hlen : lens.length ≤ maxSym) (hmax : ∀ l ∈ lens, l ≤ 15) :
    Sound id (huffBuild lens) (Inflate.huffBuild lens) TableOk := by
  have hoffs : ∀ l, huffOffs (huffCnt lens) l ≤ maxSym := fun l =>
    (huffOffs_le lens l).trans (List.countP_le_length.trans hlen)
  have hsort := @huffSort_sound lens 0 (huffOffs (huffCnt lens)) (fun _ => 0) fun l hl => by
    have hnext := hoffs (l + 1)
    rwa [huffOffs, huffCnt, if_neg hl] at hnext
  have hany : lens.any (15 < ·) = false := by
    rw [List.any_eq_false]
    intro l hl
    simpa using hmax l hl
  rw [huffBuild, Inflate.huffBuild, if_neg (by simp [hany]), hsort, bind_ok]
  cases huffLeft (huffCnt lens) 15 1 1 with
  | none => exact .error (-1)
  | some left => exact .ite (fun _ => .error (-1)) fun _ => .ok ⟨rfl, hoffs⟩

theorem huffDecodeFrom_sound {h : Huff} (hh : TableOk h) (hb : Within src b.toBr) (k len code first : Nat) :
    Sound uncounted (huffDecodeFrom h k len code first (huffOffs h.cnt len) b)
      (Inflate.huffDecodeFrom h k len code first (huffOffs h.cnt len) b.toBr) (Within src ·.2.toBr) := by
  induction k generalizing len code first b with
  | zero => exact .error (-1)
  | succ k ih =>
    rw [huffDecodeFrom, Inflate.huffDecodeFrom, get_eq, bind_ok]
    refine .ite (fun hlt => ?_) fun _ => ih (hb.get 1) (len + 1) _ _
    have hnext := hh.room (len + 1)
    rw [huffOffs] at hnext
    rw [if_neg (by omega)]
    exact .ok (hb.get 1)

theorem huffDecode_sound {h : Huff} (hh : TableOk h) (hb : Within src b.toBr) :
    Sound uncounted (huffDecode b h) (Inflate.huffDecode b.toBr h) (Within src ·.2.toBr) := by
  have hfrom := huffDecodeFrom_sound hh hb 15 1 0 0
  rwa [huffOffs, huffOffs, hh.zero] at hfrom

/-! ### Blocks -/

theorem sinkPut_sound (cap : Nat) (out : List UInt8) (c : UInt8) :
    Sound id (sinkPut cap out c) (Inflate.sinkPut cap out c)
      (fun out' => out'.length ≤ cap ∧ out'.length = out.length + 1) := by
  refine .ite (fun _ => .error (-2)) fun hlt => .ok ?_
  rw [List.length_append, List.length_singleton]
  omega

theorem copyBack_sound {distance k : Nat} (hout : out.length ≤ cap) (hpos : 0 < distance) (hd : distance ≤ out.length) :
    Sound id (copyBack cap distance k out) (Inflate.copyBack cap distance k out)
      (fun out' => out'.length ≤ cap ∧ out'.length = out.length + k) := by
  induction k generalizing out with
  | zero => exact .ok ⟨hout, rfl⟩
  | succ k ih =>
    rw [copyBack, Inflate.copyBack, if_neg (by omega)]
    refine (sinkPut_sound cap out _).bind fun out' h => (ih h.1 (by omega)).mono fun out'' h' => ⟨h'.1, ?_⟩
    omega

theorem lenBase_pos : ∀ i < 29, 0 < lenBase.getD i 0 := by decide

theorem distBase_pos : ∀ d < 30, 0 < distBase.getD d 0 := by decide

/-- What is returned is within the bounds. -/
def Bounded (src : List UInt8) (cap : Nat) (r : Reader × List UInt8) : Prop :=
  Within src r.1.toBr ∧ r.2.length ≤ cap

/-- A block read, without what is counted. -/
def uncountedBlock (r : Reader × List UInt8) : Br × List UInt8 := (r.1.toBr, r.2)

/-- Every round adds a byte, and there is room for only so many. -/
theorem blockDecode_sound {lit dist : Huff} {fuel : Nat} (hlit : TableOk lit) (hdist : TableOk dist)
    (hb : Within src b.toBr) (hout : out.length ≤ cap) (hfuel : cap < out.length + fuel) :
    Sound uncountedBlock (blockDecode lit dist cap fuel b out) (Inflate.blockDecode lit dist cap fuel b.toBr out)
      (Bounded src cap) := by
  induction fuel generalizing b out with
  | zero => omega
  | succ fuel ih =>
    rw [blockDecode, Inflate.blockDecode]
    refine (huffDecode_sound hlit hb).bind fun r hr => ?_
    refine .ite (fun _ => .ok ⟨hr, hout⟩) fun _ => .ite (fun _ => ?_) fun _ => .ite (fun _ => .error (-1)) fun hs => ?_
    · exact (sinkPut_sound cap out _).bind fun out' h => ih hr h.1 (by omega)
    · rw [get_eq, bind_ok]
      refine (huffDecode_sound hdist (hr.get _)).bind fun r' hr' => ?_
      refine .ite (fun _ => .error (-1)) fun hd => ?_
      rw [get_eq, bind_ok]
      refine .ite (fun _ => .error (-1)) fun hback => ?_
      have hl0 := lenBase_pos _ (Nat.lt_of_not_le hs)
      have hd0 := distBase_pos _ (Nat.lt_of_not_le hd)
      refine (copyBack_sound hout (by omega) (by omega)).bind fun out' h => ih (hr'.get _) h.1 ?_
      omega

/-! ### Code lengths -/

/-- Lengths read so far. -/
def LengthsOk (n : Nat) (ls : List Nat) : Prop := ls.length ≤ n ∧ ∀ l ∈ ls, l ≤ 15

theorem pushLength_eq (hn : n ≤ maxLengths) (h : ls.length < n) : pushLength v ls = .ok (ls ++ [v]) :=
  if_neg (by omega)

theorem LengthsOk.push (hls : LengthsOk n ls) (hv : v ≤ 15) (h : ls.length < n) : LengthsOk n (ls ++ [v]) := by
  refine ⟨?_, fun l hl => ?_⟩
  · rw [List.length_append, List.length_singleton]
    omega
  · rcases List.mem_append.1 hl with hl | hl
    · exact hls.2 l hl
    · rw [List.mem_singleton.1 hl]
      exact hv

theorem repeatLength_sound {k : Nat} (hn : n ≤ maxLengths) (hv : v ≤ 15) (hls : LengthsOk n ls) :
    repeatLength n v k ls = .ok (Inflate.repeatLength n v k ls) ∧ LengthsOk n (Inflate.repeatLength n v k ls) ∧
      ls.length ≤ (Inflate.repeatLength n v k ls).length ∧
      (0 < k → ls.length < n → ls.length < (Inflate.repeatLength n v k ls).length) := by
  induction k generalizing ls with
  | zero => exact ⟨rfl, hls, Nat.le_refl _, fun h => absurd h (Nat.lt_irrefl 0)⟩
  | succ k ih =>
    rw [repeatLength, Inflate.repeatLength]
    split
    · rename_i hlt
      obtain ⟨heq, hok, hle, -⟩ := ih (hls.push hv hlt)
      rw [List.length_append, List.length_singleton] at hle
      rw [pushLength_eq hn hlt, bind_ok]
      exact ⟨heq, hok, by omega, fun _ _ => hle⟩
    · rename_i hge
      exact ⟨rfl, hls, Nat.le_refl _, fun _ hlt => absurd hlt hge⟩

theorem readOrder_sound {os cl : List Nat} (hos : ∀ o ∈ os, o < maxOrder) (hb : Within src b.toBr)
    (hcl : cl.length = maxOrder ∧ ∀ l ∈ cl, l ≤ 15) :
    Sound uncounted (readOrder os b cl) (.ok (Inflate.readOrder os b.toBr cl))
      (fun r => Within src r.2.toBr ∧ r.1.length = maxOrder ∧ ∀ l ∈ r.1, l ≤ 15) := by
  induction os generalizing b cl with
  | nil => exact .ok ⟨hb, hcl⟩
  | cons o os ih =>
    rw [readOrder, Inflate.readOrder, get_eq, bind_ok]
    dsimp only
    rw [if_neg (Nat.not_le.2 (hos o List.mem_cons_self))]
    refine ih (fun o ho => hos o (List.mem_cons_of_mem _ ho)) (hb.get 3) ⟨?_, fun l hl => ?_⟩
    · rw [List.length_set]
      exact hcl.1
    · rcases List.mem_or_eq_of_mem_set hl with hl | rfl
      · exact hcl.2 l hl
      · have := brGet_lt b.toBr 3
        omega

/-- Every round reads a length. -/
theorem readLengths_sound {clh : Huff} {fuel : Nat} (hclh : TableOk clh) (hb : Within src b.toBr) (hn : n ≤ maxLengths)
    (hls : LengthsOk n ls) (hfuel : n ≤ ls.length + fuel) :
    Sound uncounted (readLengths clh n fuel b ls) (Inflate.readLengths clh n fuel b.toBr ls)
      (fun r => LengthsOk n r.1 ∧ Within src r.2.toBr) := by
  induction fuel generalizing b ls with
  | zero =>
    rw [readLengths, Inflate.readLengths, if_neg (by omega)]
    exact .ok ⟨hls, hb⟩
  | succ fuel ih =>
    -- a round that repeats a length
    have hrep : ∀ (v k : Nat) (b' : Reader), v ≤ 15 → 0 < k → Within src b'.toBr → ls.length < n →
        Sound uncounted (repeatLength n v k ls >>= fun ls => readLengths clh n fuel b' ls)
          (Inflate.readLengths clh n fuel b'.toBr (Inflate.repeatLength n v k ls))
          (fun r => LengthsOk n r.1 ∧ Within src r.2.toBr) := by
      intro v k b' hv hk hb' hlt
      obtain ⟨heq, hok, -, hmore⟩ := @repeatLength_sound ls n v k hn hv hls
      rw [heq, bind_ok]
      exact ih hb' hok (by omega)
    rw [readLengths, Inflate.readLengths]
    refine .ite (fun hlt => ?_) fun _ => .ok ⟨hls, hb⟩
    refine (huffDecode_sound hclh hb).bind fun r hr => ?_
    refine .ite (fun hs => ?_) fun _ => .ite (fun _ => .ite (fun _ => .error (-1)) fun hne => ?_) fun _ =>
      .ite (fun _ => ?_) fun _ => .ite (fun _ => ?_) fun _ => .error (-1)
    · rw [pushLength_eq hn hlt, bind_ok]
      refine ih hr (hls.push (by omega) hlt) ?_
      rw [List.length_append, List.length_singleton]
      omega
    · rw [get_eq, bind_ok]
      refine hrep _ _ _ ?_ (Nat.succ_pos _) (hr.get 2) hlt
      have hin : ls.length - 1 < ls.length := by omega
      rw [List.getD_eq_getElem _ _ hin]
      exact hls.2 _ (List.getElem_mem hin)
    · rw [get_eq, bind_ok]
      exact hrep _ _ _ (by decide) (Nat.succ_pos _) (hr.get 3) hlt
    · rw [get_eq, bind_ok]
      exact hrep _ _ _ (by decide) (Nat.succ_pos _) (hr.get 7) hlt

/-! ### The stream -/

theorem blockDynamic_sound (hb : Within src b.toBr) (hout : out.length ≤ cap) :
    Sound uncountedBlock (blockDynamic cap b out) (Inflate.blockDynamic cap b.toBr out) (Bounded src cap) := by
  have hlit := brGet_lt b.toBr 5
  have hb1 := hb.get 5
  rw [blockDynamic, Inflate.blockDynamic, get_eq, bind_ok]
  generalize brGet b.toBr 5 = r1 at hlit hb1
  obtain ⟨e1, b1⟩ := r1
  have hdist := brGet_lt b1 5
  have hb2 := hb1.get 5
  dsimp only at hlit hb2 ⊢
  rw [get_eq, bind_ok]
  generalize brGet b1 5 = r2 at hdist hb2
  obtain ⟨e2, b2⟩ := r2
  have hclen := brGet_lt b2 4
  have hb3 := hb2.get 4
  rw [get_eq, bind_ok]
  generalize brGet b2 4 = r3 at hclen hb3
  obtain ⟨e3, b3⟩ := r3
  rw [if_neg (by rw [maxOrder]; omega)]
  have horder : ∀ o ∈ order.take (e3 + 4), o < maxOrder := by
    intro o ho
    have hall : ∀ o ∈ order, o < maxOrder := by decide
    exact hall o (List.mem_of_mem_take ho)
  have hzeros : (List.replicate 19 0).length = maxOrder ∧ ∀ l ∈ List.replicate 19 0, l ≤ 15 := by decide
  have hin : Within src (⟨b3, b.taken + 5 + 5 + 4⟩ : Reader).toBr := hb3
  refine (readOrder_sound horder hin hzeros).bind_pure fun r hr heq => ?_
  obtain ⟨hb4, hcl⟩ := hr
  rw [← heq]
  refine (huffBuild_sound (by rw [hcl.1]; decide) hcl.2).bind fun clh hclh => ?_
  refine (readLengths_sound hclh hb4 ?_ ⟨Nat.zero_le _, fun l hl => absurd hl List.not_mem_nil⟩ ?_).bind fun r hr => ?_
  · rw [maxLengths]
    omega
  · exact Nat.le_add_left ..
  obtain ⟨⟨hlen, hmax⟩, hb5⟩ := hr
  refine (huffBuild_sound ?_ fun l hl => hmax l (List.mem_of_mem_take hl)).bind fun lit hlit' => ?_
  · rw [List.length_take, maxSym]
    omega
  refine (huffBuild_sound ?_ fun l hl => hmax l (List.mem_of_mem_drop hl)).bind fun dist hdist' => ?_
  · rw [List.length_drop, maxSym]
    omega
  exact blockDecode_sound hlit' hdist' hb5 hout (by omega)

theorem storedCopy_sound {k : Nat} (hb : Within src b.toBr) (hout : out.length ≤ cap) :
    Sound uncountedBlock (storedCopy cap k b out) (Inflate.storedCopy cap k b.toBr out) (Bounded src cap) := by
  induction k generalizing b out with
  | zero => exact .ok ⟨hb, hout⟩
  | succ k ih =>
    rw [storedCopy, Inflate.storedCopy]
    refine .ite (fun _ => .error (-1)) fun hlt => ?_
    rw [hb.data] at hlt
    exact (sinkPut_sound cap out _).bind fun out' h => ih ⟨hb.data, Nat.lt_of_not_le hlt⟩ h.1

/-- The bytes behind the bound check are there. -/
theorem blockStored_sound (hin : b.pos + 4 < 2 ^ 32 ∨ b.pos + 1 < src.length) (hb : Within src b.toBr) (hout : out.length ≤ cap) :
    Sound uncountedBlock (blockStored cap b out) (Inflate.blockStored cap b.toBr out) (Bounded src cap) := by
  rw [blockStored, Inflate.blockStored]
  refine .ite (fun _ => .error (-1)) fun hle => ?_
  change ¬b.data.length < (b.pos + 4) % 2 ^ 32 at hle
  rw [if_neg (show ¬b.align.data.length ≤ b.align.pos + 1 by
    change ¬b.data.length ≤ b.pos + 1
    rw [hb.data] at hle ⊢
    omega)]
  rw [hb.data] at hle
  exact storedCopy_sound ⟨hb.data, Nat.le_of_not_lt hle⟩ hout

theorem fixed_lengths : fixedLitlen.length ≤ maxSym ∧ (∀ l ∈ fixedLitlen, l ≤ 15) ∧
    fixedDist.length ≤ maxSym ∧ ∀ l ∈ fixedDist, l ≤ 15 := by
  have hrep : ∀ n v : Nat, v ≤ 15 → ∀ l ∈ List.replicate n v, l ≤ 15 := by
    intro n v hv l hl
    rw [List.eq_of_mem_replicate hl]
    exact hv
  refine ⟨?_, fun l hl => ?_, ?_, hrep 32 5 (by decide)⟩
  · rw [fixedLitlen, List.length_append, List.length_append, List.length_append, List.length_replicate,
      List.length_replicate, List.length_replicate, List.length_replicate, maxSym]
  · rw [fixedLitlen, List.mem_append, List.mem_append, List.mem_append] at hl
    rcases hl with ((hl | hl) | hl) | hl
    · exact hrep 144 8 (by decide) l hl
    · exact hrep 112 9 (by decide) l hl
    · exact hrep 24 7 (by decide) l hl
    · exact hrep 8 8 (by decide) l hl
  · rw [fixedDist, List.length_replicate]
    decide

theorem blockFixed_sound (hb : Within src b.toBr) (hout : out.length ≤ cap) :
    Sound uncountedBlock (blockFixed cap b out) (Inflate.blockFixed cap b.toBr out) (Bounded src cap) := by
  obtain ⟨hlen, hmax, hlen', hmax'⟩ := fixed_lengths
  exact (huffBuild_sound hlen hmax).bind fun lit hlit => (huffBuild_sound hlen' hmax').bind fun dist hdist =>
    blockDecode_sound hlit hdist hb hout (by omega)

theorem blockOf_sound {btype : Nat} (hin : btype = 0 → b.pos + 4 < 2 ^ 32 ∨ b.pos + 1 < src.length)
    (hb : Within src b.toBr) (hout : out.length ≤ cap) :
    Sound uncountedBlock (blockOf cap btype b out) (Inflate.blockOf cap btype b.toBr out) (Bounded src cap) :=
  .ite (fun h => blockStored_sound (hin h) hb hout) fun _ => .ite (fun _ => blockFixed_sound hb hout) fun _ =>
    .ite (fun _ => blockDynamic_sound hb hout) fun _ => .error (-1)

/-- What is done after a block. -/
def afterBlock (cap guard bfinal btype : Nat) (r : Reader × List UInt8) : Except Stop Inflated :=
  if bfinal ≠ 0 then .ok ⟨r.2, r.1.pos, r.1.taken, btype⟩ else inflateLoop cap guard r.1 r.2

theorem inflateLoop_succ (cap guard : Nat) (b : Reader) (out : List UInt8) : inflateLoop cap (guard + 1) b out =
    blockOf cap (blockHeader b).2.1 (blockHeader b).2.2 out >>=
      afterBlock cap guard (blockHeader b).1 (blockHeader b).2.1 := by
  rw [inflateLoop, get_eq, bind_ok]
  dsimp only
  rw [get_eq, bind_ok]
  rfl

theorem Within.header (hb : Within src b.toBr) : Within src (blockHeader b).2.2.toBr := (hb.get 1).get 2

theorem inflateLoop_sound {guard : Nat} (hin : LengthsThere cap guard b out) (hb : Within src b.toBr)
    (hout : out.length ≤ cap) :
    Sound (fun r => (r.out, r.used)) (inflateLoop cap guard b out) (Inflate.inflateLoop cap guard b.toBr out)
      (fun r => r.out.length ≤ cap ∧ r.used ≤ src.length) := by
  induction guard generalizing b out with
  | zero => exact .error (-1)
  | succ guard ih =>
    rw [LengthsThere, hb.data] at hin
    rw [inflateLoop_succ, Inflate.inflateLoop]
    refine (blockOf_sound hin.1 hb.header hout).self.bind fun r hr => ?_
    rw [afterBlock]
    exact .ite (fun _ => .ok ⟨hr.1.2, hr.1.1.pos⟩) fun hfinal => ih (hin.2 r hr.2 (not_not.1 hfinal)) hr.1.1 hr.1.2

theorem within_start (src : List UInt8) : Within src (Reader.start src).toBr := ⟨rfl, Nat.zero_le _⟩

/-- **With its accesses checked, the inflater does what it does without**, as long as the lengths of stored blocks are
there; and what it returns is within the bounds. -/
theorem inflateRaw_sound (hin : LengthsThere cap 1000000 (.start src) []) :
    Sound (fun r => (r.out, r.used)) (inflateRaw src cap) (Inflate.inflateRaw src cap)
      (fun r => r.out.length ≤ cap ∧ r.used ≤ src.length) :=
  inflateLoop_sound hin (within_start src) (Nat.zero_le _)

/-- They are, if the source is at least five bytes short of 4 GB. -/
theorem lengthsThere_of_short (hsrc : src.length + 4 < 2 ^ 32) {guard : Nat} (hb : Within src b.toBr)
    (hout : out.length ≤ cap) : LengthsThere cap guard b out := by
  induction guard generalizing b out with
  | zero => exact trivial
  | succ guard ih =>
    have hshort : (blockHeader b).2.2.pos + 4 < 2 ^ 32 := by
      have := hb.header.pos
      omega
    refine ⟨fun _ => Or.inl hshort, fun r hr _ => ?_⟩
    obtain ⟨hb', hout'⟩ := (blockOf_sound (fun _ => Or.inl hshort) hb.header hout).post r hr
    exact ih hb' hout'

end Checked
end Inflate
end WuBuOS
