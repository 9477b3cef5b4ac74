import WuBuOS.Kernel.Lzx.Window
import Mathlib.Data.List.GetD

/-!
# Which calls stay within the window

Bytes and uncompressed blocks always do, and an offset that comes from a position slot is less than the window
(`verbatimOffset_le`, `alignedOffset_le`).  Three things are not looked at: an offset that is repeated may come from
the header of an uncompressed block, and be anything; a match may be longer than what is left of its run, and so go
over the end of the window; and a call may produce more than lies in front of the position at its end.

Each of them can be seen at the point of the run before it happens, from the state there and from the bits that come
next (`Point.Fits`).  A sequence of calls is safe if and only if all its points are such that it does not happen
(`calls_safe_iff`).
-/

namespace WuBuOS.Lzx

variable {slotOffset : Nat → Br → Option (Nat × Br)}

variable {α β : Type} {size : Nat} {inp : Input} {s : State} {l : Local} {c : Call} {br : Br}

/-- The match whose bits come next, if one does: its length, its offset, and whether that is one of the last three. -/
def nextMatch (inp : Input) (slotOffset : Nat → Br → Option (Nat × Br)) (s : State) (l : Local) :
    Option (Nat × Nat × Bool) := do
  let (element, br) ← lzxHuffDecode inp s.maintree s.mainElements maintreeTablebits l.br
  if element < numChars then none
  else do
    let (length, br) ← matchLength inp s.length (element - numChars) br
    let (offset, repeated, _) ← matchOffset slotOffset ((element - numChars) >>> 3) { l with br := br }
    some (length, offset, repeated)

/-- **Nothing goes wrong at the next step.**  A match ends within the window, and a repeated offset is no more than
the window; one close to `2 ^ 32` does no harm either: the copy then begins a little before its place.  The output
lies in front of the position. -/
def Point.Fits (size : Nat) : Point → Prop
  | .element inp slotOffset s l => ∀ m ∈ nextMatch inp slotOffset s l, l.posn + m.1 ≤ size ∧
      (m.2.2 = true → m.2.1 ≤ size ∨
        l.posn + 2 ^ 31 ≤ m.2.1 ∧ l.posn + m.1 + (l.posn + 2 ^ 32 - m.2.1) ≤ size)
  | .emit posn outlen => outlen ≤ if posn ≠ 0 then posn else size

/-! ## What a function accounts for -/

/-- What is kept of the state: the size, the position and the offsets, and that the main tree has no symbols for
position slots behind the window, and none for matches if the window is as large as it can be. -/
structure Kept (size windowSize posn r0 r1 r2 elements : Nat) : Prop where
  size_eq : windowSize = size
  posn_le : posn ≤ size
  r0_lt : r0 < 2 ^ 32
  r1_lt : r1 < 2 ^ 32
  r2_lt : r2 < 2 ^ 32
  small : numChars < elements → size < 2 ^ 31
  slots : ∀ e < elements, 2 < (e - numChars) >>> 3 →
    positionBase.getD ((e - numChars) >>> 3) 0 + 2 ^ extraBits.getD ((e - numChars) >>> 3) 0 ≤ size

/-- The state between two calls, and in the middle of one. -/
def Good (size : Nat) (s : State) : Prop :=
  Kept size s.windowSize s.windowPosn s.r0 s.r1 s.r2 s.mainElements

theorem good_ite {p : Prop} [Decidable p] {s' : State} (h : Good size s) (h' : Good size s') :
    Good size (if p then s else s') := by
  split
  · exact h
  · exact h'

/-- The variables of a call. -/
structure Local.Good (size : Nat) (l : Local) : Prop where
  posn_le : l.posn ≤ size
  r0_lt : l.r0 < 2 ^ 32
  r1_lt : l.r1 < 2 ^ 32
  r2_lt : l.r2 < 2 ^ 32

/-- **It goes wrong behind a point that does not fit, and nowhere else**; and what it returns has the property. -/
structure Accounts (size : Nat) (m : Run α) (P : α → Prop) : Prop where
  safe : m.result ≠ .error .wild ↔ ∀ p ∈ m.trace, p.Fits size
  ok : ∀ a, m.result = .ok a → P a
  refused : ∀ code s, m.result = .error (.refused code s) → Good size s

variable {P : α → Prop} {Q : β → Prop}

theorem Accounts.pure {a : α} (h : P a) : Accounts size (pure a) P where
  safe := by simp [Pure.pure]
  ok _ ha := Except.ok.inj ha ▸ h
  refused _ _ h := nomatch h

theorem Accounts.refuse {code : Nat} (h : Good size s) : Accounts size (stop (.refused code s)) P where
  safe := by simp [stop]
  ok _ h := nomatch h
  refused _ _ hs := by
    cases hs
    exact h

theorem Accounts.illegal {site : Nat} (h : Good size s) : Accounts size (illegal s site) P := .refuse h

theorem Accounts.running : Accounts size (stop .running) P where
  safe := by simp [stop]
  ok _ h := nomatch h
  refused _ _ h := nomatch h

theorem bind_def (m : Run α) (f : α → Run β) : (m >>= f) = m.bind f := rfl

theorem Accounts.bind {m : Run α} {f : α → Run β} (h : Accounts size m P) (hf : ∀ a, P a → Accounts size (f a) Q) :
    Accounts size (m >>= f) Q := by
  rw [bind_def, Run.bind]
  cases hm : m.result with
  | error e =>
    have hsafe := h.safe
    have hrefused := h.refused
    rw [hm] at hsafe hrefused
    exact ⟨by simpa using hsafe, fun _ ha => (nomatch ha), fun code s hs => hrefused code s (by simpa using hs)⟩
  | ok a =>
    have ha := hf a (h.ok a hm)
    have hfits : ∀ p ∈ m.trace, p.Fits size := h.safe.1 (by simp [hm])
    refine ⟨?_, ha.ok, ha.refused⟩
    rw [ha.safe]
    simp only [List.mem_append]
    exact ⟨fun h p hp => hp.elim (hfits p) (h p), fun h p hp => h p (Or.inr hp)⟩

theorem Accounts.ite {p : Prop} [Decidable p] {x y : Run α} (h : p → Accounts size x P)
    (h' : ¬p → Accounts size y P) : Accounts size (if p then x else y) P := by
  split
  · exact h ‹_›
  · exact h' ‹_›

/-- The accesses are in range if and only if `p`. -/
structure InRange (r : Except Stop α) (p : Prop) : Prop where
  ok : p → ∃ a, r = .ok a
  wild : ¬p → r = .error .wild

theorem InRange.congr {r : Except Stop α} {p q : Prop} (h : InRange r p) (hpq : p ↔ q) : InRange r q :=
  ⟨fun hq => h.ok (hpq.2 hq), fun hq => h.wild fun hp => hq (hpq.1 hp)⟩

theorem InRange.ite {p : Prop} [Decidable p] {a : α} : InRange (if p then .ok a else .error .wild) p :=
  ⟨fun h => ⟨a, if_pos h⟩, fun h => if_neg h⟩

theorem InRange.bind {r : Except Stop α} {f : α → Except Stop β} {p q : Prop} (h : InRange r p)
    (hf : ∀ a, InRange (f a) q) : InRange (r >>= f) (p ∧ q) where
  ok hpq := by
    obtain ⟨a, rfl⟩ := h.ok hpq.1
    exact (hf a).ok hpq.2
  wild hpq := by
    by_cases hp : p
    · obtain ⟨a, rfl⟩ := h.ok hp
      exact (hf a).wild fun hq => hpq ⟨hp, hq⟩
    · rw [h.wild hp]
      rfl

/-- An access that is in range. -/
theorem Accounts.of_inRange {r : Except Stop α} {p : Prop} (h : InRange r p) (hp : p) :
    Accounts size (access r) fun _ => True := by
  obtain ⟨a, rfl⟩ := h.ok hp
  exact ⟨by simp [access], fun _ _ => trivial, fun _ _ h => nomatch h⟩

theorem access_wild {r : Except Stop α} {p : Prop} (h : InRange r p) (hp : ¬p) (f : α → Run β) :
    (access r >>= f).result = .error .wild := by
  rw [h.wild hp]
  rfl

/-- **What comes behind a point** goes wrong there if the point does not fit. -/
theorem Accounts.behind {p : Point} {m : Run α} (hfits : p.Fits size → Accounts size m P)
    (hwild : ¬p.Fits size → m.result = .error .wild) : Accounts size (stand p >>= fun _ => m) P := by
  have hstand : (stand p >>= fun _ => m) = ⟨p :: m.trace, m.result⟩ := rfl
  rw [hstand]
  by_cases hp : p.Fits size
  · obtain ⟨hsafe, hok, hrefused⟩ := hfits hp
    exact ⟨by simpa [hp] using hsafe, hok, hrefused⟩
  · have hm := hwild hp
    rw [hm]
    exact ⟨by simp [hp], fun _ h => (nomatch h), fun _ _ h => nomatch h⟩

theorem Accounts.behind_free {p : Point} {m : Run α} (hp : p.Fits size) (h : Accounts size m P) :
    Accounts size (stand p >>= fun _ => m) P :=
  .behind (fun _ => h) fun hnot => absurd hp hnot

/-! ## Copies -/

theorem copyBytes_inRange (n dest src : Nat) (w : Nat → UInt8) :
    InRange (copyBytes size n dest src w) (n = 0 ∨ dest + n ≤ size ∧ src + n ≤ size) := by
  induction n generalizing dest src w with
  | zero => exact ⟨fun _ => ⟨w, rfl⟩, fun h => absurd (Or.inl rfl) h⟩
  | succ n ih =>
    rw [copyBytes]
    split
    · have hput : InRange (put size w dest (w src)) (dest < size) := .ite
      exact (hput.bind fun w' => ih (dest + 1) (src + 1) w').congr (by omega)
    · exact ⟨fun h => by omega, fun _ => rfl⟩

/-- **A match stays within the window** if it ends there, and its offset is no more than the window; or is so close
to `2 ^ 32` that it is taken for one that points forward. -/
theorem copyMatch_inRange {posn length offset : Nat} (w : Nat → UInt8) (hlen : 0 < length) (hlen' : length < 2 ^ 10)
    (hposn : posn ≤ size) (hsize : size < 2 ^ 31) (hoffset : offset < 2 ^ 32) :
    InRange (copyMatch size posn length offset w) (posn + length ≤ size ∧ (offset ≤ size ∨
      posn + 2 ^ 31 ≤ offset ∧ posn + length + (posn + 2 ^ 32 - offset) ≤ size)) := by
  rw [copyMatch, toInt32]
  by_cases hle : offset ≤ posn
  · rw [if_pos hle]
    exact (copyBytes_inRange length posn _ w).congr (by omega)
  rw [if_neg hle]
  have hsrc : posn + (size + 2 ^ 32 - offset) % 2 ^ 32 =
      if offset ≤ size then posn + (size - offset) else posn + (size + 2 ^ 32 - offset) := by
    split
    · omega
    · omega
  rw [hsrc]
  by_cases hfar : offset - posn < 2 ^ 31
  · simp only [if_pos hfar]
    split
    · refine ((copyBytes_inRange _ _ _ w).bind fun w' => copyBytes_inRange _ _ _ w').congr ?_
      split
      · omega
      · omega
    · refine (copyBytes_inRange _ _ _ w).congr ?_
      split
      · omega
      · omega
  · simp only [if_neg hfar]
    rw [if_pos (by omega)]
    refine ((copyBytes_inRange _ _ _ w).bind fun w' => copyBytes_inRange _ _ _ w').congr ?_
    omega

/-! ## Matches -/

theorem top_lt {n : Nat} (hn : 0 < n) (hn' : n ≤ 32) : br.top n < 2 ^ n := by
  rw [Br.top, UInt32.toNat_shiftRight, UInt32.toNat_ofNat', Nat.shiftRight_eq_div_pow]
  rw [Nat.mod_eq_of_lt (show 32 - n < 2 ^ 32 by omega), Nat.mod_eq_of_lt (show 32 - n < 32 by omega)]
  refine Nat.div_lt_of_lt_mul ?_
  rw [← Nat.pow_add, Nat.sub_add_cancel hn']
  exact br.bitbuf.toNat_lt

theorem lzxReadBits_lt {n : Nat} (hn : n ≤ 32) : (lzxReadBits inp br n).1 < 2 ^ n := by
  rw [lzxReadBits]
  split
  · exact Nat.two_pow_pos n
  · exact top_lt (Nat.pos_of_ne_zero ‹_›) hn

theorem walk_lt {table : Nat → Nat} {maxsyms bitbuf k i sym : Nat} (h : walk table maxsyms bitbuf k i = some sym) :
    sym < maxsyms := by
  induction k generalizing i with
  | zero => cases h
  | succ k ih =>
    rw [walk] at h
    split at h
    · exact ih h
    · cases h
      omega

theorem lzxHuffDecode_lt {code : Code} {maxsyms tablebits sym : Nat} {br' : Br}
    (h : lzxHuffDecode inp code maxsyms tablebits br = some (sym, br')) : sym < maxsyms := by
  rw [lzxHuffDecode, Option.map_eq_some_iff] at h
  obtain ⟨i, hi, hsym⟩ := h
  cases hsym
  rw [symbol] at hi
  split at hi
  · exact walk_lt hi
  · cases hi
    omega

theorem extraBits_le : ∀ slot, extraBits.getD slot 0 ≤ 17 := by
  intro slot
  by_cases h : slot < extraBits.length
  · exact (by decide : ∀ i < extraBits.length, extraBits.getD i 0 ≤ 17) slot h
  · rw [List.getD_eq_default _ _ (Nat.le_of_not_lt h)]
    exact Nat.zero_le _

/-- What is read for a slot leads to an offset in the window. -/
def SlotOffset (size : Nat) (slotOffset : Nat → Br → Option (Nat × Br)) : Prop :=
  ∀ slot br offset br', positionBase.getD slot 0 + 2 ^ extraBits.getD slot 0 ≤ size →
    slotOffset slot br = some (offset, br') → offset ≤ size

theorem verbatimOffset_le (code : Code) : SlotOffset size (verbatimOffset inp code) := by
  intro slot br offset br' hslot h
  rw [verbatimOffset] at h
  have hextra := extraBits_le slot
  have hread : (lzxReadBits inp br (extraBits.getD slot 0)).1 < 2 ^ extraBits.getD slot 0 :=
    lzxReadBits_lt (by omega)
  split at h
  · generalize lzxReadBits inp br (extraBits.getD slot 0) = r at hread h
    cases h
    omega
  · cases h
    omega

theorem alignedOffset_le (code : Code) : SlotOffset size (alignedOffset inp code) := by
  intro slot br offset br' hslot h
  rw [alignedOffset] at h
  have hextra := extraBits_le slot
  have hone := Nat.two_pow_pos (extraBits.getD slot 0)
  split at h
  · rename_i hmore
    have hread : (lzxReadBits inp br (extraBits.getD slot 0 - 3)).1 < 2 ^ (extraBits.getD slot 0 - 3) :=
      lzxReadBits_lt (by omega)
    generalize lzxReadBits inp br (extraBits.getD slot 0 - 3) = r at hread h
    obtain ⟨v, br0⟩ := r
    obtain ⟨⟨bits, br1⟩, hbits, heq⟩ := Option.map_eq_some_iff.1 h
    have hlt := lzxHuffDecode_lt hbits
    have hpow : 2 ^ extraBits.getD slot 0 = 2 ^ (extraBits.getD slot 0 - 3) * 8 := by
      rw [show 8 = 2 ^ 3 from rfl, ← Nat.pow_add, Nat.sub_add_cancel (Nat.le_of_lt hmore)]
    cases heq
    rw [alignedMaxsymbols] at hlt
    rw [Nat.shiftLeft_eq]
    omega
  · split at h
    · rename_i hthree
      obtain ⟨⟨bits, br1⟩, hbits, heq⟩ := Option.map_eq_some_iff.1 h
      have hlt := lzxHuffDecode_lt hbits
      cases heq
      rw [alignedMaxsymbols] at hlt
      rw [hthree] at hslot
      omega
    · split at h
      · have hread : (lzxReadBits inp br (extraBits.getD slot 0)).1 < 2 ^ extraBits.getD slot 0 :=
          lzxReadBits_lt (by omega)
        generalize lzxReadBits inp br (extraBits.getD slot 0) = r at hread h
        cases h
        omega
      · cases h
        omega

theorem matchLength_bounds {code : Code} {element length : Nat} {br' : Br}
    (h : matchLength inp code element br = some (length, br')) : 0 < length ∧ length < 2 ^ 10 := by
  rw [matchLength] at h
  split at h
  · obtain ⟨⟨footer, br1⟩, hfooter, heq⟩ := Option.map_eq_some_iff.1 h
    have hlt := lzxHuffDecode_lt hfooter
    cases heq
    rw [lengthMaxsymbols] at hlt
    rw [minMatch]
    omega
  · cases h
    have hand : element &&& 7 ≤ 7 := Nat.and_le_right
    rw [minMatch]
    omega

theorem matchOffset_good {slot offset : Nat} {repeated : Bool} {l' : Local}
    (hsize : size < 2 ^ 31) (hslots : SlotOffset size slotOffset) (hl : l.Good size)
    (hslot : 2 < slot → positionBase.getD slot 0 + 2 ^ extraBits.getD slot 0 ≤ size)
    (h : matchOffset slotOffset slot l = some (offset, repeated, l')) :
    l'.Good size ∧ l'.posn = l.posn ∧ offset < 2 ^ 32 ∧ (repeated = true ∨ offset ≤ size) := by
  obtain ⟨hposn, h0, h1, h2⟩ := hl
  rw [matchOffset] at h
  split at h
  · rename_i hlt
    obtain ⟨⟨o, br⟩, ho, heq⟩ := Option.map_eq_some_iff.1 h
    have hle := hslots slot l.br o br (hslot hlt) ho
    cases heq
    have hlt' : offset < 2 ^ 32 := by omega
    exact ⟨⟨hposn, hlt', h0, h1⟩, rfl, hlt', Or.inr hle⟩
  · split at h
    · cases h
      exact ⟨⟨hposn, h0, h1, h2⟩, rfl, h0, Or.inl rfl⟩
    · split at h
      · cases h
        exact ⟨⟨hposn, h1, h0, h2⟩, rfl, h1, Or.inl rfl⟩
      · cases h
        exact ⟨⟨hposn, h2, h1, h0⟩, rfl, h2, Or.inl rfl⟩

/-! ## Blocks -/

/-- The state and the variables in the middle of a call. -/
def Mid (size : Nat) (r : State × Local) : Prop := Good size r.1 ∧ r.2.Good size

/-- **The loop of a compressed block**: what is left of the run fits into the window at every step, as long as the
matches do. -/
theorem elements_accounts {fuel thisRun : Nat}
    (hslots : SlotOffset size slotOffset) (hs : Good size s) (hl : l.Good size) (hroom : l.posn + thisRun ≤ size) :
    Accounts size (elements inp slotOffset fuel thisRun s l) (Mid size) := by
  induction fuel generalizing thisRun s l with
  | zero => exact .pure ⟨hs, hl⟩
  | succ fuel ih =>
    rw [elements]
    refine .ite (fun _ => .pure ⟨hs, hl⟩) fun hrun => ?_
    cases hsym : lzxHuffDecode inp s.maintree s.mainElements maintreeTablebits l.br with
    | none => exact .behind_free (by simp [Point.Fits, nextMatch, hsym]) (.illegal hs)
    | some r =>
      obtain ⟨element, br⟩ := r
      have hlt := lzxHuffDecode_lt hsym
      dsimp only
      by_cases hchar : element < numChars
      · rw [if_pos hchar]
        have hput : InRange (put s.windowSize s.window l.posn (UInt8.ofNat element)) (l.posn < s.windowSize) := .ite
        have hsz := hs.size_eq
        refine .behind_free (by simp [Point.Fits, nextMatch, hsym, hchar]) ?_
        refine (Accounts.of_inRange hput (by omega)).bind fun w _ => ih hs ?_ ?_
        · exact ⟨show l.posn + 1 ≤ size by omega, hl.r0_lt, hl.r1_lt, hl.r2_lt⟩
        · change l.posn + 1 + (thisRun - 1) ≤ size
          omega
      rw [if_neg hchar]
      cases hlen : matchLength inp s.length (element - numChars) br with
      | none => exact .behind_free (by simp [Point.Fits, nextMatch, hsym, hchar, hlen]) (.refuse hs)
      | some r =>
        obtain ⟨length, br'⟩ := r
        obtain ⟨hpos, hshort⟩ := matchLength_bounds hlen
        dsimp only
        cases hoff : matchOffset slotOffset ((element - numChars) >>> 3) { l with br := br' } with
        | none => exact .behind_free (by simp [Point.Fits, nextMatch, hsym, hchar, hlen, hoff]) (.refuse hs)
        | some r =>
          obtain ⟨offset, repeated, l'⟩ := r
          have hl' : Local.Good size { l with br := br' } := ⟨hl.posn_le, hl.r0_lt, hl.r1_lt, hl.r2_lt⟩
          have hsize := hs.small (by omega)
          obtain ⟨hgood, hposn, hlt', hrep⟩ := matchOffset_good hsize hslots hl' (hs.slots element hlt) hoff
          dsimp only at hposn
          have hnext : nextMatch inp slotOffset s l = some (length, offset, repeated) := by
            simp [nextMatch, hsym, hchar, hlen, hoff]
          -- the point fits if and only if the copy is in range
          have hcopy : InRange (copyMatch s.windowSize l'.posn length offset s.window)
              ((Point.element inp slotOffset s l).Fits size) := by
            rw [hs.size_eq]
            refine (copyMatch_inRange s.window hpos hshort hgood.posn_le hsize hlt').congr ?_
            rw [Point.Fits, hnext, hposn]
            simp only [Option.mem_some_iff, forall_eq']
            cases repeated with
            | true => simp
            | false =>
              have := hrep.resolve_left (by simp)
              simp [this]
          refine .behind (fun hfits => ?_) fun hnot => access_wild hcopy hnot _
          have hend : l'.posn + length ≤ size := hposn ▸ (hfits _ hnext).1
          refine (Accounts.of_inRange hcopy hfits).bind fun w _ => ih hs ?_ ?_
          · refine ⟨?_, hgood.r0_lt, hgood.r1_lt, hgood.r2_lt⟩
            change (l'.posn + length) % 2 ^ 32 ≤ size
            omega
          · change (l'.posn + length) % 2 ^ 32 + (thisRun - length) ≤ size
            omega

theorem block_accounts {thisRun : Nat} (hs : Good size s) (hl : l.Good size)
    (hroom : l.posn + thisRun ≤ size) : Accounts size (block c thisRun s l) (Mid size) := by
  refine .ite (fun _ => elements_accounts (verbatimOffset_le _) hs hl hroom) fun _ =>
    .ite (fun _ => elements_accounts (alignedOffset_le _) hs hl hroom) fun _ =>
    .ite (fun _ => .ite (fun _ => .refuse hs) fun _ => ?_) fun _ => .pure ⟨hs, hl⟩
  have hsz := hs.size_eq
  refine (Accounts.of_inRange .ite (by omega)).bind fun w _ => .pure ⟨hs, ?_⟩
  exact ⟨hroom, hl.r0_lt, hl.r1_lt, hl.r2_lt⟩

/-- The reader of a call changes, and the state stays good. -/
def GoodState (size : Nat) (r : State × Br) : Prop := Good size r.1

theorem readMaintree_accounts (first last site : Nat) (hs : Good size s) :
    Accounts size (readMaintree c first last site s br) (GoodState size) :=
  .ite (fun _ => .pure hs) fun _ => .illegal hs

theorem readLength_accounts (site : Nat) (hs : Good size s) : Accounts size (readLength c site s br) (GoodState size) :=
  .ite (fun _ => .pure hs) fun _ => .illegal hs

theorem compressedHeader_accounts (hs : Good size s) : Accounts size (compressedHeader c s br) (GoodState size) := by
  rw [compressedHeader]
  refine (readMaintree_accounts 0 256 1 hs).bind ?_
  rintro ⟨s1, br1⟩ hs1
  refine (readMaintree_accounts 256 s1.mainElements 2 hs1).bind ?_
  rintro ⟨s2, br2⟩ hs2
  generalize lzxMakeDecodeTable s2.mainElements maintreeTablebits s2.maintree = made2
  refine .ite (fun _ => ?_) fun _ => .illegal hs2
  refine (readLength_accounts 4 ?_).bind ?_
  · exact good_ite hs2 hs2
  rintro ⟨s3, br3⟩ hs3
  generalize lzxMakeDecodeTable lengthMaxsymbols lengthTablebits s3.length = made3
  exact .ite (fun _ => .pure hs3) fun _ => .illegal hs3

theorem alignedHeader_accounts (hs : Good size s) : Accounts size (alignedHeader c s br) (GoodState size) := by
  rw [alignedHeader]
  generalize readAligned c.inp 8 0 s.aligned.len br = r
  generalize lzxMakeDecodeTable alignedMaxsymbols alignedTablebits ⟨s.aligned.table, r.1⟩ = made
  exact .ite (fun _ => compressedHeader_accounts hs) fun _ => .illegal hs

theorem uncompressedHeader_accounts (hs : Good size s) (hl : l.Good size) :
    Accounts size (uncompressedHeader c s l) (Mid size) :=
  .ite (fun _ => .refuse hs) fun _ => .pure ⟨hs, hl.posn_le, Bytes.get_lt .., Bytes.get_lt .., Bytes.get_lt ..⟩

theorem blockHeader_accounts (hs : Good size s) (hl : l.Good size) : Accounts size (blockHeader c s l) (Mid size) := by
  obtain ⟨hposn, h0, h1, h2⟩ := hl
  rw [blockHeader]
  generalize lzxReadBits c.inp _ 3 = r1
  generalize lzxReadBits c.inp r1.2 16 = r2
  generalize lzxReadBits c.inp r2.2 8 = r3
  refine .ite (fun _ => .illegal hs) fun _ => .ite (fun _ => ?_) fun _ => .ite (fun _ => ?_) fun _ => ?_
  · refine (alignedHeader_accounts ?_).bind fun r hr => .pure ⟨hr, hposn, h0, h1, h2⟩
    exact hs
  · refine (compressedHeader_accounts ?_).bind fun r hr => .pure ⟨hr, hposn, h0, h1, h2⟩
    exact hs
  · exact uncompressedHeader_accounts hs ⟨hposn, h0, h1, h2⟩

theorem nextBlock_accounts (hs : Good size s) (hl : l.Good size) : Accounts size (nextBlock c s l) (Mid size) :=
  .ite (fun _ => blockHeader_accounts hs hl) fun _ => .pure ⟨hs, hl⟩

theorem nextRun_accounts (togo : Nat) (hs : Good size s) (hl : l.Good size) :
    Accounts size (nextRun c togo s l) fun r => Mid size r.2 := by
  refine .ite (fun _ => .pure ⟨hs, hl⟩) fun _ => .ite (fun _ => .refuse hs) fun hroom => ?_
  have hand : l.posn &&& (s.windowSize - 1) ≤ l.posn := Nat.and_le_left
  have hl' : Local.Good size { l with posn := l.posn &&& (s.windowSize - 1) } :=
    ⟨Nat.le_trans hand hl.posn_le, hl.r0_lt, hl.r1_lt, hl.r2_lt⟩
  have hsz := hs.size_eq
  dsimp only at hroom
  refine (block_accounts ?_ hl' ?_).bind fun r hr => .pure hr
  · exact hs
  · dsimp only
    omega

theorem blocks_accounts (fuel togo : Nat) (hs : Good size s) (hl : l.Good size) :
    Accounts size (blocks c fuel togo s l) (Mid size) := by
  induction fuel generalizing togo s l with
  | zero => exact .running
  | succ fuel ih =>
    rw [blocks]
    refine .ite (fun _ => .pure ⟨hs, hl⟩) fun _ => ?_
    refine (nextBlock_accounts hs hl).bind fun r hr => ?_
    refine .ite (fun _ => .illegal hr.1) fun _ => ?_
    exact (nextRun_accounts togo hr.1 hr.2).bind fun r hr => ih _ hr.1 hr.2

/-! ## Calls -/

theorem intelHeader_good (hs : Good size s) : Good size (intelHeader c s).1 := by
  rw [intelHeader]
  split
  · exact hs
  · dsimp only
    split
    · exact hs
    · exact hs

theorem intelTransform_good (out : Nat → UInt8) (outlen : Nat) (hs : Good size s) :
    Good size (intelTransform s out outlen).1 := by
  rw [intelTransform]
  split
  · split
    · exact hs
    · exact hs
  · exact hs

theorem lzxDecompress_accounts (fuel : Nat) (hsize : size ≤ 2 ^ 31) (hs : Good size s) :
    Accounts size (lzxDecompress fuel c s) fun r => Good size r.1 := by
  rw [lzxDecompress]
  have hgood := intelHeader_good (c := c) hs
  generalize intelHeader c s = r at hgood
  obtain ⟨s, br⟩ := r
  refine .ite (fun _ => .refuse hgood) fun hout => ?_
  refine (blocks_accounts fuel c.outlen hgood ⟨hgood.posn_le, hgood.r0_lt, hgood.r1_lt, hgood.r2_lt⟩).bind ?_
  rintro ⟨s, l⟩ ⟨hs, hl⟩
  have hsz := hs.size_eq
  have hposn := hl.posn_le
  have hrange : InRange (if c.outlen = 0 ∨
        ((if l.posn ≠ 0 then l.posn else s.windowSize) + 2 ^ 32 - c.outlen) % 2 ^ 32 + c.outlen ≤ s.windowSize then
        Except.ok fun i => s.window
          (((if l.posn ≠ 0 then l.posn else s.windowSize) + 2 ^ 32 - c.outlen) % 2 ^ 32 + i)
        else .error .wild) ((Point.emit l.posn c.outlen).Fits size) := by
    refine InRange.ite.congr ?_
    rw [Point.Fits]
    dsimp only at hsz hposn ⊢
    split
    · omega
    · omega
  refine .behind (fun hfits => (Accounts.of_inRange hrange hfits).bind fun out _ => .pure ?_) fun hnot =>
    access_wild hrange hnot _
  exact intelTransform_good out c.outlen ⟨hs.size_eq, hl.posn_le, hl.r0_lt, hl.r1_lt, hl.r2_lt, hs.small, hs.slots⟩

theorem calls_accounts (fuel : Nat) (cs : List Call) (hsize : size ≤ 2 ^ 31) (hs : Good size s) :
    Accounts size (calls fuel cs s) (Good size) := by
  induction cs generalizing s with
  | nil => exact .pure hs
  | cons c cs ih =>
    have hcall := lzxDecompress_accounts (c := c) fuel hsize hs
    -- the calls after this one
    have hnext : ∀ s', (lzxDecompress fuel c s).result ≠ .error .wild → Good size s' →
        Accounts size ⟨(lzxDecompress fuel c s).trace ++ (calls fuel cs s').trace, (calls fuel cs s').result⟩
          (Good size) := by
      intro s' hm hs'
      have hfits := hcall.safe.1 hm
      refine ⟨?_, (ih hs').ok, (ih hs').refused⟩
      rw [(ih hs').safe]
      simp only [List.mem_append]
      exact ⟨fun h p hp => hp.elim (hfits p) (h p), fun h p hp => h p (Or.inr hp)⟩
    rw [calls]
    cases hm : (lzxDecompress fuel c s).result with
    | ok r => exact hnext r.1 (by simp [hm]) (hcall.ok r hm)
    | error e =>
      cases e with
      | refused code s' => exact hnext s' (by simp [hm]) (hcall.refused code s' hm)
      | wild | running =>
        have hsafe := hcall.safe
        rw [hm] at hsafe
        exact ⟨by simpa using hsafe, fun _ h => (nomatch h), fun _ _ h => nomatch h⟩

/-- The windows for which the table of position slots is long enough. -/
theorem posnSlots_pow : ∀ k < 32, ∀ slots ∈ posnSlots (toInt32 (2 ^ k)) extraBits 0 0, slots ≤ 50 ∧
    (0 < slots → 2 ^ k < 2 ^ 31) ∧ ∀ slot < slots, 2 < slot → positionBase.getD slot 0 + 2 ^ extraBits.getD slot 0 ≤ 2 ^ k := by
  decide

theorem lzxInit_good {heap : Nat → UInt8} {k : Nat} (hk : k < 32) (h : lzxInit heap (2 ^ k) = some s) :
    Good (2 ^ k) s := by
  rw [lzxInit, Option.map_eq_some_iff] at h
  obtain ⟨slots, hslots, rfl⟩ := h
  obtain ⟨hle, hsmall, hfits⟩ := posnSlots_pow k hk slots hslots
  have hone : 1 < 2 ^ 32 := by decide
  refine ⟨rfl, Nat.zero_le _, hone, hone, hone, fun h => hsmall ?_, fun e he hslot => hfits _ ?_ hslot⟩
  · dsimp only at h
    rw [Nat.shiftLeft_eq, numChars] at h
    omega
  · dsimp only at he
    rw [Nat.shiftLeft_eq, numChars] at he
    rw [Nat.shiftRight_eq_div_pow, numChars] at hslot ⊢
    omega

/-- **When the calls stay within the window**: if and only if, at every point they come to, the match that comes next
or the output fits. -/
theorem calls_safe_iff {heap : Nat → UInt8} {k : Nat} (hk : k < 32) (h : lzxInit heap (2 ^ k) = some s) (fuel : Nat)
    (cs : List Call) : (calls fuel cs s).safe = true ↔ ∀ p ∈ (calls fuel cs s).trace, p.Fits (2 ^ k) := by
  have hle : 2 ^ k ≤ 2 ^ 31 := Nat.pow_le_pow_right (by decide) (by omega)
  rw [← (calls_accounts fuel cs hle (lzxInit_good hk h)).safe, Run.safe]
  split
  · simp [*]
  · simpa using ‹_›

/-- A call for one byte, of an uncompressed block of `2 ^ 15`. -/
def firstByte : Call := ⟨fun i => ([8, 48] : List UInt8).getD i 0, 17, 1⟩

/-- A call for `2 ^ 15` bytes: the rest of that block, and a block of one byte. -/
def fullWindow : Call := ⟨fun i => ([0, 96, 32] : List UInt8).getD (i - 32767) 0, 32784, 32768⟩

theorem calls_safe_iff_byte : ∃ s, lzxInit (fun _ => 0) (2 ^ 15) = some s ∧
    ∀ p ∈ (calls 1 [firstByte] s).trace, p.Fits (2 ^ 15) :=
  ⟨_, rfl, (calls_safe_iff (by decide) rfl 1 [firstByte]).1 (by decide)⟩

/-- **The output is read from before the window**: its last byte is at the beginning, and the others are at the
end. -/
theorem fullWindow_unsafe :
    (lzxInit (fun _ => 0) (2 ^ 15)).map (fun s => (calls 3 [firstByte, fullWindow] s).safe) = some false := by
  decide

end WuBuOS.Lzx
