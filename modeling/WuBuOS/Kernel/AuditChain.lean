import WuBuOS.Kernel.Audit

/-!
# What the audit log proves

`history` is every record there has been, and the log retains the last of them (`Retains`).  Verifying a log is
checking that its window is a chain in order (`verify_eq`), and the window of a log that has been kept is one
as long as the sequence numbers have not run out.

`audit_kept_iff` is when the log is in order, and tampering with it comes to light: up to 2 ^ 64 records, and
unless the chain has been rebuilt up to a newest record that does not carry the head.
-/

namespace WuBuOS.Audit

open Sha256 HashChain Fifo

/-! ## What is promised -/

/-- The retained records, the oldest first. -/
def Log.window (a : Log) : List Rec := Fifo.window auditCap a.ring (first a) a.n

/-- The array of records is overwritten. -/
def Log.overwrite (a : Log) (ring : Nat → Rec) : Log := { a with ring := ring }

/-- The log verifies, and has the last of so many records. -/
def InOrder (a : Log) (n : Nat) : Prop :=
  verify a = 0 ∧ count a = min n auditCap ∧
    ∀ i < count a, ∃ r, auditAt a i = some r ∧ r.seq.toNat = n - count a + 1 + i

/-- Some retained record is not what it was. -/
def Altered (a : Log) (ring : Nat → Rec) : Prop := ∃ i, auditAt (a.overwrite ring) i ≠ auditAt a i

/-- Two different inputs with the same digest are among what is hashed for the records before and after. -/
def Collides (a : Log) (ring : Nat → Rec) : Prop :=
  scheme.Collides (a.window.map recBytes ++ (a.overwrite ring).window.map recBytes)

/-- If the array is altered, that comes to light, or digests collide. -/
def TamperEvident (a : Log) (ring : Nat → Rec) : Prop :=
  Altered a ring → verify (a.overwrite ring) = -1 ∨ Collides a ring

/-- The sequence number goes up. -/
def Rises (p r : Rec) : Prop := p.seq < r.seq

/-- **The chain has been rebuilt**: the records that are there now are a chain in order, but the newest does not
carry the head. -/
def Rebuilt (a : Log) (ring : Nat → Rec) : Prop :=
  scheme.Linked (a.overwrite ring).window ∧ (a.overwrite ring).window.IsChain Rises ∧
    ∃ r ∈ (a.overwrite ring).window.getLast?, r.hash ≠ a.chain

/-! ## Verifying -/

variable {a : Log} {ring : Nat → Rec} {events : List Event} {e : Event} {hist : List Rec} {prev : Option Rec} {i : Nat}

/-- What is checked of a record and the one before. -/
def Follows (p r : Rec) : Prop := r.prevHash = p.hash ∧ p.seq < r.seq

theorem auditAt_eq (a : Log) (i : Nat) : auditAt a i = a.window[i]? := by
  unfold auditAt Log.window Fifo.window
  split
  · rename_i hge
    rw [List.getElem?_eq_none (by rw [List.length_map, List.length_range]; exact hge)]
  · rename_i hlt
    rw [List.getElem?_map, List.getElem?_range (Nat.lt_of_not_le hlt), Option.map_some]

theorem altered_iff : Altered a ring ↔ (a.overwrite ring).window ≠ a.window := by
  unfold Altered
  simp only [auditAt_eq]
  rw [Ne, List.ext_getElem?_iff, not_forall]

theorem verifyLoop_cases (left i : Nat) (prev : Option Rec) :
    verifyLoop a left i prev = 0 ∨ verifyLoop a left i prev = -1 := by
  induction left generalizing i prev with
  | zero => exact .inl rfl
  | succ left ih =>
    unfold verifyLoop
    dsimp only
    split
    · exact .inr rfl
    split
    · exact ih ..
    split
    · exact .inr rfl
    split
    · exact .inr rfl
    · exact ih ..

/-- **The loop** checks the digests of the records that are left, and how they follow each other. -/
theorem verifyLoop_eq_zero (left i : Nat) (prev : Option Rec) : verifyLoop a left i prev = 0 ↔
      (∀ r ∈ Fifo.window auditCap a.ring (first a + i) left, r.hash = recHash r) ∧
        (prev.toList ++ Fifo.window auditCap a.ring (first a + i) left).IsChain Follows := by
  have hminus : ¬(-1 : Int) = 0 := by decide
  induction left generalizing i prev with
  | zero =>
    refine iff_of_true rfl ⟨nofun, ?_⟩
    cases prev with
    | none => exact .nil
    | some p => exact .singleton p
  | succ left ih =>
    have hcons : Fifo.window auditCap a.ring (first a + i) (left + 1) =
        a.ring ((first a + i) % auditCap) :: Fifo.window auditCap a.ring (first a + (i + 1)) left := by
      rw [Nat.add_comm left, window_add]
      rfl
    unfold verifyLoop
    rw [hcons]
    generalize a.ring ((first a + i) % auditCap) = r
    by_cases hh : recHash r = r.hash
    · rw [if_neg (not_not.2 hh), List.forall_mem_cons, and_iff_right hh.symm]
      cases prev with
      | none => exact ih ..
      | some p =>
        dsimp only
        rw [Option.toList_some, List.singleton_append, List.isChain_cons_cons]
        by_cases hl : r.prevHash = p.hash
        · rw [if_neg (not_not.2 hl)]
          by_cases hs : r.seq ≤ p.seq
          · rw [if_pos hs]
            exact ⟨fun h => absurd h hminus, fun h => absurd hs (BitVec.not_le.2 h.2.1.2)⟩
          · rw [if_neg hs, and_iff_right (a := Follows p r) ⟨hl, BitVec.not_le.1 hs⟩]
            exact ih ..
        · rw [if_pos hl]
          exact ⟨fun h => absurd h hminus, fun h => absurd h.2.1.1 hl⟩
    · rw [if_pos hh]
      exact ⟨fun h => absurd h hminus, fun h => absurd (h.1 r List.mem_cons_self).symm hh⟩

theorem linked_iff {l : List Rec} :
    scheme.Linked l ↔ (∀ r ∈ l, r.hash = recHash r) ∧ l.IsChain fun p r => r.prevHash = p.hash := by
  have hmark : ∀ r, scheme.mark r = scheme.digest (scheme.input r) ↔ r.hash = recHash r := fun r => by
    rw [recHash_eq, scheme]
  exact ⟨fun h => ⟨fun r hr => (hmark r).mp (h.marks r hr), h.links⟩, fun h => ⟨fun r hr => (hmark r).2 (h.1 r hr), h.2⟩⟩

/-- **What verifying checks**: that the window is a chain, in order. -/
theorem verify_eq_zero : verify a = 0 ↔ scheme.Linked a.window ∧ a.window.IsChain Rises := by
  have hsplit : a.window.IsChain Follows ↔ (a.window.IsChain fun p r => r.prevHash = p.hash) ∧ a.window.IsChain Rises :=
    ⟨fun h => ⟨h.imp fun _ _ hf => hf.1, h.imp fun _ _ hf => hf.2⟩, fun h => List.isChain_iff_getElem.2 fun i hi =>
      ⟨List.isChain_iff_getElem.1 h.1 i hi, List.isChain_iff_getElem.1 h.2 i hi⟩⟩
  rw [linked_iff, and_assoc, ← hsplit, verify, verifyLoop_eq_zero, Option.toList_none, List.nil_append, Nat.add_zero]
  rfl

/-! ## Keeping -/

/-- The digest of the newest record. -/
def headOf (hist : List Rec) : Digest :=
  match hist.getLast? with
  | none => zeroDigest
  | some r => r.hash

/-- An event is put behind the others. -/
def extend (hist : List Rec) (e : Event) : List Rec :=
  hist ++ [newRec (.ofNat 64 (hist.length + 1)) (headOf hist) e]

/-- **Every record there has been.** -/
def history (events : List Event) : List Rec := events.foldl extend []

/-- The log has the last records, and the head. -/
structure Retains (a : Log) (hist : List Rec) : Prop where
  count : a.n = min hist.length auditCap
  next : a.next = hist.length % auditCap
  seq : a.seq = .ofNat 64 hist.length
  chain : a.chain = headOf hist
  window : a.window = hist.drop (hist.length - auditCap)

/-- **A record comes behind the others**, in place of the oldest if the ring is full. -/
theorem window_record (hn : a.n ≤ auditCap) (hnext : a.next = (first a + a.n) % auditCap) (e : Event) :
    (record a e).window = (a.window ++ [newRec (a.seq + 1) a.chain e]).drop (a.n + 1 - auditCap) := by
  rcases Nat.lt_or_eq_of_le hn with hlt | hfull
  · have hfirst : first a = 0 := if_neg (Nat.ne_of_lt hlt)
    have hfirst' : first (record a e) % auditCap = 0 % auditCap := by
      unfold first record
      dsimp only
      rw [if_pos hlt]
      split
      · rename_i hfull
        rw [hnext, hfirst, Nat.zero_add, Nat.mod_eq_of_lt hlt, hfull, Nat.mod_self, Nat.zero_mod]
      · rfl
    have hcount : (record a e).n = a.n + 1 := if_pos hlt
    rw [Nat.sub_eq_zero_of_le hlt, List.drop_zero, Log.window, Log.window, hcount, hfirst,
      window_congr hfirst', ← window_update (r := 0) _ hlt, Nat.zero_add]
    rw [hfirst, Nat.zero_add] at hnext
    rw [← hnext]
    rfl
  · have hfirst : first a = a.next := if_pos hfull
    have hcount : (record a e).n = auditCap := (if_neg (Nat.not_lt.2 hfull.ge)).trans hfull
    have hfirst' : first (record a e) = (a.next + 1) % auditCap := if_pos hcount
    have hlt : a.next < auditCap := hnext ▸ Nat.mod_lt _ (by decide)
    have hslot : (a.next + 1 + (auditCap - 1)) % auditCap = a.next := by
      rw [Nat.add_assoc, show 1 + (auditCap - 1) = auditCap from rfl, Nat.add_mod_right, Nat.mod_eq_of_lt hlt]
    have hring : (record a e).ring = fun i => if i = (a.next + 1 + (auditCap - 1)) % auditCap then
        newRec (a.seq + 1) a.chain e else a.ring i := by
      rw [hslot]
      rfl
    rw [Log.window, Log.window, hcount, hfirst', hfirst, hfull, window_congr (Nat.mod_mod ..), hring]
    show Fifo.window auditCap _ (a.next + 1) (auditCap - 1 + 1) = _
    rw [window_update _ (by decide), show auditCap + 1 - auditCap = 1 from rfl, List.drop_append_of_le_length
      (by rw [length_window]; decide), drop_window (by decide)]

theorem Retains.record (h : Retains a hist) (e : Event) : Retains (record a e) (extend hist e) := by
  have hnew : newRec (a.seq + 1) a.chain e = newRec (.ofNat 64 (hist.length + 1)) (headOf hist) e := by
    rw [h.seq, h.chain, BitVec.ofNat_add]
    rfl
  have hlen : (extend hist e).length = hist.length + 1 := by rw [extend, List.length_append, List.length_singleton]
  have hn : a.n ≤ auditCap := h.count ▸ Nat.min_le_right ..
  have hcount := h.count
  have hnext : a.next = (first a + a.n) % auditCap := by
    unfold first
    split
    · rename_i hfull
      rw [hfull, Nat.add_mod_right, h.next, Nat.mod_mod]
    · rw [Nat.zero_add, h.next, show a.n = hist.length by omega]
  refine ⟨?_, ?_, ?_, ?_, ?_⟩
  · show (if a.n < auditCap then a.n + 1 else a.n) = _
    rw [hlen]
    split <;> omega
  · show (a.next + 1) % auditCap = _
    rw [hlen, h.next, Nat.mod_add_mod]
  · show a.seq + 1 = _
    rw [hlen, h.seq, BitVec.ofNat_add]
    rfl
  · show (newRec (a.seq + 1) a.chain e).hash = _
    rw [hnew, extend]
    generalize newRec (.ofNat 64 (hist.length + 1)) (headOf hist) e = r
    rw [headOf, List.getLast?_concat]
  · rw [window_record hn hnext, hnew, hlen, h.window]
    have hsplit : hist.drop (hist.length - auditCap) ++ [newRec (.ofNat 64 (hist.length + 1)) (headOf hist) e] =
        (extend hist e).drop (hist.length - auditCap) := by
      rw [extend, List.drop_append_of_le_length (Nat.sub_le ..)]
    have hcut : hist.length - auditCap + (a.n + 1 - auditCap) = hist.length + 1 - auditCap := by omega
    rw [hsplit, List.drop_drop, hcut]

theorem logOf_concat (events : List Event) (e : Event) : logOf (events ++ [e]) = record (logOf events) e :=
  List.foldl_concat ..

theorem history_concat (events : List Event) (e : Event) : history (events ++ [e]) = extend (history events) e :=
  List.foldl_concat ..

theorem retains_logOf (events : List Event) : Retains (logOf events) (history events) := by
  induction events using List.reverseRecOn with
  | nil => exact ⟨rfl, rfl, rfl, rfl, rfl⟩
  | append_singleton events e ih =>
    rw [logOf_concat, history_concat]
    exact ih.record e

/-! ## The history -/

/-- **What holds of the history**: it is a chain, and numbered from 1 on. -/
structure Kept (hist : List Rec) : Prop where
  linked : scheme.Linked hist
  seq : ∀ (i : Nat) (r : Rec), hist[i]? = some r → r.seq = .ofNat 64 (i + 1)

theorem Kept.extend (h : Kept hist) (e : Event) : Kept (extend hist e) := by
  obtain ⟨hmarks, hlinks⟩ := linked_iff.1 h.linked
  refine ⟨linked_iff.2 ⟨fun r hr => ?_, List.isChain_append.2 ⟨hlinks, .singleton _, fun p hp r hr => ?_⟩⟩,
    fun i r hi => ?_⟩
  · rcases List.mem_append.1 hr with hr | hr
    · exact hmarks r hr
    · obtain rfl := List.mem_singleton.1 hr
      exact newRec_hash ..
  · cases hr
    show headOf hist = p.hash
    rw [headOf, Option.mem_def.1 hp]
  · rw [Audit.extend] at hi
    rcases Nat.lt_or_ge i hist.length with hlt | hge
    · rw [List.getElem?_append_left hlt] at hi
      exact h.seq i r hi
    · rw [List.getElem?_append_right hge] at hi
      have hz : i - hist.length = 0 := Nat.lt_one_iff.1 (List.getElem?_eq_some_iff.1 hi).1
      rw [hz] at hi
      cases hi
      rw [Nat.le_antisymm (Nat.sub_eq_zero_iff_le.1 hz) hge]
      rfl

theorem kept_history (events : List Event) : Kept (history events) := by
  induction events using List.reverseRecOn with
  | nil => exact ⟨⟨nofun, .nil⟩, nofun⟩
  | append_singleton events e ih =>
    rw [history_concat]
    exact ih.extend e

theorem length_history (events : List Event) : (history events).length = events.length := by
  induction events using List.reverseRecOn with
  | nil => rfl
  | append_singleton events e ih =>
    rw [history_concat, extend, List.length_append, List.length_append, ih]
    rfl

/-- The window of a log that has been kept. -/
theorem Retains.linked (h : Retains a hist) (hk : Kept hist) : scheme.Linked a.window := by
  rw [h.window]
  exact ⟨fun r hr => hk.linked.marks r (List.mem_of_mem_drop hr), hk.linked.links.drop _⟩

/-- The sequence numbers of the window, from the oldest record on. -/
theorem Retains.seq_window (h : Retains a hist) (hk : Kept hist) {r : Rec} (hr : a.window[i]? = some r) :
    r.seq = .ofNat 64 (hist.length - auditCap + i + 1) := by
  rw [h.window, List.getElem?_drop] at hr
  exact hk.seq _ r hr

theorem Retains.last (h : Retains a hist) (hne : a.window ≠ []) : a.window.getLast?.map Rec.hash = some a.chain := by
  rw [h.window] at hne ⊢
  rw [h.chain, headOf, List.getLast?_drop]
  have hlt : ¬hist.length ≤ hist.length - auditCap := fun hle => hne (List.drop_eq_nil_of_le hle)
  rw [if_neg hlt]
  cases hl : hist.getLast? with
  | none => exact absurd (List.getLast?_eq_none_iff.1 hl) (by rintro rfl; exact hlt (Nat.le_refl _))
  | some r => rfl

/-! ## Order -/

/-- **The log is in order** as long as the sequence numbers have not run out. -/
theorem inOrder_iff (events : List Event) : InOrder (logOf events) events.length ↔ events.length < 2 ^ 64 := by
  have hr := retains_logOf events
  have hk := kept_history events
  have hcount := hr.count
  rw [length_history] at hcount
  constructor
  · rintro ⟨-, -, hat⟩
    by_contra hge
    have hpos : 0 < (logOf events).n := by
      rw [hcount]
      exact Nat.lt_min.2 ⟨by omega, by decide⟩
    obtain ⟨r, -, hseq⟩ := hat ((logOf events).n - 1) (Nat.sub_lt hpos Nat.one_pos)
    have hlt := r.seq.isLt
    rw [hseq, count] at hlt
    omega
  · intro hlt
    have hseq : ∀ i r, (logOf events).window[i]? = some r →
        r.seq.toNat = events.length - auditCap + i + 1 := fun i r hi => by
      have hbound : i < (logOf events).n := by
        have hi' := (List.getElem?_eq_some_iff.1 hi).1
        rwa [Log.window, length_window] at hi'
      rw [hr.seq_window hk hi, length_history, BitVec.toNat_ofNat]
      exact Nat.mod_eq_of_lt (by omega)
    refine ⟨verify_eq_zero.2 ⟨hr.linked hk, List.isChain_iff_getElem.2 fun i hi => ?_⟩, hcount, fun i hi => ?_⟩
    · show BitVec.toNat _ < BitVec.toNat _
      rw [hseq i _ (List.getElem?_eq_getElem (Nat.lt_of_succ_lt hi)), hseq (i + 1) _ (List.getElem?_eq_getElem hi)]
      omega
    · have hsome : i < (logOf events).window.length := by rwa [Log.window, length_window]
      refine ⟨_, (auditAt_eq ..).trans (List.getElem?_eq_getElem hsome), ?_⟩
      rw [hseq i _ (List.getElem?_eq_getElem hsome), count]
      rw [count] at hi
      omega

/-! ## Tampering -/

/-- **What tampering does not come to light**: a chain that has been rebuilt. -/
theorem tamperEvident_iff (events : List Event) (ring : Nat → Rec) : TamperEvident (logOf events) ring ↔
      (Altered (logOf events) ring → Rebuilt (logOf events) ring → Collides (logOf events) ring) := by
  have hr := retains_logOf events
  have hlinked := hr.linked (kept_history events)
  refine imp_congr_right fun halt => ⟨fun hv ⟨hl, hrise, _⟩ => ?_, fun hre => ?_⟩
  · refine hv.resolve_left fun hminus => ?_
    rw [verify_eq_zero.2 ⟨hl, hrise⟩] at hminus
    cases hminus
  · by_cases hv : verify ((logOf events).overwrite ring) = 0
    · obtain ⟨hl, hrise⟩ := verify_eq_zero.1 hv
      have hlen : (logOf events).window.length = ((logOf events).overwrite ring).window.length := by
        rw [Log.window, Log.window, length_window, length_window]
        rfl
      have hne : (logOf events).window ≠ [] := fun hnil => by
        rw [hnil] at hlen
        exact altered_iff.1 halt ((List.eq_nil_of_length_eq_zero hlen.symm).trans hnil.symm)
      by_cases hhead : ∃ r ∈ ((logOf events).overwrite ring).window.getLast?, r.hash ≠ (logOf events).chain
      · exact .inr (hre ⟨hl, hrise, hhead⟩)
      · have hlast : (logOf events).window.getLast?.map scheme.mark =
            ((logOf events).overwrite ring).window.getLast?.map scheme.mark := by
          refine (hr.last hne).trans ?_
          cases hg : ((logOf events).overwrite ring).window.getLast? with
          | none =>
            rw [List.getLast?_eq_none_iff.1 hg] at hlen
            exact absurd (List.eq_nil_of_length_eq_zero hlen) hne
          | some r =>
            have hsame : r.hash = (logOf events).chain := not_not.1 fun hd => hhead ⟨r, hg, hd⟩
            exact congrArg some hsame.symm
        rcases Scheme.commit hlinked hl hlen hlast with heq | hc
        · exact absurd heq.symm (altered_iff.1 halt)
        · exact .inr hc
    · exact .inl ((verifyLoop_cases _ 0 none).resolve_left hv)

/-- **When the log is what is promised**: up to 2 ^ 64 records, and unless the chain has been rebuilt up to a
newest record without the head. -/
theorem audit_kept_iff (events : List Event) (ring : Nat → Rec) :
    InOrder (logOf events) events.length ∧ TamperEvident (logOf events) ring ↔ events.length < 2 ^ 64 ∧
        (Altered (logOf events) ring → Rebuilt (logOf events) ring → Collides (logOf events) ring) :=
  and_congr (inOrder_iff events) (tamperEvident_iff events ring)

/-- The record of one event, and one with another message in its place. -/
def oneEvent (c : UInt8) : Event := ⟨4, 1, 0, [c]⟩

def forgery : Nat → Rec := fun _ => newRec 1 zeroDigest (oneEvent 0x62)

/-- **A record with another message verifies.** -/
theorem forgery_verifies : ¬∀ (events : List Event) (ring : Nat → Rec),
    InOrder (logOf events) events.length ∧ TamperEvident (logOf events) ring := fun h => by
  have hwindow : ((logOf [oneEvent 0x61]).overwrite forgery).window = [newRec 1 zeroDigest (oneEvent 0x62)] := rfl
  have hv : verify ((logOf [oneEvent 0x61]).overwrite forgery) = 0 := by
    rw [verify_eq_zero, hwindow, linked_iff]
    exact ⟨⟨fun r hr => List.mem_singleton.1 hr ▸ newRec_hash _ _ _, .singleton _⟩, .singleton _⟩
  have haltered : Altered (logOf [oneEvent 0x61]) forgery := ⟨0, by decide⟩
  rcases (h [oneEvent 0x61] forgery).2 haltered with hminus | ⟨x, hx, y, hy, hne, heq⟩
  · rw [hv] at hminus
    cases hminus
  · have hdiffer : sha256 (recBytes (newRec 1 zeroDigest (oneEvent 0x61))) ≠
        sha256 (recBytes (newRec 1 zeroDigest (oneEvent 0x62))) := by decide +kernel
    have hinputs : (logOf [oneEvent 0x61]).window.map recBytes ++
        ((logOf [oneEvent 0x61]).overwrite forgery).window.map recBytes =
          [recBytes (newRec 1 zeroDigest (oneEvent 0x61)), recBytes (newRec 1 zeroDigest (oneEvent 0x62))] := rfl
    rw [hinputs, List.mem_pair] at hx hy
    rcases hx with rfl | rfl <;> rcases hy with rfl | rfl
    · exact hne rfl
    · exact hdiffer heq
    · exact hdiffer heq.symm
    · exact hne rfl

end WuBuOS.Audit
