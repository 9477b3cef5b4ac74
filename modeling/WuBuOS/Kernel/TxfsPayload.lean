import WuBuOS.Kernel.TxfsFail
import Mathlib.Data.List.GetD

/-!
# What is recorded of a write

`txfs_write` takes any number of bytes and a path of any length.  The entry that a commit appends to the journal
has room for 512 bytes and for a path of 255, and what is beyond that is dropped without a word.

* `sealOp_write`: the fields of the entry, whatever has been asked for.
* `stored_write`: its place in the journal, behind all that had been committed and the operations in front of it, and
  that nothing is ever written over it.
* `write_recorded_iff`: in every run it holds what a recovery needs exactly if the write fits in an entry.
-/

namespace WuBuOS.Journal

open Bytes

variable {s : Session} {tx : Txfs} {journal entry entry' : Buf} {i j n : Nat} {entries ops : List Buf}

/-- What a call of `txfs_write` asks for. -/
structure Request where
  path : Option (List UInt8)
  offset : Nat
  data : Option Buf
  size : Nat

/-- It is made of C values: a string without a zero in it, a `uint64_t`, a `uint32_t`. -/
structure Request.Valid (r : Request) : Prop where
  path : ∀ p, r.path = some p → 0 ∉ p
  offset : r.offset < 2 ^ 64
  size : r.size < 2 ^ 32

def Request.call (r : Request) : Call := .write r.path r.offset r.data r.size

/-- The operation that the call adds to the transaction. -/
def Request.op (r : Request) : Buf := buildOp .write r.path r.offset r.data r.size none

/-- The path in a field of an entry. -/
def pathOf (entry : Buf) (a : Nat) : List UInt8 := (slice entry a maxPath).takeWhile (· ≠ 0)

/-- **The entry records the write**: all that is needed to make it again, every byte of the data included. -/
structure Records (entry : Buf) (r : Request) : Prop where
  type : get entry 0 4 = OpType.write.code
  path : pathOf entry 24 = r.path.getD []
  offset : get entry 12 8 = r.offset
  size : get entry 20 4 = r.size
  data : ∀ k < r.size, some (entry (536 + k)) = r.data.map (· k)

/-- There is room in an entry for all of it. -/
def Request.FitsEntry (r : Request) : Prop :=
  r.size ≤ inlineData ∧ (r.path.getD []).length < maxPath ∧ (r.size = 0 ∨ r.data.isSome)

/-! ## The entry of a write -/

/-- A string that ends with a zero is read. -/
theorem takeWhile_slice {m : Buf} {a : Nat} {l : List UInt8} (h0 : 0 ∉ l) (hn : l.length < n) (hl : At m a l)
    (hend : m (a + l.length) = 0) : (slice m a n).takeWhile (· ≠ 0) = l := by
  obtain ⟨k, rfl⟩ := Nat.exists_eq_add_of_lt hn
  have hsplit : slice m a (l.length + k + 1) = l ++ 0 :: (List.range k).map fun i => m (a + (l.length + (i + 1))) := by
    rw [slice, Nat.add_assoc, List.range_add, List.map_append, List.range_succ_eq_map, List.map_cons,
      List.map_cons, Nat.add_zero, hend, List.map_map, List.map_map]
    exact congrArg₂ _ hl.slice rfl
  rw [hsplit, List.takeWhile_append_of_pos, List.takeWhile_cons_of_neg (by simp), List.append_nil]
  intro c hc
  exact decide_eq_true fun h => h0 (h ▸ hc)

/-- A path is recorded as far as there is room for it. -/
theorem pathOf_putPath (path : Option (List UInt8)) (hpath : ∀ p, path = some p → 0 ∉ p) {op : Buf} {a : Nat}
    (hop : ∀ k < maxPath, op (a + k) = 0) :
    pathOf (putPath op a path) a = (path.getD []).take (maxPath - 1) := by
  cases path with
  | none => exact takeWhile_slice List.not_mem_nil (by decide) trivial (hop 0 (by decide))
  | some p =>
    rw [show (some p).getD [] = p from rfl]
    have hbyte : ∀ k < maxPath - 1, putPath op a (some p) (a + k) = p.getD k 0 := by
      intro k hk
      rw [putPath, write_inside hk]
    have hlen : (p.take (maxPath - 1)).length = min (maxPath - 1) p.length := List.length_take
    refine takeWhile_slice (fun h => hpath p rfl (List.mem_of_mem_take h)) ?_ (at_iff.2 fun k hk => ?_) ?_
    · rw [hlen]
      exact lt_of_le_of_lt (min_le_left ..) (by decide)
    · rw [hlen] at hk
      rw [hbyte k (Nat.lt_min.1 hk).1, List.getElem_take, List.getD_eq_getElem _ _ (Nat.lt_min.1 hk).2]
    · rw [hlen]
      by_cases hshort : p.length < maxPath - 1
      · rw [min_eq_right (Nat.le_of_lt hshort), hbyte _ hshort, List.getD_eq_default _ _ le_rfl]
      · rw [min_eq_left (Nat.not_lt.1 hshort), putPath, write_outside (Or.inr le_rfl)]
        exact hop _ (by decide)

theorem dataCrc_congr {buf buf' : Buf} {a b : Nat} (hsize : get buf (a + 20) 4 ≤ inlineData)
    (h : ∀ k < 1048, buf' (b + k) = buf (a + k)) : dataCrc buf' b = dataCrc buf a := by
  have hget : get buf' (b + 20) 4 = get buf (a + 20) 4 := by
    refine get_shift fun k hk => ?_
    rw [Nat.add_assoc, Nat.add_assoc]
    exact h (20 + k) (by omega)
  rw [dataCrc, dataCrc, hget, txfsCrc32, txfsCrc32]
  refine congrArg (fun crc : UInt32 => (crc ^^^ 0xFFFFFFFF).toNat) (List.foldl_ext _ _ _ fun crc k hk => ?_)
  rw [List.mem_range] at hk
  rw [inlineData] at hsize
  rw [Nat.add_assoc, Nat.add_assoc, h (536 + k) (by omega)]

/-- The operation, but for its transaction, its number in it and its checksum. -/
theorem sealOp_get {a n : Nat} (txnId i : Nat) (op : Buf) (h : a + n ≤ 4 ∨ 12 ≤ a ∧ a + n ≤ 1048) :
    get (sealOp txnId i op) a n = get op a n := by
  rw [sealOp, get_put_outside (by omega), get_put_outside (by omega), get_put_outside (by omega)]

theorem sealOp_byte {a : Nat} (txnId i : Nat) (op : Buf) (h : 12 ≤ a ∧ a < 1048) : sealOp txnId i op a = op a := by
  rw [sealOp, put, write_outside (by omega), put, write_outside (by omega), put, write_outside (by omega)]

theorem putPath_get {op : Buf} {a b k : Nat} (path : Option (List UInt8)) (h : b + k ≤ a ∨ a + maxPath ≤ b) :
    get (putPath op a path) b k = get op b k := by
  rw [maxPath] at h
  cases path with
  | none => rfl
  | some p =>
    rw [putPath, maxPath]
    exact get_write_outside (by omega)

theorem putPath_byte {op : Buf} {a b : Nat} (path : Option (List UInt8)) (h : b < a ∨ a + maxPath ≤ b) :
    putPath op a path b = op b := by
  rw [maxPath] at h
  cases path with
  | none => rfl
  | some p =>
    rw [putPath, maxPath]
    exact write_outside (by omega)

/-- The operation without its data. -/
theorem buildOp_get {a n : Nat} (type : OpType) (path path2 : Option (List UInt8)) (offset size : Nat)
    (data : Option Buf) (h : a + n ≤ 24) :
    get (buildOp type path offset data size path2) a n =
      get (put (put (put (fun _ => 0) 0 4 type.code) 12 8 offset) 20 4 (min size inlineData)) a n := by
  have hpaths : ∀ op : Buf, get (putPath (putPath op 24 path) 280 path2) a n = get op a n := fun op =>
    (putPath_get path2 (by omega)).trans (putPath_get path (by omega))
  cases data with
  | none => exact hpaths _
  | some data => exact (get_write_outside (by omega)).trans (hpaths _)

/-- **The entry of a write**, whatever has been asked for. -/
theorem sealOp_write (r : Request) (hr : r.Valid) (txnId i : Nat) : let entry := sealOp txnId i r.op
    get entry 0 4 = OpType.write.code ∧ pathOf entry 24 = (r.path.getD []).take (maxPath - 1) ∧
      get entry 12 8 = r.offset ∧ get entry 20 4 = min r.size inlineData ∧
      (∀ k < min r.size inlineData, entry (536 + k) = (r.data.getD fun _ => 0) k) ∧
      get entry 1048 4 = dataCrc entry 0 := by
  have hsize : get r.op 20 4 = min r.size inlineData := by
    rw [Request.op, buildOp_get _ _ _ _ _ _ (by decide), get_put]
    exact Nat.mod_eq_of_lt (lt_of_le_of_lt (min_le_right ..) (by decide))
  have hzero : ∀ a, 24 ≤ a → put (put (put (fun _ => 0) 0 4 OpType.write.code) 12 8 r.offset) 20 4
      (min r.size inlineData) a = 0 := by
    intro a ha
    rw [put, write_outside (by omega), put, write_outside (by omega), put, write_outside (by omega)]
  refine ⟨?_, ?_, ?_, ?_, fun k hk => ?_, ?_⟩
  · rw [sealOp_get _ _ _ (by decide), Request.op, buildOp_get _ _ _ _ _ _ (by decide),
      get_put_outside (by decide), get_put_outside (by decide), get_put]
    rfl
  · rw [← pathOf_putPath r.path hr.path fun k _ => hzero (24 + k) (Nat.le_add_right ..)]
    refine congrArg (List.takeWhile _) (slice_congr fun k hk => ?_)
    rw [maxPath] at hk
    rw [sealOp_byte _ _ _ (by omega), Request.op]
    cases r.data with
    | none => rfl
    | some data => exact write_outside (Or.inl (by omega))
  · rw [sealOp_get _ _ _ (by decide), Request.op, buildOp_get _ _ _ _ _ _ (by decide),
      get_put_outside (by decide), get_put]
    exact Nat.mod_eq_of_lt hr.offset
  · rw [sealOp_get _ _ _ (by decide), hsize]
  · have hlt := Nat.lt_min.1 hk
    rw [inlineData] at hlt
    rw [sealOp_byte _ _ _ (by omega), Request.op]
    cases r.data with
    | none => exact (putPath_byte r.path (Or.inr (by rw [maxPath]; omega))).trans (hzero _ (by omega))
    | some data => exact write_inside hk
  · have hcrc : dataCrc (sealOp txnId i r.op) 0 = dataCrc (put (put r.op 4 4 txnId) 8 4 i) 0 := by
      refine dataCrc_congr ?_ fun k hk => ?_
      · rw [get_put_outside (by decide), get_put_outside (by decide), hsize]
        exact min_le_right ..
      · rw [sealOp, put, write_outside (by omega)]
    rw [hcrc, sealOp, get_put]
    exact Nat.mod_eq_of_lt (UInt32.toNat_lt _)

variable {r : Request}

/-- A write is recorded if there is room for it. -/
theorem records_sealOp (hr : r.Valid) (txnId i : Nat) : Records (sealOp txnId i r.op) r ↔ r.FitsEntry := by
  obtain ⟨htype, hpath, hoffset, hsize, hdata, -⟩ := sealOp_write r hr txnId i
  constructor
  · intro h
    have hmin : min r.size inlineData = r.size := hsize.symm.trans h.size
    have htake : (r.path.getD []).take (maxPath - 1) = r.path.getD [] := hpath.symm.trans h.path
    refine ⟨hmin ▸ min_le_right .., ?_, ?_⟩
    · rw [← htake, List.length_take]
      exact lt_of_le_of_lt (min_le_left ..) (by decide)
    · refine r.size.eq_zero_or_pos.imp_right fun hpos => ?_
      have h0 := h.data 0 hpos
      cases hd : r.data with
      | none =>
        rw [hd] at h0
        cases h0
      | some data => rfl
  · rintro ⟨hle, hlen, hd⟩
    rw [min_eq_left hle] at hsize hdata
    refine ⟨htype, hpath.trans (List.take_of_length_le (Nat.le_pred_of_lt hlen)), hoffset, hsize, fun k hk => ?_⟩
    obtain ⟨data, hdata'⟩ := Option.isSome_iff_exists.mp (hd.resolve_left (Nat.ne_of_gt (Nat.zero_lt_of_lt hk)))
    rw [hdata k hk, hdata']
    rfl

/-! ## In the journal -/

/-- The entry in this place of the journal. -/
def entryIn (journal : Buf) (i : Nat) : Buf := fun k => journal (headerSize + i * entrySize + k)

theorem records_congr (hsize : get entry 20 4 ≤ inlineData) (h : ∀ k < entrySize, entry' k = entry k) :
    Records entry' r ↔ Records entry r := by
  have hget : ∀ a n, a + n ≤ entrySize → get entry' a n = get entry a n := fun a n hn =>
    get_congr fun x _ hx => h x (lt_of_lt_of_le hx hn)
  have hpath : pathOf entry' 24 = pathOf entry 24 :=
    congrArg (List.takeWhile _) (slice_congr fun k hk => h _ (lt_trans (Nat.add_lt_add_left hk 24) (by decide)))
  have hdata : get entry 20 4 = r.size → ∀ k < r.size, entry' (536 + k) = entry (536 + k) := by
    intro hs k hk
    rw [inlineData] at hsize
    exact h _ (by rw [entrySize]; omega)
  constructor
  · intro hrec
    have hs := (hget 20 4 (by decide)).symm.trans hrec.size
    refine ⟨(hget 0 4 (by decide)).symm.trans hrec.type, hpath.symm.trans hrec.path,
      (hget 12 8 (by decide)).symm.trans hrec.offset, hs, fun k hk => ?_⟩
    rw [← hdata hs k hk]
    exact hrec.data k hk
  · intro hrec
    refine ⟨(hget 0 4 (by decide)).trans hrec.type, hpath.trans hrec.path, (hget 12 8 (by decide)).trans hrec.offset,
      (hget 20 4 (by decide)).trans hrec.size, fun k hk => ?_⟩
    rw [hdata hrec.size k hk]
    exact hrec.data k hk

/-- The checksum of an entry that is stored is right. -/
theorem entryOk_of_stored (hj : tx.journal = some journal) (hfits : headerSize + (i + 1) * entrySize ≤ tx.journalSize)
    (hsmall : tx.journalSize = journalSize) (h : Stored journal i entry) (hsize : get entry 20 4 ≤ inlineData)
    (hcrc : get entry 1048 4 = dataCrc entry 0) : entryOk tx i = true := by
  rw [Nat.succ_mul] at hfits
  have hoff : entryOffset i = headerSize + i * entrySize :=
    entryOffset_eq (Nat.le_trans (by omega) (Nat.le_of_eq hsmall))
  have hbytes : ∀ k < 1048, journal (entryOffset i + k) = entry (0 + k) := by
    intro k hk
    rw [hoff, Nat.zero_add]
    exact h k (lt_trans hk (by decide))
  have hget : get journal (entryOffset i + 1048) 4 = get entry 1048 4 := by
    refine get_shift fun k hk => ?_
    rw [hoff, Nat.add_assoc]
    exact h _ (Nat.add_lt_add_left hk 1048)
  rw [entryOk, hj]
  dsimp only
  rw [hget, hcrc, dataCrc_congr hsize hbytes, hoff, decide_eq_false (by omega), beq_self_eq_true]
  rfl

theorem sealOps_get (txnId : Nat) (ops : List Buf) (i j : Nat) :
    (sealOps txnId i ops)[j]? = ops[j]?.map (sealOp txnId (i + j)) := by
  induction ops generalizing i j with
  | nil => rfl
  | cons op ops ih =>
    cases j with
    | zero => rfl
    | succ j =>
      rw [sealOps, List.getElem?_cons_succ, List.getElem?_cons_succ, ih, Nat.add_assoc, Nat.add_comm 1]

theorem StoredFrom.get (h : StoredFrom journal i entries) (hj : entries[j]? = some entry) :
    Stored journal (i + j) entry := by
  induction entries generalizing i j with
  | nil => cases hj
  | cons e entries ih =>
    cases j with
    | zero =>
      cases hj
      exact h.1
    | succ j =>
      have := ih h.2 hj
      rwa [Nat.add_assoc, Nat.add_comm 1] at this

/-! ## Runs of calls -/

theorem addOp_ops (type : OpType) (path : Option (List UInt8)) (offset : Nat) (data : Option Buf) (size : Nat)
    (path2 : Option (List UInt8)) (hactive : tx.txnActive = true) :
    (addOp type path offset data size path2 tx).2.txnActive = true ∧
      tx.activeTxn.ops <+: (addOp type path offset data size path2 tx).2.activeTxn.ops := by
  rw [addOp, if_neg (by simp [hactive])]
  split
  · exact ⟨hactive, List.prefix_rfl⟩
  · exact ⟨hactive, List.prefix_append ..⟩

theorem recover_ops (tx : Txfs) :
    (txfsRecover tx).2.txnActive = tx.txnActive ∧ (txfsRecover tx).2.activeTxn = tx.activeTxn := by
  rw [txfsRecover]
  split
  · exact ⟨rfl, rfl⟩
  · dsimp only
    split
    · exact ⟨rfl, rfl⟩
    · exact ⟨rfl, rfl⟩

/-- While a transaction is active, operations are only added to it. -/
theorem step_ops {c : Call} (hactive : s.tx.txnActive = true) (hc : c ≠ .commit ∧ c ≠ .abort) :
    (s.step c).tx.txnActive = true ∧ s.tx.activeTxn.ops <+: (s.step c).tx.activeTxn.ops := by
  cases c with
  | begin =>
    rw [Session.step, txfsBegin, if_pos hactive]
    exact ⟨hactive, List.prefix_rfl⟩
  | write | truncate | create | delete | mkdir | rename => exact addOp_ops _ _ _ _ _ _ hactive
  | commit => exact absurd rfl hc.1
  | abort => exact absurd rfl hc.2
  | recover =>
    obtain ⟨ha, hops⟩ := recover_ops s.tx
    refine ⟨ha.trans hactive, ?_⟩
    exact hops.symm ▸ List.prefix_rfl

theorem run_ops (calls : List Call) (s : Session) (hactive : s.tx.txnActive = true)
    (hcalls : ∀ c ∈ calls, c ≠ .commit ∧ c ≠ .abort) :
    s.tx.activeTxn.ops <+: (calls.foldl Session.step s).tx.activeTxn.ops := by
  induction calls generalizing s with
  | nil => exact List.prefix_rfl
  | cons c calls ih =>
    obtain ⟨ha, hops⟩ := step_ops hactive (hcalls c List.mem_cons_self)
    exact hops.trans (ih _ ha fun c hc => hcalls c (List.mem_cons_of_mem _ hc))

/-- What has been committed remains so. -/
theorem run_log (calls : List Call) (s : Session) : s.log <+: (calls.foldl Session.step s).log := by
  induction calls generalizing s with
  | nil => exact List.prefix_rfl
  | cons c calls ih =>
    refine List.IsPrefix.trans ?_ (ih _)
    cases c with
    | commit =>
      rw [Session.step]
      split
      · exact List.prefix_append ..
      · exact List.prefix_rfl
    | _ => exact List.prefix_rfl

/-- A write that is taken is the next operation of the transaction. -/
theorem write_taken (h : (txfsWrite r.path r.offset r.data r.size tx).1 = true) :
    tx.txnActive = true ∧ (txfsWrite r.path r.offset r.data r.size tx).2 =
      { tx with activeTxn := { tx.activeTxn with ops := tx.activeTxn.ops ++ [r.op] } } := by
  rw [txfsWrite, addOp] at h ⊢
  split at h
  · cases h
  · rename_i hactive
    rw [if_neg hactive]
    split at h
    · cases h
    · rename_i hroom
      rw [if_neg hroom]
      exact ⟨eq_true_of_ne_false hactive, rfl⟩

/-- **Where the entry of a write is**: behind what had been committed before the transaction, and behind the
operations that came before it. -/
theorem stored_write {before during later : List Call} {s t u : Session}
    (hs : s = before.foldl Session.step ⟨txfsInit, []⟩) (ht : t = during.foldl Session.step (s.step r.call))
    (hu : u = later.foldl Session.step (t.step .commit)) (hduring : ∀ c ∈ during, c ≠ .commit ∧ c ≠ .abort)
    (hwrite : (txfsWrite r.path r.offset r.data r.size s.tx).1 = true) (hcommit : (txfsCommit t.tx).1 = true) :
    ∃ journal, u.tx.journal = some journal ∧ u.tx.journalSize = journalSize ∧
      t.tx.header.committedCount + s.tx.activeTxn.ops.length < u.tx.header.committedCount ∧
      headerSize + u.tx.header.committedCount * entrySize ≤ journalSize ∧
      Stored journal (t.tx.header.committedCount + s.tx.activeTxn.ops.length)
        (sealOp t.tx.activeTxn.txnId s.tx.activeTxn.ops.length r.op) := by
  obtain ⟨hactive, htaken⟩ := write_taken hwrite
  -- the operation is still there when the transaction is committed
  have hops : s.tx.activeTxn.ops ++ [r.op] <+: t.tx.activeTxn.ops := by
    have hrun := run_ops during (s.step r.call) (by rw [Request.call, Session.step, htaken]; exact hactive) hduring
    rw [← ht, Request.call, Session.step, htaken] at hrun
    exact hrun
  have hget : t.tx.activeTxn.ops[s.tx.activeTxn.ops.length]? = some r.op := by
    obtain ⟨rest, hrest⟩ := hops
    rw [← hrest, List.append_assoc, List.getElem?_append_right le_rfl, Nat.sub_self]
    rfl
  obtain ⟨_, hin⟩ := exists_inOrder (before ++ r.call :: during) _ ⟨_, inOrder_init⟩
  rw [List.foldl_append, ← hs, List.foldl_cons, ← ht] at hin
  obtain ⟨journal, hin'⟩ := exists_inOrder later _ hin.commit
  rw [← hu] at hin'
  have hlog : t.log ++ sealOps t.tx.activeTxn.txnId 0 t.tx.activeTxn.ops <+: u.log := by
    have hrun := run_log later (t.step .commit)
    rw [← hu, Session.step, if_pos hcommit] at hrun
    exact hrun
  have hentry : u.log[t.tx.header.committedCount + s.tx.activeTxn.ops.length]? =
      some (sealOp t.tx.activeTxn.txnId s.tx.activeTxn.ops.length r.op) := by
    obtain ⟨rest, hrest⟩ := hlog
    have hseal := sealOps_get t.tx.activeTxn.txnId t.tx.activeTxn.ops 0 s.tx.activeTxn.ops.length
    rw [hget, Nat.zero_add, Option.map_some] at hseal
    rw [← hrest, hin.committed, List.append_assoc, List.getElem?_append_right (Nat.le_add_right ..),
      Nat.add_sub_cancel_left, List.getElem?_append_left (List.getElem?_eq_some_iff.1 hseal).1, hseal]
  have hlt := (List.getElem?_eq_some_iff.1 hentry).1
  rw [← hin'.committed] at hlt
  refine ⟨journal, hin'.buffer, hin'.size, hlt, ?_, ?_⟩
  · exact le_trans (Nat.add_le_add_left (Nat.mul_le_mul_right _ hin'.count) _) hin'.fits
  · have := hin'.log.get hentry
    rwa [Nat.zero_add] at this

/-- **A committed write is recorded exactly if it fits in an entry.**  In every sequence of calls in which
`txfs_write` returns `0` and so does the commit of its transaction, the entry of the write is committed, and
remains so whatever is called afterwards; recovery takes it for sound; and it records the path, the offset and
every byte of the data if and only if there are no more than 512 of them, the path has less than 256, and
there is a buffer they come from. -/
theorem write_recorded_iff {r : Request} (hr : r.Valid) {before during later : List Call} {s t u : Session}
    (hs : s = before.foldl Session.step ⟨txfsInit, []⟩) (ht : t = during.foldl Session.step (s.step r.call))
    (hu : u = later.foldl Session.step (t.step .commit)) (hduring : ∀ c ∈ during, c ≠ .commit ∧ c ≠ .abort)
    (hwrite : (txfsWrite r.path r.offset r.data r.size s.tx).1 = true) (hcommit : (txfsCommit t.tx).1 = true) :
    ∃ journal i, u.tx.journal = some journal ∧
      i = t.tx.header.committedCount + s.tx.activeTxn.ops.length ∧ i < u.tx.header.committedCount ∧
      entryOk u.tx i = true ∧ (Records (entryIn journal i) r ↔ r.FitsEntry) := by
  obtain ⟨journal, hj, hsize, hi, hfits, hstored⟩ := stored_write hs ht hu hduring hwrite hcommit
  obtain ⟨-, -, -, hlen, -, hcrc⟩ := sealOp_write r hr t.tx.activeTxn.txnId s.tx.activeTxn.ops.length
  have hcap : get (sealOp t.tx.activeTxn.txnId s.tx.activeTxn.ops.length r.op) 20 4 ≤ inlineData := by
    rw [hlen]
    exact min_le_right ..
  refine ⟨journal, _, hj, rfl, hi, entryOk_of_stored hj ?_ hsize hstored hcap hcrc, ?_⟩
  · rw [hsize]
    exact le_trans (Nat.add_le_add_left (Nat.mul_le_mul_right _ hi) _) hfits
  · exact (records_congr hcap hstored).trans (records_sealOp hr _ _)

/-- A transaction with a write of so many bytes to a file `a`. -/
def onesAt (size : Nat) : Request := ⟨some [97], 0, some fun _ => 1, size⟩

def writingOnes (size : Nat) : Session := (Session.step ⟨txfsInit, []⟩ .begin).step (onesAt size).call

theorem onesAt_valid {size : Nat} (h : size < 2 ^ 32) : (onesAt size).Valid := by
  refine ⟨fun p hp => ?_, Nat.two_pow_pos 64, h⟩
  cases hp
  decide

/-- It can be committed. -/
theorem writingOnes_commits (size : Nat) : (txfsCommit (writingOnes size).tx).1 = true := by
  refine (commit_fst (show 0 < 2 ^ 32 by decide)).2 ⟨rfl, Or.inr ⟨rfl, fun i hi => ?_⟩⟩
  obtain rfl : i = 0 := Nat.lt_one_iff.1 hi
  exact (by decide : entryOffset ((0 + 0) % 2 ^ 32) + entrySize ≤ journalSize)

theorem write_recorded_two : ∃ journal, ((writingOnes 2).step .commit).tx.journal = some journal ∧
      Records (entryIn journal 0) (onesAt 2) := by
  obtain ⟨journal, i, hj, hi, -, -, hiff⟩ := write_recorded_iff (onesAt_valid (by decide))
    (show _ = [Call.begin].foldl Session.step ⟨txfsInit, []⟩ from rfl)
    (show writingOnes 2 = [].foldl Session.step _ from rfl)
    (show (writingOnes 2).step .commit = [].foldl Session.step _ from rfl)
    (fun c hc => absurd hc List.not_mem_nil) rfl (writingOnes_commits 2)
  obtain rfl : i = 0 := hi
  exact ⟨journal, hj, hiff.2 ⟨by decide, by decide, Or.inr rfl⟩⟩

/-- **A byte too many**: a write of 513 bytes is taken and committed, and the last of them is not in the entry. -/
theorem write_truncated :
    (txfsWrite (some [97]) 0 (some fun _ => 1) 513 (Session.step ⟨txfsInit, []⟩ .begin).tx).1 = true ∧
    (txfsCommit (writingOnes 513).tx).1 = true ∧
    ∃ journal, ((writingOnes 513).step .commit).tx.journal = some journal ∧
      get (entryIn journal 0) 20 4 = 512 ∧ ¬Records (entryIn journal 0) (onesAt 513) := by
  have hcommit := writingOnes_commits 513
  obtain ⟨journal, hj, -, -, -, hstored⟩ := stored_write (show _ = [Call.begin].foldl Session.step ⟨txfsInit, []⟩ from rfl)
    (show writingOnes 513 = [].foldl Session.step (Session.step _ (onesAt 513).call) from rfl)
    (show (writingOnes 513).step .commit = [].foldl Session.step _ from rfl)
    (fun c hc => absurd hc List.not_mem_nil) rfl hcommit
  obtain ⟨-, -, -, hlen, -, -⟩ := sealOp_write (onesAt 513) (onesAt_valid (by decide)) (writingOnes 513).tx.activeTxn.txnId 0
  have hsize : get (entryIn journal 0) 20 4 = 512 := by
    refine Eq.trans (get_congr fun x _ hx => ?_) hlen
    exact hstored x (lt_trans hx (by decide))
  refine ⟨rfl, hcommit, journal, hj, hsize, fun hrec => ?_⟩
  have h513 := hrec.size
  rw [hsize] at h513
  exact absurd h513 (by decide)

end WuBuOS.Journal
