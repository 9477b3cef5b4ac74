import WuBuOS.Kernel.Socket
import WuBuOS.Lib.Runs

/-!
# The byte stream between two sockets

`ring_put` and `ring_get` compute the number of bytes in the ring as `(wp - rp) % WUBU_RECV_RING_MAX`.
While there are fewer bytes in it than it has cells, that is their number, and the ring is a queue
(`Holds`): what is sent comes behind what is there, what is received is what is in front.

A ring with all cells in use counts as empty.  So a call of `wubu_sendmsg` that offers as many bytes as
are free is one too many: what is in the ring is not delivered any more, and the next call writes over
it (`ringPut_full`).  In runs without such a call the stream is what it should be
(`stream_in_order`).
-/

namespace WuBuOS.Socket

/-! ## The ring as a queue -/

/-- The bytes in the ring, fewer than it has cells. -/
structure Holds (s : Sock) (l : List UInt8) : Prop where
  count : (s.wp - s.rp).toNat = l.length
  room : l.length < recvRingMax
  bytes : Fifo.window recvRingMax s.ring s.rp.toNat l.length = l

variable {s : Sock} {l data : List UInt8} {ring : Nat → UInt8} {n cap : Nat}

theorem mod_ring (x : Nat) : x % 2 ^ 64 % recvRingMax = x % recvRingMax :=
  Nat.mod_mod_of_dvd x (by decide)

theorem ringWrite_eq (ring : Nat → UInt8) (wp : BitVec 64) (l : List UInt8) :
    ringWrite ring wp l = Fifo.write recvRingMax ring wp.toNat l := by
  induction l generalizing ring wp with
  | nil => rfl
  | cons b l ih =>
    rw [ringWrite, Fifo.write, ih]
    refine Fifo.write_congr ?_ l
    rw [BitVec.toNat_add, mod_ring]
    rfl

theorem ringRead_eq (ring : Nat → UInt8) (rp : BitVec 64) (n : Nat) :
    ringRead ring rp n = Fifo.window recvRingMax ring rp.toNat n := by
  refine List.map_congr_left fun i _ => ?_
  rw [BitVec.toNat_add, mod_ring, BitVec.toNat_ofNat, Nat.add_mod, mod_ring, ← Nat.add_mod]

theorem Holds.used (h : Holds s l) : ringUsed s = l.length := by
  rw [ringUsed, h.count, Nat.mod_eq_of_lt h.room]

/-- The distance between the indices, when the one or the other has moved on. -/
theorem toNat_sub_advance {x y : BitVec 64} {k : Nat} (h : (x - y).toNat = k) (hlt : k + n < 2 ^ 64) :
    (x + .ofNat 64 n - y).toNat = k + n := by
  bv_omega

theorem toNat_sub_retreat {x y : BitVec 64} {k : Nat} (h : (x - y).toNat = k) (hle : n ≤ k) :
    (x - (y + .ofNat 64 n)).toNat = k - n := by
  bv_omega

/-- An index that has moved on. -/
theorem toNat_advance (x : BitVec 64) : (x + .ofNat 64 n).toNat % recvRingMax = (x.toNat + n) % recvRingMax := by
  rw [BitVec.toNat_add, mod_ring, BitVec.toNat_ofNat, Nat.add_mod, mod_ring, ← Nat.add_mod]

/-- **What is sent comes behind what is in the ring**, if not all cells are taken then. -/
theorem Holds.put (h : Holds s l) (hroom : l.length + data.length < recvRingMax) :
    (ringPut s data).2 = data.length ∧ Holds (ringPut s data).1 (l ++ data) := by
  have hmin : min data.length (recvRingMax - l.length) = data.length := by omega
  have hput : ringPut s data = ({ s with
      ring := ringWrite s.ring s.wp data, wp := s.wp + .ofNat 64 data.length }, data.length) := by
    rw [ringPut, h.used, if_neg (by omega)]
    simp only [hmin, List.take_length]
  rw [hput]
  refine ⟨rfl, ?_, by simpa using hroom, ?_⟩
  · rw [List.length_append]
    exact toNat_sub_advance h.count (Nat.lt_trans hroom (by decide))
  · show Fifo.window recvRingMax (ringWrite s.ring s.wp data) s.rp.toNat _ = _
    have hw : s.wp.toNat % recvRingMax = (s.rp.toNat + l.length) % recvRingMax := by
      have hcount := h.count
      have he : s.wp = s.rp + .ofNat 64 l.length := by bv_omega
      rw [he, toNat_advance]
    rw [ringWrite_eq, Fifo.write_congr hw, List.length_append, Fifo.window_write data (by omega), h.bytes]

/-- **What is received is what is in front.** -/
theorem Holds.get (h : Holds s l) (cap : Nat) :
    (ringGet s cap).2 = l.take cap ∧ Holds (ringGet s cap).1 (l.drop cap) := by
  rcases Nat.eq_zero_or_pos l.length with h0 | hpos
  · obtain rfl := List.length_eq_zero_iff.1 h0
    have hget : ringGet s cap = (s, []) := by
      rw [ringGet, h.used]
      exact if_pos rfl
    rw [hget]
    simpa using h
  · have hget : ringGet s cap = ({ s with rp := s.rp + .ofNat 64 (min cap l.length) },
        ringRead s.ring s.rp (min cap l.length)) := by
      rw [ringGet, h.used, if_neg (by omega)]
    rw [hget]
    have hlen : (l.drop cap).length = l.length - min cap l.length := by
      rw [List.length_drop]
      omega
    have htake : l.take (min cap l.length) = l.take cap := List.take_eq_take_iff.2 (by omega)
    have hdrop : l.drop (min cap l.length) = l.drop cap := by
      rw [← List.drop_eq_drop_min]
    refine ⟨?_, ?_, ?_, ?_⟩
    · show ringRead _ _ _ = _
      rw [ringRead_eq, ← Fifo.take_window (Nat.min_le_right ..), h.bytes, htake]
    · rw [hlen]
      exact toNat_sub_retreat h.count (Nat.min_le_right ..)
    · exact Nat.lt_of_le_of_lt (hlen ▸ Nat.sub_le ..) h.room
    · show Fifo.window _ _ (s.rp + .ofNat 64 (min cap l.length)).toNat _ = _
      rw [Fifo.window_congr (toNat_advance s.rp), hlen, ← Fifo.drop_window (Nat.min_le_right ..), h.bytes, hdrop]

/-- **A full ring counts as empty.** -/
theorem ringPut_full (h : Holds s l) (hfull : recvRingMax ≤ l.length + data.length) :
    (ringPut s data).2 = recvRingMax - l.length ∧ ringUsed (ringPut s data).1 = 0 := by
  have hroom := h.room
  have hmin : min data.length (recvRingMax - l.length) = recvRingMax - l.length := by omega
  have hsum : l.length + (recvRingMax - l.length) = recvRingMax := Nat.add_sub_cancel' (Nat.le_of_lt hroom)
  have hcount := toNat_sub_advance (n := recvRingMax - l.length) h.count (by rw [hsum]; decide)
  rw [ringPut, h.used, if_neg (by omega)]
  simp only [hmin, true_and, ringUsed]
  rw [hcount, hsum]
  exact Nat.mod_self _

/-! ## Messages -/

theorem sendIov_cons (s : Sock) (io : List UInt8) (iov : List (List UInt8)) : sendIov s (io :: iov) =
    if (ringPut s io).2 < io.length then ringPut s io
    else ((sendIov (ringPut s io).1 iov).1, (ringPut s io).2 + (sendIov (ringPut s io).1 iov).2) := rfl

theorem recvIov_cons (s : Sock) (cap : Nat) (caps : List Nat) : recvIov s (cap :: caps) =
    if (ringGet s cap).2.length < cap then ((ringGet s cap).1, [(ringGet s cap).2])
    else ((recvIov (ringGet s cap).1 caps).1, (ringGet s cap).2 :: (recvIov (ringGet s cap).1 caps).2) := rfl

theorem Holds.sendIov (h : Holds s l) {iov : List (List UInt8)} (hroom : l.length + iov.flatten.length < recvRingMax) :
    (Socket.sendIov s iov).2 = iov.flatten.length ∧ Holds (Socket.sendIov s iov).1 (l ++ iov.flatten) := by
  induction iov generalizing s l with
  | nil => exact ⟨rfl, by simpa [Socket.sendIov] using h⟩
  | cons io iov ih =>
    rw [List.flatten_cons, List.length_append] at hroom
    have hfit : l.length + io.length < recvRingMax := by omega
    obtain ⟨hn, hput⟩ := h.put hfit
    obtain ⟨htotal, hsend⟩ := ih hput (by rw [List.length_append]; omega)
    rw [sendIov_cons, if_neg (by omega), List.flatten_cons, List.length_append]
    refine ⟨?_, ?_⟩
    · show (ringPut s io).2 + _ = _
      rw [hn, htotal]
    · rw [← List.append_assoc]
      exact hsend

theorem Holds.recvIov (h : Holds s l) (caps : List Nat) : ∃ n,
    (Socket.recvIov s caps).2.flatten = l.take n ∧ Holds (Socket.recvIov s caps).1 (l.drop n) ∧
      ((∃ c ∈ caps, 0 < c) → 0 < n) := by
  induction caps generalizing s l with
  | nil => exact ⟨0, rfl, h, fun ⟨_, hc, _⟩ => absurd hc List.not_mem_nil⟩
  | cons cap caps ih =>
    obtain ⟨hgot, hget⟩ := h.get cap
    rw [recvIov_cons]
    split
    case isTrue hlt =>
      refine ⟨cap, by simpa using hgot, hget, fun _ => by omega⟩
    case isFalse hge =>
      obtain ⟨n, hbufs, hrest, hpos⟩ := ih hget
      refine ⟨cap + n, ?_, ?_, ?_⟩
      · show (ringGet s cap).2 ++ _ = _
        rw [hgot, hbufs, List.take_add]
      · rw [← List.drop_drop]
        exact hrest
      · rintro ⟨c, hc, hc0⟩
        rcases List.mem_cons.1 hc with rfl | hc
        · omega
        · have := hpos ⟨c, hc, hc0⟩
          omega

/-- The ring, and what of it a call of `wubu_sendmsg` or `wubu_recvmsg` changes. -/
theorem ringPut_frame (s : Sock) (data : List UInt8) :
    ∃ ring wp, (ringPut s data).1 = { s with ring := ring, wp := wp } := by
  rw [ringPut]
  split
  · exact ⟨s.ring, s.wp, rfl⟩
  · exact ⟨_, _, rfl⟩

theorem sendIov_frame (s : Sock) (iov : List (List UInt8)) :
    ∃ ring wp, (sendIov s iov).1 = { s with ring := ring, wp := wp } := by
  induction iov generalizing s with
  | nil => exact ⟨s.ring, s.wp, rfl⟩
  | cons io iov ih =>
    obtain ⟨ring, wp, hput⟩ := ringPut_frame s io
    rw [sendIov_cons]
    split
    · exact ⟨ring, wp, hput⟩
    · obtain ⟨ring', wp', hsend⟩ := ih (ringPut s io).1
      exact ⟨ring', wp', by rw [hsend, hput]⟩

theorem ringGet_frame (s : Sock) (cap : Nat) : ∃ rp, (ringGet s cap).1 = { s with rp := rp } := by
  rw [ringGet]
  split
  · exact ⟨s.rp, rfl⟩
  · exact ⟨_, rfl⟩

theorem recvIov_frame (s : Sock) (caps : List Nat) : ∃ rp, (recvIov s caps).1 = { s with rp := rp } := by
  induction caps generalizing s with
  | nil => exact ⟨s.rp, rfl⟩
  | cons cap caps ih =>
    obtain ⟨rp, hget⟩ := ringGet_frame s cap
    rw [recvIov_cons]
    split
    · exact ⟨rp, hget⟩
    · obtain ⟨rp', hrecv⟩ := ih (ringGet s cap).1
      exact ⟨rp', by rw [hrecv, hget]⟩

/-! ## Runs -/

/-- Two stream sockets, with descriptors, that are each other's peer. -/
structure Connected (st : Net) (a b : Int) (i j : Slot) : Prop where
  fst : sockFromFd st a = some i
  snd : sockFromFd st b = some j
  fstType : (st.pool i).type = sockStream
  sndType : (st.pool j).type = sockStream
  fstState : (st.pool i).state = .established
  sndState : (st.pool j).state = .established
  fstPeer : (st.pool i).peer = some j
  sndPeer : (st.pool j).peer = some i

/-- What is done: bytes are sent at one end, and received at the other. -/
inductive Op where
  | send (iov : List (List UInt8))
  | recv (caps : List Nat)

/-- The sockets, the bytes whose sending has been reported, and the bytes delivered. -/
structure Log where
  net : Net
  accepted : List UInt8
  delivered : List UInt8

/-- One call, at `a` or at `b`. -/
def Log.step (a b : Int) (g : Log) : Op → Log
  | .send iov =>
    let (net, ret) := wubuSendmsg g.net a (some iov)
    ⟨net, g.accepted ++ iov.flatten.take ret.toNat, g.delivered⟩
  | .recv caps =>
    let (net, _, bufs) := wubuRecvmsg g.net b (some caps)
    ⟨net, g.accepted, g.delivered ++ bufs.flatten⟩

def Log.run (a b : Int) (g : Log) (ops : List Op) : Log := ops.foldl (Log.step a b) g

/-- The bytes delivered are the first of those accepted, and if there are more, the next call that has
room for some gets some. -/
def Log.InOrder (b : Int) (g : Log) : Prop :=
  g.delivered <+: g.accepted ∧ (g.delivered.length < g.accepted.length →
    ∀ caps : List Nat, (∃ c ∈ caps, 0 < c) → 0 < (wubuRecvmsg g.net b (some caps)).2.1)

/-- A call of `wubu_sendmsg` leaves a cell of the ring free. -/
def Log.Roomy (g : Log) : Op → Prop
  | .send iov => g.accepted.length - g.delivered.length + iov.flatten.length < recvRingMax
  | .recv _ => True

/-- What holds in every state of such a run: what is under way is in the ring of the receiver. -/
structure Log.Stream (a b : Int) (i j : Slot) (g : Log) : Prop where
  connected : Connected g.net a b i j
  ring : ∃ l, Holds (g.net.pool j) l ∧ g.accepted = g.delivered ++ l

variable {st : Net} {a b : Int} {i j : Slot} {g : Log}

/-- A change to the receiver's ring alone. -/
theorem Connected.upd (h : Connected st a b i j) {s : Sock} (ht : s.type = (st.pool j).type)
    (hs : s.state = (st.pool j).state) (hp : s.peer = (st.pool j).peer) :
    Connected (st.upd j fun _ => s) a b i j := by
  have hall : ∀ k, ((st.upd j fun _ => s).pool k).type = (st.pool k).type ∧
      ((st.upd j fun _ => s).pool k).state = (st.pool k).state ∧
      ((st.upd j fun _ => s).pool k).peer = (st.pool k).peer := fun k => by
    by_cases hk : k = j
    · subst hk
      simp [Net.upd, ht, hs, hp]
    · simp [Net.upd, hk]
  exact ⟨h.fst, h.snd, (hall i).1.trans h.fstType, (hall j).1.trans h.sndType, (hall i).2.1.trans h.fstState,
    (hall j).2.1.trans h.sndState, (hall i).2.2.trans h.fstPeer, (hall j).2.2.trans h.sndPeer⟩

theorem wubuSendmsg_eq (h : Connected st a b i j) (iov : List (List UInt8)) : wubuSendmsg st a (some iov) =
      (st.upd j fun _ => (sendIov (st.pool j) iov).1, ((sendIov (st.pool j) iov).2 : Int)) := by
  simp only [wubuSendmsg, h.fst, h.fstPeer, h.fstState, ne_eq, not_true_eq_false, if_false]

theorem wubuRecvmsg_eq (h : sockFromFd st b = some j) (caps : List Nat) :
    wubuRecvmsg st b (some caps) = (st.upd j fun _ => (recvIov (st.pool j) caps).1,
      ((recvIov (st.pool j) caps).2.flatten.length : Int), (recvIov (st.pool j) caps).2) := by
  simp only [wubuRecvmsg, h]

/-- **A call that leaves a cell free keeps the stream in order.** -/
theorem Log.Stream.step (h : g.Stream a b i j) {op : Op} (hr : g.Roomy op) : (g.step a b op).Stream a b i j := by
  obtain ⟨hc, l, hl, hacc⟩ := h
  cases op with
  | send iov =>
    have hroom : l.length + iov.flatten.length < recvRingMax := by
      have hr : g.accepted.length - g.delivered.length + iov.flatten.length < recvRingMax := hr
      rw [hacc, List.length_append] at hr
      omega
    obtain ⟨hret, hsend⟩ := hl.sendIov hroom
    obtain ⟨ring, wp, hframe⟩ := sendIov_frame (g.net.pool j) iov
    rw [Log.step, wubuSendmsg_eq hc]
    refine ⟨hc.upd (by rw [hframe]) (by rw [hframe]) (by rw [hframe]), l ++ iov.flatten, ?_, ?_⟩
    · rw [upd_pool_self]
      exact hsend
    · show g.accepted ++ iov.flatten.take ((sendIov (g.net.pool j) iov).2 : Int).toNat = g.delivered ++ _
      rw [hret, Int.toNat_natCast, List.take_length, hacc, List.append_assoc]
  | recv caps =>
    obtain ⟨n, hbufs, hrecv, -⟩ := hl.recvIov caps
    obtain ⟨rp, hframe⟩ := recvIov_frame (g.net.pool j) caps
    rw [Log.step, wubuRecvmsg_eq hc.snd]
    refine ⟨hc.upd (by rw [hframe]) (by rw [hframe]) (by rw [hframe]), l.drop n, ?_, ?_⟩
    · rw [upd_pool_self]
      exact hrecv
    · show g.accepted = g.delivered ++ (recvIov (g.net.pool j) caps).2.flatten ++ l.drop n
      rw [hbufs, hacc, List.append_assoc, List.take_append_drop]

theorem Log.Stream.run (h : g.Stream a b i j) {ops : List Op}
    (hr : Runs.Each (Log.step a b) Log.Roomy g ops) : (g.run a b ops).Stream a b i j :=
  Runs.Each.invariant (Log.Stream a b i j) (fun _ _ h hr => h.step hr) g ops h hr

theorem Log.Stream.inOrder (h : g.Stream a b i j) : g.InOrder b := by
  obtain ⟨hc, l, hl, hacc⟩ := h
  refine ⟨⟨l, hacc.symm⟩, fun hlt caps hcap => ?_⟩
  obtain ⟨n, hbufs, -, hpos⟩ := hl.recvIov caps
  have hn := hpos hcap
  rw [hacc, List.length_append] at hlt
  rw [wubuRecvmsg_eq hc.snd, hbufs, List.length_take]
  show (0 : Int) < ((min n l.length : Nat) : Int)
  omega

/-- Nothing is under way yet. -/
def Log.start (st : Net) : Log := ⟨st, [], []⟩

theorem Log.start_stream (hc : Connected st a b i j) (h0 : (st.pool j).rp = (st.pool j).wp) :
    (Log.start st).Stream a b i j :=
  ⟨hc, [], ⟨by simp [Log.start, h0], by decide, rfl⟩, rfl⟩

/-- **From a fresh connection on, as long as every call of `wubu_sendmsg` leaves a cell of the ring
free, the bytes arrive in order, and those that are under way can be received.** -/
theorem stream_in_order (hc : Connected st a b i j) (h0 : (st.pool j).rp = (st.pool j).wp) (ops : List Op)
    (hr : Runs.Each (Log.step a b) Log.Roomy (Log.start st) ops) : ((Log.start st).run a b ops).InOrder b :=
  ((Log.start_stream hc h0).run hr).inOrder

/-- What a full ring gives. -/
theorem recvIov_empty (h : ringUsed s = 0) : (recvIov s [1]).2 = [[]] := by
  rw [recvIov_cons, ringGet, h]
  rfl

/-- **A buffer that leaves no cell free stops the stream.** -/
theorem Log.Stream.full (h : g.Stream a b i j) (data : List UInt8)
    (hfull : recvRingMax ≤ g.accepted.length - g.delivered.length + data.length) :
    ¬(g.step a b (.send [data])).InOrder b := fun hin => by
  obtain ⟨hc, l, hl, hacc⟩ := h
  rw [hacc, List.length_append, Nat.add_sub_cancel_left] at hfull
  obtain ⟨hret, hused⟩ := ringPut_full hl hfull
  have hroom := hl.room
  have hsend : (sendIov (g.net.pool j) [data]).1 = (ringPut (g.net.pool j) data).1 ∧
      (sendIov (g.net.pool j) [data]).2 = recvRingMax - l.length := by
    rw [sendIov_cons]
    split
    · exact ⟨rfl, hret⟩
    · exact ⟨rfl, hret⟩
  have hconn : sockFromFd (g.step a b (.send [data])).net b = some j := by
    rw [Log.step, wubuSendmsg_eq hc]
    exact hc.snd
  have hpool : (g.step a b (.send [data])).net.pool j = (ringPut (g.net.pool j) data).1 := by
    rw [Log.step, wubuSendmsg_eq hc, ← hsend.1]
    exact upd_pool_self g.net j fun _ => _
  have hlt : (g.step a b (.send [data])).delivered.length < (g.step a b (.send [data])).accepted.length := by
    rw [Log.step, wubuSendmsg_eq hc, hsend.2]
    simp only [hacc, List.length_append, List.length_take, List.flatten_singleton, Int.toNat_natCast]
    omega
  have hpos := hin.2 hlt [1] ⟨1, by decide, by decide⟩
  rw [wubuRecvmsg_eq hconn, hpool, recvIov_empty hused] at hpos
  exact absurd (show (0 : Int) < 0 from hpos) (by decide)

/-- A listener at port 9001, a connection to it, and its acceptance: descriptors 1 and 2. -/
def pair : Net :=
  let addr : Sockaddr := ⟨1, 9001, .replicate 16 0⟩
  let st := (wubuSocket Net.init afInet sockStream 0).1
  let st := (wubuBind st 0 (some addr) sockaddrSize).1
  let st := (wubuListen st 0 8).1
  let st := (wubuSocket st afInet sockStream 0).1
  let st := (wubuConnect st 1 (some addr) sockaddrSize).1
  (wubuAccept st 0).1

theorem pair_connected : Connected pair 1 2 1 2 ∧ (pair.pool 2).rp = (pair.pool 2).wp :=
  ⟨⟨by decide, by decide, by decide, by decide, by decide, by decide, by decide, by decide⟩, by decide⟩

/-- Two buffers are sent, and one byte is received. -/
theorem stream_in_order_sample : ((Log.start pair).run 1 2 [.send [[1, 2], [3]], .recv [1]]).InOrder 2 :=
  stream_in_order pair_connected.1 pair_connected.2 _ ⟨show 0 - 0 + 3 < 512 by decide, trivial, trivial⟩

/-- **As many bytes as the ring has cells: they are accepted, and cannot be received.** -/
theorem stream_stalls : ¬∀ (st : Net) (a b : Int) (i j : Slot), Connected st a b i j →
    (st.pool j).rp = (st.pool j).wp → ∀ ops, ((Log.start st).run a b ops).InOrder b := fun h => by
  refine (Log.start_stream pair_connected.1 pair_connected.2).full (List.replicate 512 0) ?_
    (h pair 1 2 1 2 pair_connected.1 pair_connected.2 [.send [List.replicate 512 0]])
  rw [List.length_replicate]
  decide

end WuBuOS.Socket
