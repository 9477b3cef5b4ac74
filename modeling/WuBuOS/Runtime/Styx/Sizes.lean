import WuBuOS.Lib.Runs
import WuBuOS.Runtime.Styx.Replies

/-!
# How long a reply is

A client and the server agree on the most that a message may have.  The server does not take a message that is
longer, but of the replies only that to a `Tread` is built with that in mind, and only for the number of
bytes that the callback is asked for, not for the number it returns.  A reply with names in it, or with many
qids, is as long as they are.

`ReplyFits` says of a message what its reply would have to be short enough for; every other reply has 41
bytes at most, and no size below 64 is agreed on.  So whether a reply has the size that has been agreed on
is known from the callbacks' results (`reply_le_iff`).
-/

namespace WuBuOS.Styx

open Bytes Runs

variable {W : Type} {cb : Callbacks W} {srv : Server W} {buf : Buf} {size tag m : Nat}
  {served : Served W} {body : List UInt8}

/-! ## Lengths -/

@[simp]
theorem length_qid (q : Qid) : q.bytes.length = 13 := by simp [Qid.bytes]

theorem length_flatMap_qid (qids : List Qid) : (qids.flatMap Qid.bytes).length = 13 * qids.length := by
  induction qids with
  | nil => rfl
  | cons q qids ih =>
    rw [List.flatMap_cons, List.length_append, length_qid, ih, List.length_cons]
    omega

theorem length_putstr_le (s : CStr) : (putstr s).length ≤ 2 + s.length := by
  rw [putstr, List.length_append, length_le, List.length_take]
  omega

/-- An error is short. -/
theorem Errs.length_le {reply : List UInt8} (h : Errs tag reply) : reply.length ≤ 41 := by
  obtain ⟨msg, hmsg, rfl⟩ := h
  have := length_putstr_le msg
  rw [styxError, length_message]
  omega

/-- What would have to fit into the reply to a message. -/
def Fits (cb : Callbacks W) (srv : Server W) (buf : Buf) (size m : Nat) : TType → Prop
  | .twalk => ∀ walk wname, cb.walk = some walk → (fidLookup srv (get buf 7 4)).isSome →
      get buf 15 2 ≠ 0 → walkNames buf size 17 (min (get buf 15 2) 16) = some wname →
      9 + 13 * (walk (get buf 7 4) (get buf 11 4) wname srv).1.2.length ≤ m
  | .tread => ∀ read nread data srv', cb.read = some read → (fidLookup srv (get buf 7 4)).isSome →
      read (get buf 7 4) (get buf 11 8) (min (get buf 19 4) (readCap srv)) srv = (.ok (nread, data), srv') →
      11 + min nread maxData ≤ m
  | .tstat => ∀ i, fidLookup srv (get buf 7 4) = some i →
      (cb.stat = none → 68 ≤ m) ∧
      ∀ stat dir srv', cb.stat = some stat → stat (get buf 7 4) srv = (some dir, srv') →
        9 + dir.bytes.length ≤ m
  | _ => True

theorem length_defaultDir (qid : Qid) : (defaultDir qid).bytes.length = 59 := by
  have hname : (putstr (text "file")).length = 6 := by decide
  have hwubu : (putstr (text "wubu")).length = 6 := by decide
  have hnil : (putstr []).length = 2 := by decide
  simp [Dir.bytes, Dir.fixed, defaultDir, hname, hwubu, hnil]

/-- An answer that is as long as what it is about is short enough if that is. -/
theorem Accepts.length_le {type : TType} (h : Accepts cb srv buf size body type) (hm : 64 ≤ m)
    (hfits : Fits cb srv buf size m type) : 7 + body.length ≤ m := by
  cases type with
  | tversion =>
    obtain ⟨msize, rfl⟩ := h
    have : (putstr (text "9P2000")).length = 8 := by decide
    simp [this]
    omega
  | tauth =>
    obtain ⟨aqid, rfl⟩ := h
    rw [length_qid]
    omega
  | tattach =>
    obtain ⟨qid, rfl⟩ := h
    rw [length_qid]
    omega
  | tflush | tremove =>
    rw [h]
    simp
    omega
  | twalk =>
    obtain ⟨hfid, ⟨-, qid, rfl⟩ | ⟨h0, walk, wname, hwalk, hwname, ok, qids, srv', hres, -, rfl⟩⟩ := h
    · simp
      omega
    · have hlen := hfits walk wname hwalk hfid h0 hwname
      rw [hres] at hlen
      dsimp only at hlen
      rw [List.length_append, Bytes.length_le, length_flatMap_qid]
      omega
  | topen =>
    obtain ⟨-, -, qid, rfl⟩ := h
    simp
    omega
  | tcreate =>
    obtain ⟨-, -, -, -, -, qid, -, -, rfl⟩ := h
    simp
    omega
  | tread =>
    obtain ⟨hfid, ⟨-, rfl⟩ | ⟨read, nread, data, srv', hread, hres, rfl⟩⟩ := h
    · rw [Bytes.length_le]
      omega
    · have hlen := hfits read nread data srv' hread hfid hres
      rw [List.length_append, Bytes.length_le, length_slice]
      omega
  | twrite =>
    obtain ⟨-, -, nwritten, -, -, -, rfl⟩ := h
    rw [Bytes.length_le]
    omega
  | tclunk =>
    rw [h.2]
    simp
    omega
  | tstat =>
    obtain ⟨i, hi, dir, rfl, hdir⟩ := h
    obtain ⟨hnone, hsome⟩ := hfits i hi
    rw [List.length_append, Bytes.length_le]
    obtain ⟨hcb, rfl⟩ | ⟨stat, srv', hcb, hres⟩ := hdir
    · have := hnone hcb
      rw [length_defaultDir]
      omega
    · have := hsome stat dir srv' hcb hres
      omega
  | twstat =>
    rw [h.1]
    simp
    omega

/-- What the reply is about is short enough if the reply is. -/
theorem fits_of_length_le {type : TType} (h : serveType cb srv tag buf size type = some served)
    (hle : served.reply.length ≤ m) (hm : 64 ≤ m) : Fits cb srv buf size m type := by
  cases type with
  | twalk =>
    intro walk wname hwalk hfid h0 hwname
    obtain ⟨i, hi⟩ := Option.isSome_iff_exists.1 hfid
    rw [serveType, serveWalk, hi, hwalk, hwname] at h
    dsimp only at h
    rw [if_neg h0, Option.map_some] at h
    cases h
    generalize walk (get buf 7 4) (get buf 11 4) wname srv = res at hle ⊢
    split at hle
    · rw [List.length_nil]
      omega
    · dsimp only at hle ⊢
      rw [buildRwalk, length_message, List.length_append, Bytes.length_le, length_flatMap_qid] at hle
      omega
  | tread =>
    intro read nread data srv' hread hfid hres
    obtain ⟨i, hi⟩ := Option.isSome_iff_exists.1 hfid
    rw [serveType, serveRead, hi, hread] at h
    dsimp only at h
    rw [hres] at h
    cases h
    dsimp only at hle
    rw [buildRread, length_message, List.length_append, Bytes.length_le, length_slice] at hle
    have : maxData ≤ maxMsg - 11 := by decide
    omega
  | tstat =>
    intro i hi
    rw [serveType, serveStat, hi] at h
    constructor
    · intro hcb
      rw [hcb] at h
      cases h
      dsimp only at hle
      rw [buildRstat, length_message, List.length_append, Bytes.length_le, length_defaultDir] at hle
      omega
    · intro stat dir srv' hcb hres
      rw [hcb] at h
      dsimp only at h
      rw [hres] at h
      cases h
      dsimp only at hle
      rw [buildRstat, length_message, List.length_append, Bytes.length_le] at hle
      omega
  | _ => exact trivial

/-- What would have to fit into the reply, if the message is not refused at once. -/
def ReplyFits (cb : Callbacks W) (srv : Server W) (buf : Buf) (inlen m : Nat) : Prop :=
  Dispatched srv buf inlen → ∀ type, msgType buf = some type → Fits cb srv buf (msgSize buf) m type

/-- **A reply is short enough** if and only if what it is about is. -/
theorem reply_length_le_iff {inlen : Nat} (h : styxServe cb srv buf inlen = some served) (hm : 64 ≤ m) :
    served.reply.length ≤ m ↔ ReplyFits cb srv buf inlen m := by
  constructor
  · intro hle hd type ht
    exact fits_of_length_le ((styxServe_of_dispatched hd ht).symm.trans h) hle hm
  · intro hfits
    obtain herr | ⟨type, body, hd, ht, hr, hacc⟩ := styxServe_reply h
    · exact herr.length_le.trans (by omega)
    · rw [hr, length_message]
      exact hacc.length_le hm (hfits hd type ht)

/-! ## Negotiation -/

/-- A message in its buffer; it has a header. -/
structure Frame where
  buf : Buf
  inlen : Nat
  header : 7 ≤ inlen

/-- The server, and the size that has been agreed on. -/
structure Connection (W : Type) where
  srv : Server W
  msize : Option Nat

/-- A message is served; an `Rversion` says which size has been agreed on. -/
def connStep (cb : Callbacks W) (c : Connection W) (f : Frame) (c' : Connection W) : Prop :=
  ∃ served, styxServe cb c.srv f.buf f.inlen = some served ∧
    c' = ⟨served.srv, if field served.reply 4 1 = 101 then some served.srv.msize else c.msize⟩

/-- The server has no ceiling, or one that an `Rversion` can be sent under. -/
def CeilingOk (srv : Server W) (buf : Buf) : Prop :=
  msgType buf = some .tversion → srv.maxMsize = 0 ∨ 64 ≤ srv.maxMsize

/-- **No size below 64 is agreed on.** -/
theorem negotiated_le {inlen : Nat} (h : styxServe cb srv buf inlen = some served)
    (hceil : CeilingOk srv buf) (hversion : field served.reply 4 1 = 101) : 64 ≤ served.srv.msize := by
  have htag : msgTag buf < 2 ^ 16 := get_lt buf 5 2
  have herr : ¬Errs (msgTag buf) served.reply := by
    rintro ⟨msg, -, hr⟩
    rw [hr, styxError, (message_fields (by decide) htag _).2.1] at hversion
    exact absurd hversion (by decide)
  obtain ⟨type, body, hd, ht, hr, -⟩ := (styxServe_reply h).resolve_left herr
  have hcode : type.code + 1 < 2 ^ 8 := by cases type <;> decide
  rw [hr, (message_fields hcode htag _).2.1] at hversion
  have hs := (styxServe_of_dispatched hd ht).symm.trans h
  cases type with
  | tversion =>
    -- what is refused is an error
    rw [serveType] at hs
    split at hs
    · cases hs
      exact absurd (errs_refuse (by decide)) herr
    cases hs
    rw [serveVersion] at herr ⊢
    split
    · rename_i hunknown
      rw [if_pos hunknown] at herr
      exact absurd (errs_refuse (by decide)) herr
    rename_i hknown
    split
    · rename_i hsmall
      rw [if_neg hknown, if_pos hsmall] at herr
      exact absurd (errs_refuse (by decide)) herr
    rename_i hsmall
    have hmax : 64 ≤ maxMsg := by decide
    have := hceil ht
    dsimp only
    split <;> omega
  | _ => cases hversion

variable {c c' : Connection W} {frames : List Frame} {f : Frame}

/-- **A reply has the size that has been agreed on** if and only if what it is about does. -/
theorem reply_le_iff (h : Run (guarded (fun c f => CeilingOk c.srv f.buf) (connStep cb)) ⟨srv, none⟩ frames c)
    (hm : c.msize = some m) (hs : styxServe cb c.srv f.buf f.inlen = some served) :
    served.reply.length ≤ m ↔ ReplyFits cb c.srv f.buf f.inlen m := by
  have hinv : ∀ m, c.msize = some m → 64 ≤ m := by
    refine h.invariant (fun c => ∀ m, c.msize = some m → 64 ≤ m) (fun c f c' hg hc m hm => ?_) nofun
    obtain ⟨hceil, served, hs, rfl⟩ := hg
    split at hm
    · rename_i hversion
      exact Option.some.inj hm ▸ negotiated_le hs hceil hversion
    · exact hc m hm
  exact reply_length_le_iff hs (hinv m hm)

/-- A file system whose walks come by two qids. -/
def twoQids : Callbacks Unit :=
  { idleCallbacks Unit with walk := some fun _ _ _ srv => ((true, [⟨0, 1, 1⟩, ⟨0, 1, 2⟩]), srv) }

/-- The message in a frame of its own. -/
def Request.frame (req : Request) : Frame := ⟨req.memory, max 7 req.encode.length, Nat.le_max_left ..⟩

/-- A server with fid 0 that has agreed on a size of 64 bytes. -/
def smallest : Connection Unit := ⟨{ fidZero with msize := 64, version := text "9P2000" }, some 64⟩

theorem smallest_run (cb : Callbacks Unit) :
    Run (guarded (fun c f => CeilingOk c.srv f.buf) (connStep cb)) ⟨fidZero, none⟩
      [(Request.version 64 (text "9P2000")).frame] smallest := by
  have hceil : CeilingOk fidZero (Request.version 64 (text "9P2000")).memory := fun _ => Or.inl rfl
  have hs : styxServe cb fidZero (Request.version 64 (text "9P2000")).memory 19 =
      some ⟨buildRversion 0 64 (text "9P2000"), [], smallest.srv⟩ := rfl
  exact .single ⟨hceil, _, hs, rfl⟩

/-- A walk that comes by two qids has room in 64 bytes. -/
theorem reply_le_iff_walk : ∃ served, styxServe twoQids smallest.srv (Request.walk 1 0 1 [text "a", text "b"]).frame.buf
      (Request.walk 1 0 1 [text "a", text "b"]).frame.inlen = some served ∧ served.reply.length ≤ 64 := by
  have hreply : (styxServe twoQids smallest.srv (Request.walk 1 0 1 [text "a", text "b"]).frame.buf
      (Request.walk 1 0 1 [text "a", text "b"]).frame.inlen).isSome := by decide
  obtain ⟨served, hs⟩ := Option.isSome_iff_exists.1 hreply
  refine ⟨served, hs, (reply_le_iff (smallest_run twoQids) rfl hs).2 fun _ type ht => ?_⟩
  obtain rfl : TType.twalk = type := Option.some.inj ht
  rintro walk wname hwalk - - -
  cases Option.some.inj hwalk
  exact Nat.le_of_ble_eq_true rfl

/-- A file system that has nothing installed. -/
def noCallbacks : Callbacks Unit :=
  ⟨none, none, none, none, none, none, none, none, none, none, none, none, none⟩

/-- **A `Tstat` is answered in 68 bytes** where 64 have been agreed on, if nothing is installed. -/
theorem stat_too_long : Run (guarded (fun c f => CeilingOk c.srv f.buf) (connStep noCallbacks)) ⟨fidZero, none⟩
        [(Request.version 64 (text "9P2000")).frame] smallest ∧
      (styxServe noCallbacks smallest.srv (Request.stat 1 0).memory 11).map (fun r => r.reply.length) = some 68 :=
  ⟨smallest_run noCallbacks, by decide⟩

end WuBuOS.Styx
