import WuBuOS.Runtime.Styx.Encode

/-!
# What a client may rely on

A reply carries its own length and the tag of the message, and is an error or the answer to it; and an answer
has to be earned (`reply_discipline`).  A walk that has failed after some names is answered all the same,
with the qids of these names; whether the fid of a `Tcreate` or a `Twstat` is in use is for the callback to
find out.  What the callbacks for `Tclunk` and `Tremove` return is thrown away, and the fid of a `Tremove` is
not looked up, so nothing is asked of these.

There is no reply to a message whose strings are cut short, if they are used without having been read.
-/

namespace WuBuOS.Styx

open Bytes

variable {W : Type} {cb : Callbacks W} {srv : Server W} {buf : Buf} {inlen type tag : Nat}
  {served : Served W} {body : List UInt8}

/-! ## The fields of a reply -/

/-- A field of a reply. -/
def field (reply : List UInt8) (pos n : Nat) : Nat := get (fun i => reply.getD i 0) pos n

/-- `outlen`, which has 32 bits. -/
def Served.outlen (served : Served W) : Nat := served.reply.length % 2 ^ 32

theorem message_fields (htype : type < 2 ^ 8) (htag : tag < 2 ^ 16) (body : List UInt8) :
    field (message type tag body) 0 4 = (message type tag body).length % 2 ^ 32 ∧
      field (message type tag body) 4 1 = type ∧ field (message type tag body) 5 2 = tag := by
  have hat := at_getD (message type tag body)
  have hbyte : ∀ l : List UInt8, UInt8.ofNat type :: l = le 1 type ++ l := fun l => by simp [le]
  rw [length_message]
  rw [show message type tag body = le 4 (7 + body.length) ++ (le 1 type ++ (le 2 tag ++ body)) by
    rw [message, hbyte]] at hat ⊢
  rw [at_append, at_append, at_append, length_le, length_le] at hat
  obtain ⟨hsize, htype', htag', -⟩ := hat
  refine ⟨hsize.get, ?_, ?_⟩
  · exact htype'.get.trans (Nat.mod_eq_of_lt htype)
  · exact htag'.get.trans (Nat.mod_eq_of_lt htag)

theorem TType.code_ofCode {n : Nat} {t : TType} (h : TType.ofCode n = some t) : t.code = n := by
  unfold TType.ofCode at h
  split at h <;> cases h <;> rfl

/-! ## Strings that are missing -/

/-- A string is used that has not been read: the names of a walk, or the strings of a directory entry. -/
def Unread (cb : Callbacks W) (srv : Server W) (buf : Buf) (inlen : Nat) : Prop :=
  Dispatched srv buf inlen ∧
    ((msgType buf = some .twalk ∧ (fidLookup srv (get buf 7 4)).isSome ∧ get buf 15 2 ≠ 0 ∧
        cb.walk.isSome ∧ walkNames buf (msgSize buf) 17 (min (get buf 15 2) 16) = none) ∨
      (msgType buf = some .twstat ∧ cb.wstat.isSome ∧ wstatDir buf (msgSize buf) = none))

theorem serveWalk_eq_none_iff {fid newfid nwname : Nat} {wname : Option (List CStr)} :
    serveWalk cb srv tag fid newfid nwname wname = none ↔
      (fidLookup srv fid).isSome ∧ nwname ≠ 0 ∧ cb.walk.isSome ∧ wname = none := by
  rw [serveWalk]
  cases fidLookup srv fid with
  | none => simp
  | some i =>
    by_cases h0 : nwname = 0
    · simp [h0]
    · cases cb.walk with
      | none => simp [h0]
      | some walk => simp [h0]

theorem serveWstat_eq_none_iff {fid : Nat} {dir : Option Dir} :
    serveWstat cb srv tag fid dir = none ↔ cb.wstat.isSome ∧ dir = none := by
  rw [serveWstat]
  cases cb.wstat with
  | none => simp
  | some wstat => simp

/-- **The server replies**, unless it uses a string that is missing. -/
theorem styxServe_eq_none_iff : styxServe cb srv buf inlen = none ↔ Unread cb srv buf inlen := by
  constructor
  · intro h
    obtain ⟨msg, -, hs⟩ | ⟨type, hd, ht, hs⟩ := styxServe_cases cb srv buf inlen
    · cases h.symm.trans hs
    rw [h, eq_comm] at hs
    have hread : ¬Readable buf := fun hread => serveType_ne_none ht (Or.inr hread) hs
    rw [Readable, ht] at hread
    refine ⟨hd, ?_⟩
    cases type with
    | twalk => exact Or.inl ⟨ht, serveWalk_eq_none_iff.1 hs⟩
    | twstat => exact Or.inr ⟨ht, serveWstat_eq_none_iff.1 hs⟩
    | _ => exact absurd trivial hread
  · rintro ⟨hd, ⟨ht, hun⟩ | ⟨ht, hun⟩⟩
    · rw [styxServe_of_dispatched hd ht]
      exact serveWalk_eq_none_iff.2 hun
    · rw [styxServe_of_dispatched hd ht]
      exact serveWstat_eq_none_iff.2 hun

/-! ## The discipline -/

/-- **The answer is earned**: the fid is in use, and the callback has reported success. -/
def Earned (cb : Callbacks W) (srv : Server W) (buf : Buf) : TType → Prop
  | .twalk => (fidLookup srv (get buf 7 4)).isSome ∧ (get buf 15 2 = 0 ∨
      ∃ walk wname, cb.walk = some walk ∧
        walkNames buf (msgSize buf) 17 (min (get buf 15 2) 16) = some wname ∧
        ((walk (get buf 7 4) (get buf 11 4) wname srv).1.1 = true ∨
          (walk (get buf 7 4) (get buf 11 4) wname srv).1.2 ≠ []))
  | .topen => (fidLookup srv (get buf 7 4)).isSome ∧ ∀ op, cb.open = some op →
      (op (get buf 7 4) (get buf 11 1) srv).1.isOk
  | .tcreate => ∃ create name p, cb.create = some create ∧
      getstr buf 11 maxFname (msgSize buf - 11) = some (name, p) ∧
      (create (get buf 7 4) name (get buf p 4) (get buf (p + 4) 1) srv).1.isOk
  | .tread => (fidLookup srv (get buf 7 4)).isSome ∧ ∀ read, cb.read = some read →
      (read (get buf 7 4) (get buf 11 8) (min (get buf 19 4) (readCap srv)) srv).1.isOk
  | .twrite => (fidLookup srv (get buf 7 4)).isSome ∧ ∃ write, cb.write = some write ∧
      (write (get buf 7 4) (get buf 11 8) (min (get buf 19 4) maxWrite)
        ((slice buf 23 (get buf 19 4)).take (min (get buf 19 4) maxWrite)) srv).1.isOk
  | .tclunk => (fidLookup srv (get buf 7 4)).isSome
  | .tstat => (fidLookup srv (get buf 7 4)).isSome ∧ ∀ stat, cb.stat = some stat →
      (stat (get buf 7 4) srv).1.isSome
  | .twstat => ∃ wstat dir, cb.wstat = some wstat ∧ wstatDir buf (msgSize buf) = some dir ∧
      (wstat (get buf 7 4) dir srv).1.isOk
  | _ => True

theorem earned_of_accepts {t : TType} (h : Accepts cb srv buf (msgSize buf) body t) : Earned cb srv buf t := by
  cases t with
  | twalk =>
    obtain ⟨hfid, ⟨h0, -⟩ | ⟨-, walk, wname, hwalk, hwname, ok, qids, srv', hres, hok, -⟩⟩ := h
    · exact ⟨hfid, Or.inl h0⟩
    · exact ⟨hfid, Or.inr ⟨walk, wname, hwalk, hwname, by rw [hres]; exact hok⟩⟩
  | topen => exact ⟨h.1, h.2.1⟩
  | tcreate =>
    obtain ⟨create, name, p, hcreate, hname, qid, srv', hres, -⟩ := h
    exact ⟨create, name, p, hcreate, hname, by rw [hres]; rfl⟩
  | tread =>
    obtain ⟨hfid, ⟨hnone, -⟩ | ⟨read, nread, data, srv', hread, hres, -⟩⟩ := h
    · exact ⟨hfid, fun read hread => by cases hnone.symm.trans hread⟩
    · refine ⟨hfid, fun read' hread' => ?_⟩
      obtain rfl : read = read' := Option.some.inj (hread.symm.trans hread')
      rw [hres]
      rfl
  | twrite =>
    obtain ⟨hfid, write, nwritten, srv', hwrite, hres, -⟩ := h
    exact ⟨hfid, write, hwrite, by rw [hres]; rfl⟩
  | tclunk => exact h.1
  | tstat =>
    obtain ⟨i, hi, dir, -, ⟨hnone, -⟩ | ⟨stat, srv', hstat, hres⟩⟩ := h
    · exact ⟨by rw [hi]; rfl, fun stat hstat => by cases hnone.symm.trans hstat⟩
    · refine ⟨by rw [hi]; rfl, fun stat' hstat' => ?_⟩
      obtain rfl : stat = stat' := Option.some.inj (hstat.symm.trans hstat')
      rw [hres]
      rfl
  | twstat =>
    obtain ⟨-, wstat, dir, srv', hwstat, hdir, hres⟩ := h
    exact ⟨wstat, dir, hwstat, hdir, by rw [hres]; rfl⟩
  | tversion | tauth | tattach | tflush | tremove => exact trivial

/-- **What a client may rely on.** -/
theorem reply_discipline (h : ¬Unread cb srv buf inlen) : ∃ served, styxServe cb srv buf inlen = some served ∧
      field served.reply 0 4 = served.outlen ∧ field served.reply 5 2 = msgTag buf ∧
      (field served.reply 4 1 = rerror ∨ field served.reply 4 1 = get buf 4 1 + 1) ∧
      ∀ t, msgType buf = some t → field served.reply 4 1 = t.code + 1 → Earned cb srv buf t := by
  obtain ⟨served, hs⟩ := Option.ne_none_iff_exists'.1 (mt styxServe_eq_none_iff.1 h)
  have htag : msgTag buf < 2 ^ 16 := get_lt buf 5 2
  refine ⟨served, hs, ?_⟩
  obtain ⟨msg, -, hr⟩ | ⟨type, body, -, ht, hr, hacc⟩ := styxServe_reply hs
  · obtain ⟨hsize, htype, htag'⟩ := message_fields (show rerror < 2 ^ 8 by decide) htag (putstr msg)
    rw [Served.outlen, hr, styxError]
    refine ⟨hsize, htag', Or.inl htype, fun t _ hcode => ?_⟩
    rw [htype] at hcode
    cases t <;> cases hcode
  · have hcode : type.code + 1 < 2 ^ 8 := by cases type <;> decide
    obtain ⟨hsize, htype, htag'⟩ := message_fields hcode htag body
    rw [Served.outlen, hr]
    refine ⟨hsize, htag', Or.inr (htype.trans ?_), fun t ht' _ => ?_⟩
    · rw [TType.code_ofCode ht]
    · obtain rfl : type = t := Option.some.inj (ht.symm.trans ht')
      exact earned_of_accepts hacc

/-- A read of fid 0 is answered with an error, as the file system has failed. -/
theorem reply_discipline_read : ∃ served,
    styxServe (idleCallbacks Unit) fidZero (Request.read 1 0 0 8).memory 23 = some served ∧
      field served.reply 0 4 = served.outlen ∧ field served.reply 5 2 = 1 ∧
      (field served.reply 4 1 = rerror ∨ field served.reply 4 1 = 117) := by
  have hread : ¬Unread (idleCallbacks Unit) fidZero (Request.read 1 0 0 8).memory 23 := by
    rintro ⟨-, ⟨ht, -⟩ | ⟨ht, -⟩⟩
    · exact absurd ht (by decide)
    · exact absurd ht (by decide)
  obtain ⟨served, hs, hsize, htag, htype, -⟩ := reply_discipline hread
  have htag' : msgTag (Request.read 1 0 0 8).memory = 1 := by decide
  have hcode : get (Request.read 1 0 0 8).memory 4 1 = 116 := by decide
  rw [htag'] at htag
  rw [hcode] at htype
  exact ⟨served, hs, hsize, htag, htype⟩

/-- A file system whose walks fail after the first name, and that creates and changes whatever it is
asked to. -/
def generous : Callbacks Unit :=
  { idleCallbacks Unit with
    walk := some fun _ _ _ srv => ((false, [⟨0, 1, 1⟩]), srv)
    create := some fun _ _ _ _ srv => (.ok ⟨0, 1, 1⟩, srv)
    wstat := some fun _ _ srv => (.ok (), srv) }

/-- The type of the reply to a request, if there is one. -/
def replyType (cb : Callbacks Unit) (req : Request) : Option Nat :=
  (styxServe cb fidZero req.memory req.encode.length).map fun served => field served.reply 4 1

/-- A `Twalk` that says it has one name, and ends before it. -/
def shortWalk : Buf := fun i => ([17, 0, 0, 0, 110, 1, 0, 0, 0, 0, 0, 1, 0, 0, 0, 1, 0] : List UInt8).getD i 0

/-- **What a client may not rely on**: a walk that has failed is answered with an `Rwalk` if it has come by a
qid; a file is created, changed or removed for a fid that is not in use; and there is no reply to a walk whose
name is missing. -/
theorem failure_answered : replyType generous (.walk 1 0 1 [text "a", text "b"]) = some 111 ∧
      (fidLookup fidZero 5).isSome = false ∧
      replyType generous (.create 1 5 (text "a") 0 0) = some 115 ∧
      replyType generous (.wstat 1 5 (defaultDir ⟨0, 1, 1⟩)) = some 127 ∧
      replyType generous (.remove 1 5) = some 123 ∧
      (styxServe generous fidZero shortWalk 17).isNone := by
  refine ⟨?_, ?_, ?_, ?_, ?_, ?_⟩ <;> decide

end WuBuOS.Styx
