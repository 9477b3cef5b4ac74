import WuBuOS.Runtime.Styx.Answer

/-!
# What a message can say

A message declares its size, and the server should not look behind its end.  Some arms of `styx_serve`
check that the fields they read are there, and others do not; and a string that is cut short by the end
of the message is taken as it is.

`Complete` says that the fields of a message, with the lengths that its strings declare, end before the
message does.  `confinement_iff` says for which messages the server does what it should: the reply and
the arguments of the callbacks do not depend on what is behind the message, and a message that is not
complete is answered with an error, and nothing else.
-/

namespace WuBuOS.Styx

open Bytes

/-! ## Messages that are cut short -/

/-- A field of a message: so many bytes, or a string. -/
inductive Field
  | fixed (n : Nat)
  | str
  deriving DecidableEq, Repr

/-- The fields of a message, behind its header. -/
def fields (buf : Buf) : TType → List Field
  | .tversion => [.fixed 4, .str]
  | .tauth => [.fixed 4, .str, .str]
  | .tattach => [.fixed 4, .fixed 4, .str]
  | .tflush => [.fixed 2]
  | .twalk => .fixed 4 :: .fixed 4 :: .fixed 2 :: List.replicate (get buf 15 2) .str
  | .topen => [.fixed 4, .fixed 1]
  | .tcreate => [.fixed 4, .str, .fixed 4, .fixed 1]
  | .tread => [.fixed 4, .fixed 8, .fixed 4]
  | .twrite => [.fixed 4, .fixed 8, .fixed 4, .fixed (get buf 19 4)]
  | .tclunk => [.fixed 4]
  | .tremove => [.fixed 4]
  | .tstat => [.fixed 4]
  | .twstat => [.fixed 4, .fixed 2, .fixed 39, .str, .str, .str, .str]

/-- Where fields that begin at `pos` end. -/
def endOf (buf : Buf) : List Field → Nat → Nat
  | [], pos => pos
  | .fixed n :: fs, pos => endOf buf fs (pos + n)
  | .str :: fs, pos => endOf buf fs (pos + 2 + get buf pos 2)

/-- **The message is complete.** -/
def Complete (buf : Buf) : Prop :=
  match msgType buf with
  | none => True
  | some type => endOf buf (fields buf type) 7 ≤ msgSize buf

/-- The arm of the message has a check of its own that refuses it. -/
def Refused (buf : Buf) : Prop :=
  match msgType buf with
  | some .tversion => msgSize buf < 13 ∨ versionOk (stringAt buf 11 16 (msgSize buf)) = false ∨ get buf 7 4 < 64
  | some .tauth => msgSize buf < 15
  | some .tflush => msgSize buf < 9
  | some .tcreate =>
    msgSize buf < 13 ∨ msgSize buf < 18 + min (min (get buf 11 2) (maxFname - 1)) (msgSize buf - 13)
  | some .tattach => msgSize buf < 15
  | some .twrite => msgSize buf < 23 + get buf 19 4
  | _ => False

/-- The strings of the message that are needed to go on can be read. -/
def Readable (buf : Buf) : Prop :=
  match msgType buf with
  | some .twalk => walkNames buf (msgSize buf) 17 (min (get buf 15 2) 16) ≠ none
  | some .twstat => wstatDir buf (msgSize buf) ≠ none
  | _ => True

/-! ## What the server should do -/

/-- The buffers agree on the first `n` bytes. -/
def Agree (n : Nat) (buf buf' : Buf) : Prop := ∀ i < n, buf' i = buf i

/-- The reply is an error. -/
def IsError (reply : List UInt8) : Prop := reply[4]? = some (UInt8.ofNat rerror)

/-- **The message is confined**: what is served depends on the message only. -/
def Confined (W : Type) (buf : Buf) : Prop :=
  ∀ (cb : Callbacks W) (srv : Server W) (buf' : Buf) (inlen inlen' : Nat), 7 ≤ inlen → 7 ≤ inlen' →
    msgSize buf ≤ inlen → msgSize buf ≤ inlen' → Agree (msgSize buf) buf buf' →
    ∃ r, styxServe cb srv buf inlen = some r ∧ styxServe cb srv buf' inlen' = some r

/-- **A message that is not complete is refused**, without any call. -/
def RefusesShort (W : Type) (buf : Buf) : Prop :=
  ¬ Complete buf → ∀ (cb : Callbacks W) (srv : Server W) (inlen : Nat), 7 ≤ inlen →
    msgSize buf ≤ inlen → ∃ r, styxServe cb srv buf inlen = some r ∧ IsError r.reply ∧ r.calls = []

variable {W : Type} {buf buf' : Buf} {cb : Callbacks W} {srv : Server W} {size tag pos n : Nat}

/-! ## What is read of a message -/

theorem Agree.get (h : Agree size buf buf') (pos n : Nat) (hn : pos + n ≤ size) : get buf' pos n = get buf pos n :=
  get_congr fun x _ hx => h x (by omega)

theorem Agree.getstr (h : Agree size buf buf') (outsz : Nat) :
    getstr buf' pos outsz (size - pos) = getstr buf pos outsz (size - pos) := by
  by_cases hpos : size - pos < 2
  · rw [Styx.getstr, Styx.getstr, if_pos hpos, if_pos hpos]
  · exact getstr_congr fun i hi => h i (by omega)

theorem Agree.stringAt (h : Agree size buf buf') (outsz : Nat) :
    stringAt buf' pos outsz size = stringAt buf pos outsz size := by
  rw [Styx.stringAt, Styx.stringAt, h.getstr]

theorem Agree.authNames (h : Agree size buf buf') : authNames buf' size = authNames buf size := by
  rw [Styx.authNames, Styx.authNames, h.getstr]
  split
  · rfl
  · rw [h.stringAt]

theorem Agree.walkNames (h : Agree size buf buf') (n pos : Nat) :
    walkNames buf' size pos n = walkNames buf size pos n := by
  induction n generalizing pos with
  | zero => rfl
  | succ n ih =>
    rw [Styx.walkNames, Styx.walkNames, h.getstr]
    split
    · rfl
    · rw [ih]

theorem Agree.wstatDir (h : Agree size buf buf') (hsize : 52 ≤ size) : wstatDir buf' size = wstatDir buf size := by
  simp only [Styx.wstatDir, h.getstr, h.stringAt, h.get 13 2 (by omega), h.get 15 4 (by omega),
    h.get 19 1 (by omega), h.get 20 4 (by omega), h.get 24 8 (by omega), h.get 32 4 (by omega),
    h.get 36 4 (by omega), h.get 40 4 (by omega), h.get 44 8 (by omega)]

theorem le_endOf (buf : Buf) (fs : List Field) (pos : Nat) : pos ≤ endOf buf fs pos := by
  induction fs generalizing pos with
  | nil => exact Nat.le_refl pos
  | cons f fs ih =>
    cases f with
    | fixed n => exact Nat.le_trans (Nat.le_add_right pos n) (ih (pos + n))
    | str => exact Nat.le_trans (by omega) (ih (pos + 2 + Bytes.get buf pos 2))

variable {type : TType}

theorem Complete.of_type (h : Complete buf) (ht : msgType buf = some type) :
    endOf buf (fields buf type) 7 ≤ msgSize buf := by
  rw [Complete, ht] at h
  exact h

/-- **An arm that refuses the message, or has all of it, does not look behind it.** -/
theorem serveType_congr (ht : msgType buf = some type)
    (hagree : Agree (msgSize buf) buf buf') (hok : Refused buf ∨ Complete buf) :
    serveType cb srv tag buf' (msgSize buf) type = serveType cb srv tag buf (msgSize buf) type := by
  rw [Refused, ht] at hok
  cases type with
  | tversion | tattach =>
    rw [serveType, serveType]
    split
    · rfl
    · rw [hagree.get 7 4 (by omega), hagree.stringAt]
  | tauth =>
    rw [serveType, serveType]
    split
    · rfl
    · rw [hagree.get 7 4 (by omega), hagree.authNames]
  | tflush =>
    rw [serveType, serveType]
    split
    · rfl
    · rw [hagree.get 7 2 (by omega)]
  | twalk =>
    have hend := (hok.resolve_left id).of_type ht
    have hle : 17 ≤ msgSize buf := Nat.le_trans (le_endOf buf _ 17) hend
    rw [serveType, serveType, hagree.get 7 4 (by omega), hagree.get 11 4 (by omega),
      hagree.get 15 2 (by omega), hagree.walkNames]
  | topen =>
    have hend : 12 ≤ msgSize buf := (hok.resolve_left id).of_type ht
    rw [serveType, serveType, hagree.get 7 4 (by omega), hagree.get 11 1 (by omega)]
  | tcreate =>
    rw [serveType, serveType]
    split
    · rfl
    · rw [hagree.getstr]
      split
      · rfl
      · split
        · rfl
        · rw [hagree.get 7 4 (by omega), hagree.get _ 4 (by omega), hagree.get _ 1 (by omega)]
  | tread =>
    have hend : 23 ≤ msgSize buf := (hok.resolve_left id).of_type ht
    rw [serveType, serveType, hagree.get 7 4 (by omega), hagree.get 11 8 (by omega), hagree.get 19 4 (by omega)]
  | twrite =>
    by_cases hsize : msgSize buf < 23
    · rw [serveType, serveType, if_pos (by omega), if_pos (by omega)]
    · rw [serveType, serveType, hagree.get 7 4 (by omega), hagree.get 11 8 (by omega), hagree.get 19 4 (by omega)]
      split
      · rfl
      · rw [slice_congr fun i hi => hagree _ (by omega)]
  | tclunk | tremove | tstat =>
    have hend : 11 ≤ msgSize buf := (hok.resolve_left id).of_type ht
    rw [serveType, serveType, hagree.get 7 4 (by omega)]
  | twstat =>
    have hend := (hok.resolve_left id).of_type ht
    have hle : 52 ≤ msgSize buf := Nat.le_trans (le_endOf buf [.str, .str, .str, .str] 52) hend
    rw [serveType, serveType, hagree.get 7 4 (by omega), hagree.wstatDir hle]

theorem serveWalk_ne_none {fid newfid nwname : Nat} {wname : Option (List CStr)} (h : wname ≠ none) :
    serveWalk cb srv tag fid newfid nwname wname ≠ none := by
  rw [serveWalk]
  split
  · exact Option.some_ne_none _
  · split
    · exact Option.some_ne_none _
    · split
      · exact Option.some_ne_none _
      · exact mt Option.map_eq_none_iff.1 h

theorem serveWstat_ne_none {fid : Nat} {dir : Option Dir} (h : dir ≠ none) : serveWstat cb srv tag fid dir ≠ none := by
  rw [serveWstat]
  split
  · exact Option.some_ne_none _
  · exact mt Option.map_eq_none_iff.1 h

/-- An arm that can read what it needs comes to an end. -/
theorem serveType_ne_none (ht : msgType buf = some type)
    (hok : Refused buf ∨ Readable buf) : serveType cb srv tag buf (msgSize buf) type ≠ none := by
  rw [Refused, Readable, ht] at hok
  have hguard : ∀ {p : Prop} [Decidable p] {x y : Served W}, (if p then some x else some y) ≠ none := by
    intro p _ x y
    split <;> exact Option.some_ne_none _
  cases type with
  | twalk => exact serveWalk_ne_none (hok.resolve_left id)
  | twstat => exact serveWstat_ne_none (hok.resolve_left id)
  | tcreate =>
    rw [serveType]
    split
    · exact Option.some_ne_none _
    · split
      · next hstr =>
        rw [getstr, if_neg (by omega)] at hstr
        cases hstr
      · split
        · exact Option.some_ne_none _
        · exact Option.some_ne_none _
  | topen | tread | tclunk | tremove | tstat => exact Option.some_ne_none _
  | tversion | tauth | tattach | tflush | twrite => exact hguard

theorem isError_message (type tag : Nat) (body : List UInt8) :
    (message type tag body)[4]? = some (UInt8.ofNat type) := rfl

theorem isError_refuse (srv : Server W) (tag : Nat) (msg : String) : IsError (refuse srv tag msg).reply :=
  isError_message rerror tag _

/-- **What is refused** is answered with an error, and no call is made. -/
theorem serveType_refused (cb : Callbacks W) (srv : Server W) (tag : Nat) (ht : msgType buf = some type) (h : Refused buf) :
    ∃ msg, serveType cb srv tag buf (msgSize buf) type = some (refuse srv tag msg) := by
  rw [Refused, ht] at h
  cases type with
  | tversion =>
    rw [serveType]
    by_cases hsize : msgSize buf < 13
    · exact ⟨_, if_pos hsize⟩
    · rw [if_neg hsize, serveVersion]
      have h := h.resolve_left hsize
      split
      · exact ⟨_, rfl⟩
      · next hver =>
        split
        · exact ⟨_, rfl⟩
        · next hmsize =>
          -- the version is `9P2000.u`, of which the first six characters are known
          have hunknown := h.resolve_right hmsize
          rw [hunknown, Bool.not_false, Bool.true_and, bne_iff_ne, not_not] at hver
          rw [hver] at hunknown
          exact absurd hunknown (by decide)
  | tauth | tattach | tflush | twrite => exact ⟨_, if_pos h⟩
  | tcreate =>
    rw [serveType]
    by_cases hsize : msgSize buf < 13
    · exact ⟨_, if_pos hsize⟩
    · have h := h.resolve_left hsize
      rw [if_neg hsize, getstr, if_neg (by omega)]
      refine ⟨_, if_pos ?_⟩
      omega
  | twalk | topen | tread | tclunk | tremove | tstat | twstat => exact h.elim

/-- **The messages that are served as they should be.** -/
def WellServed (buf : Buf) : Prop :=
  7 ≤ msgSize buf ∧ (maxMsg < msgSize buf ∨ Refused buf ∨ (Readable buf ∧ Complete buf))

theorem Agree.header (h : Agree (msgSize buf) buf buf') (hsize : 7 ≤ msgSize buf) :
    msgSize buf' = msgSize buf ∧ msgTag buf' = msgTag buf ∧ msgType buf' = msgType buf := by
  refine ⟨h.get 0 4 (by omega), h.get 5 2 (by omega), ?_⟩
  rw [msgType, msgType, h.get 4 1 (by omega)]

theorem confined_of_wellServed (h : WellServed buf) : Confined W buf := by
  intro cb srv buf' inlen inlen' _ _ hlen hlen' hagree
  obtain ⟨hsize, hok⟩ := h
  obtain ⟨hsize', htag, htype⟩ := hagree.header hsize
  have hexists : ∀ x y : Option (Served W), x ≠ none → y = x → ∃ r, x = some r ∧ y = some r := by
    rintro x y hx rfl
    obtain ⟨r, rfl⟩ := Option.ne_none_iff_exists'.1 hx
    exact ⟨r, rfl, rfl⟩
  rw [styxServe, styxServe, hsize', htag, htype]
  by_cases hmax : maxMsg < msgSize buf
  · rw [if_pos (Or.inr hmax), if_pos (Or.inr hmax)]
    exact ⟨_, rfl, rfl⟩
  have hlen : ¬ (inlen < msgSize buf ∨ maxMsg < msgSize buf) := by omega
  have hlen' : ¬ (inlen' < msgSize buf ∨ maxMsg < msgSize buf) := by omega
  rw [if_neg hlen, if_neg hlen']
  by_cases hmsize : srv.msize ≠ 0 ∧ srv.msize < msgSize buf
  · rw [if_pos hmsize, if_pos hmsize]
    exact ⟨_, rfl, rfl⟩
  rw [if_neg hmsize, if_neg hmsize]
  have hok := hok.resolve_left hmax
  cases ht : msgType buf with
  | none => exact ⟨_, rfl, rfl⟩
  | some type =>
    exact hexists _ _ (serveType_ne_none ht (hok.imp id And.left))
      (serveType_congr ht hagree (hok.imp id And.right))

theorem refusesShort_of_wellServed (h : WellServed buf) : RefusesShort W buf := by
  intro hshort cb srv inlen _ hlen
  rw [styxServe]
  by_cases hmax : maxMsg < msgSize buf
  · rw [if_pos (Or.inr hmax)]
    exact ⟨_, rfl, isError_refuse .., rfl⟩
  rw [if_neg (by omega)]
  by_cases hmsize : srv.msize ≠ 0 ∧ srv.msize < msgSize buf
  · rw [if_pos hmsize]
    exact ⟨_, rfl, isError_refuse .., rfl⟩
  rw [if_neg hmsize]
  cases ht : msgType buf with
  | none => exact ⟨_, rfl, isError_refuse .., rfl⟩
  | some type =>
    have hrefused := (h.2.resolve_left hmax).resolve_right fun hc => hshort hc.2
    obtain ⟨msg, hmsg⟩ := serveType_refused cb srv (msgTag buf) ht hrefused
    exact ⟨_, hmsg, isError_refuse .., rfl⟩

/-! ## The tag of a reply -/

/-- A reply carries this tag. -/
def Tagged (tag : Nat) (reply : List UInt8) : Prop := ∃ type body, reply = message type tag body

/-- **The server replies with the tag of the message.** -/
theorem tagged_styxServe {inlen : Nat} {r : Served W} (h : styxServe cb srv buf inlen = some r) :
    Tagged (msgTag buf) r.reply := by
  obtain ⟨msg, -, hr⟩ | ⟨type, body, -, -, hr, -⟩ := styxServe_reply h
  · exact ⟨_, _, hr⟩
  · exact ⟨_, _, hr⟩

/-- A message with two tags is a message with one. -/
theorem message_tag {type type' tag' : Nat} {body body' : List UInt8}
    (h : message type tag body = message type' tag' body') : UInt8.ofNat (tag / 256) = UInt8.ofNat (tag' / 256) := by
  have h6 : (message type tag body)[6]? = (message type' tag' body')[6]? := by rw [h]
  have hbyte : ∀ type tag body, (message type tag body)[6]? = some (UInt8.ofNat (tag / 256 ^ 1)) :=
    fun _ _ _ => rfl
  rw [hbyte, hbyte, Nat.pow_one] at h6
  exact Option.some.inj h6

/-! ## Where the server goes wrong -/

/-- A file system that has everything installed, and does nothing. -/
def idleCallbacks (W : Type) : Callbacks W where
  clone := some fun _ _ srv => srv
  attach := some fun _ _ srv => (false, srv)
  walk := some fun _ _ _ srv => ((false, []), srv)
  «open» := some fun _ _ srv => (.error 0, srv)
  read := some fun _ _ _ srv => (.error 0, srv)
  write := some fun _ _ _ _ srv => (.error 0, srv)
  clunk := some fun _ srv => srv
  remove := some fun _ srv => srv
  stat := some fun _ srv => (none, srv)
  wstat := some fun _ _ srv => (.error 0, srv)
  auth := some fun _ _ _ srv => (none, srv)
  create := some fun _ _ _ _ srv => (.error 0, srv)
  flush := some fun _ srv => srv

/-- A server with this one fid. -/
def oneFid (W : Type) [Inhabited W] (fid : Nat) : Server W where
  fids _ := ⟨true, fid, 0, 0, 0, ⟨0, 0, 0⟩, 0⟩
  msize := 0
  maxMsize := 0
  version := []
  connected := true
  world := default

theorem fidLookup_oneFid [Inhabited W] (fid : Nat) : fidLookup (oneFid W fid) fid = some 0 := by
  rw [fidLookup, maxFids, List.range_succ_eq_map, List.find?_cons_of_pos]
  exact beq_self_eq_true fid

theorem isSome_oneFid [Inhabited W] (fid : Nat) : (fidLookup (oneFid W fid) fid).isSome := by
  rw [fidLookup_oneFid]
  rfl

/-- A size of six is not enough: the tag is behind the message. -/
theorem seven_le_of_confined [Inhabited W] (h : Confined W buf) : 7 ≤ msgSize buf := by
  by_contra hsize
  let buf' : Buf := Function.update buf 6 (buf 6 + 1)
  have hagree : Agree (msgSize buf) buf buf' := fun i hi => Function.update_of_ne (by omega) ..
  obtain ⟨r, hr, hr'⟩ := h (idleCallbacks W) (oneFid W 0) buf' 7 7 (Nat.le_refl 7) (Nat.le_refl 7)
    (by omega) (by omega) hagree
  obtain ⟨type, body, hbuf⟩ := tagged_styxServe hr
  obtain ⟨type', body', hbuf'⟩ := tagged_styxServe hr'
  have hbyte : ∀ b : Buf, UInt8.ofNat (msgTag b / 256) = b 6 := by
    intro b
    have h1 := (b 5).toNat_lt
    have htag : msgTag b / 256 = (b 6).toNat := by
      change ((b 5).toNat + 256 * ((b 6).toNat + 256 * 0)) / 256 = (b 6).toNat
      omega
    rw [htag]
    exact UInt8.ofNat_toNat
  have htag := message_tag (hbuf.symm.trans hbuf')
  rw [hbyte, hbyte, show buf' 6 = buf 6 + 1 from Function.update_self ..] at htag
  have hne : ∀ b : UInt8, b ≠ b + 1 := by
    intro b hb
    have hnat : b.toNat = (b.toNat + 1) % 2 ^ 8 := (congrArg UInt8.toNat hb).trans (UInt8.toNat_add ..)
    omega
  exact hne _ htag

/-- A message that is served is complete. -/
theorem complete_of_served {inlen : Nat} {r : Served W} (h : RefusesShort W buf) (hlen : 7 ≤ inlen)
    (hsize : msgSize buf ≤ inlen) (hr : styxServe cb srv buf inlen = some r)
    (hserved : IsError r.reply → r.calls ≠ []) : Complete buf := by
  by_contra hshort
  obtain ⟨r', hr', herror, hcalls⟩ := h hshort cb srv inlen hlen hsize
  cases hr.symm.trans hr'
  exact hserved herror hcalls

/-- An arm of a confined message comes to an end. -/
theorem serveType_of_confined (hc : Confined W buf) (hmax : msgSize buf ≤ maxMsg) (srv : Server W)
    (hsrv : srv.msize = 0) (ht : msgType buf = some type) : ∃ r,
      styxServe (idleCallbacks W) srv buf (max 7 (msgSize buf)) = some r ∧
      serveType (idleCallbacks W) srv (msgTag buf) buf (msgSize buf) type = some r := by
  have hlen : msgSize buf ≤ max 7 (msgSize buf) := Nat.le_max_right ..
  obtain ⟨r, hr, -⟩ := hc (idleCallbacks W) srv buf _ _ (Nat.le_max_left ..) (Nat.le_max_left ..)
    hlen hlen fun _ _ => rfl
  refine ⟨r, hr, ?_⟩
  rw [styxServe, if_neg (by omega), if_neg fun h => h.1 hsrv, ht] at hr
  exact hr

/-- If an arm makes a call, its message is complete. -/
theorem complete_of_call (hc : Confined W buf) (hs : RefusesShort W buf) (hmax : msgSize buf ≤ maxMsg)
    (srv : Server W) (hsrv : srv.msize = 0) (ht : msgType buf = some type) {r : Served W}
    (hr : serveType (idleCallbacks W) srv (msgTag buf) buf (msgSize buf) type = some r)
    (hcalls : IsError r.reply → r.calls ≠ []) : Complete buf := by
  obtain ⟨r', hserve, hr'⟩ := serveType_of_confined hc hmax srv hsrv ht
  cases hr.symm.trans hr'
  exact complete_of_served hs (Nat.le_max_left ..) (Nat.le_max_right ..) hserve hcalls

/-- A walk that is confined has all of its numbers, and its names can be read. -/
theorem walk_of_confined [Inhabited W] (hc : Confined W buf) (hmax : msgSize buf ≤ maxMsg)
    (ht : msgType buf = some .twalk) :
    17 ≤ msgSize buf ∧ walkNames buf (msgSize buf) 17 (min (Bytes.get buf 15 2) 16) ≠ none := by
  have hfid := fidLookup_oneFid (W := W) (Bytes.get buf 7 4)
  -- if there are names, they have been read
  have hnames : ∀ buf', Agree (msgSize buf) buf buf' → 7 ≤ msgSize buf →
      Bytes.get buf' 7 4 = Bytes.get buf 7 4 → Bytes.get buf' 15 2 ≠ 0 →
      walkNames buf' (msgSize buf) 17 (min (Bytes.get buf' 15 2) 16) ≠ none := by
    intro buf' hagree hseven hbuf' hn hnone
    have hlen : msgSize buf ≤ max 7 (msgSize buf) := Nat.le_max_right ..
    obtain ⟨r, -, hr⟩ := hc (idleCallbacks W) (oneFid W (Bytes.get buf 7 4)) buf' _ _
      (Nat.le_max_left ..) (Nat.le_max_left ..) hlen hlen hagree
    obtain ⟨hsize', -, htype'⟩ := hagree.header hseven
    rw [styxServe, hsize', htype', ht, if_neg (by omega), if_neg fun h => h.1 rfl] at hr
    dsimp only at hr
    rw [serveType, hbuf', serveWalk, hfid] at hr
    dsimp only at hr
    rw [if_neg hn, hnone] at hr
    cases hr
  have hseven := seven_le_of_confined hc
  have hsize : 17 ≤ msgSize buf := by
    by_contra hsize
    -- the number of names is behind the message, and can be anything
    let buf' : Buf := Function.update buf 16 1
    have hagree : Agree (msgSize buf) buf buf' := fun i hi => Function.update_of_ne (by omega) ..
    have hn : Bytes.get buf' 15 2 ≠ 0 := by
      change (buf' 15).toNat + 256 * ((buf' 16).toNat + 256 * 0) ≠ 0
      rw [show buf' 16 = 1 from Function.update_self ..]
      change (buf' 15).toNat + 256 * (1 + 256 * 0) ≠ 0
      omega
    refine hnames buf' hagree hseven (get_congr fun x _ hx => Function.update_of_ne (by omega) ..) hn ?_
    obtain ⟨m, hm⟩ : ∃ m, min (Bytes.get buf' 15 2) 16 = m + 1 :=
      Nat.exists_eq_succ_of_ne_zero (by omega)
    rw [hm, walkNames, getstr, if_pos (by omega)]
  refine ⟨hsize, fun hnone => ?_⟩
  by_cases hn : Bytes.get buf 15 2 = 0
  · rw [hn] at hnone
    cases hnone
  · exact hnames buf (fun _ _ => rfl) hseven rfl hn hnone

theorem serveVersion_served {msize : Nat} {version : CStr} (hver : versionOk version ≠ false)
    (hmsize : ¬ msize < 64) : ¬ IsError (serveVersion srv tag msize version).reply := by
  rw [ne_eq, Bool.not_eq_false] at hver
  rw [serveVersion, hver, Bool.not_true, Bool.false_and, if_neg Bool.false_ne_true, if_neg hmsize]
  intro h
  cases (isError_message _ _ _).symm.trans h

/-- A message that is served as it should be, and that its arm does not refuse, is complete and can be
read. -/
theorem complete_of_holds [Inhabited W] (hc : Confined W buf) (hs : RefusesShort W buf)
    (hmax : msgSize buf ≤ maxMsg) (hrefused : ¬ Refused buf) : Readable buf ∧ Complete buf := by
  let srv := oneFid W (Bytes.get buf 7 4)
  have hfid : (fidLookup srv (Bytes.get buf 7 4)).isSome := isSome_oneFid _
  have hcall : ∀ {type : TType} {r : Served W} {call : Invocation}, msgType buf = some type →
      serveType (idleCallbacks W) srv (msgTag buf) buf (msgSize buf) type = some r →
      r.calls = [call] → Complete buf :=
    fun ht hr hcalls => complete_of_call hc hs hmax srv rfl ht hr fun _ => hcalls ▸ List.cons_ne_nil _ _
  cases ht : msgType buf with
  | none =>
    rw [Readable, Complete, ht]
    exact ⟨trivial, trivial⟩
  | some type =>
    rw [Refused, ht] at hrefused
    rw [Readable, ht]
    cases type with
    | tversion =>
      simp only [not_or] at hrefused
      obtain ⟨hsize, hver, hmsize⟩ := hrefused
      refine ⟨trivial, complete_of_call hc hs hmax srv rfl ht (if_neg hsize) fun herror => ?_⟩
      exact absurd herror (serveVersion_served hver hmsize)
    | tauth => exact ⟨trivial, hcall ht (if_neg hrefused) (serveAuth_calls rfl _ _ _)⟩
    | tattach => exact ⟨trivial, hcall ht (if_neg hrefused) (serveAttach_calls rfl _)⟩
    | tflush | twrite =>
      refine ⟨trivial, ?_⟩
      rw [Complete, ht]
      exact Nat.le_of_not_lt hrefused
    | twalk =>
      obtain ⟨hsize, hnames⟩ := walk_of_confined hc hmax ht
      refine ⟨hnames, ?_⟩
      by_cases hn : Bytes.get buf 15 2 = 0
      · rw [Complete, ht]
        dsimp only
        rw [fields, hn]
        exact hsize
      · obtain ⟨r, -, hr⟩ := serveType_of_confined hc hmax srv rfl ht
        obtain ⟨names, hwname⟩ := Option.ne_none_iff_exists'.1 hnames
        have hcalls := congrArg (Option.map Served.calls) hr
        rw [serveType, hwname, serveWalk_calls rfl hfid hn] at hcalls
        exact hcall ht hr (Option.some.inj hcalls).symm
    | topen => exact ⟨trivial, hcall ht rfl (serveOpen_calls rfl hfid _)⟩
    | tcreate =>
      simp only [not_or] at hrefused
      obtain ⟨hsize, hend⟩ := hrefused
      obtain ⟨r, -, hr⟩ := serveType_of_confined hc hmax srv rfl ht
      have hr' := hr
      rw [serveType, if_neg hsize, getstr, if_neg (by omega)] at hr'
      dsimp only at hr'
      rw [if_neg (by omega)] at hr'
      exact ⟨trivial, hcall ht hr (Option.some.inj hr' ▸ serveCreate_calls rfl _ _ _)⟩
    | tread => exact ⟨trivial, hcall ht rfl (serveRead_calls rfl hfid _ _)⟩
    | tclunk => exact ⟨trivial, hcall ht rfl (serveClunk_calls rfl hfid)⟩
    | tremove => exact ⟨trivial, hcall ht rfl (serveRemove_calls rfl)⟩
    | tstat => exact ⟨trivial, hcall ht rfl (serveStat_calls rfl hfid)⟩
    | twstat =>
      obtain ⟨r, -, hr⟩ := serveType_of_confined hc hmax srv rfl ht
      have hcalls := congrArg (Option.map Served.calls) hr
      rw [serveType] at hcalls
      cases hdir : wstatDir buf (msgSize buf) with
      | none =>
        rw [hdir] at hcalls
        cases hcalls
      | some dir =>
        rw [hdir, serveWstat_calls rfl] at hcalls
        exact ⟨Option.some_ne_none dir, hcall ht hr (Option.some.inj hcalls).symm⟩

/-- **Where the server is confined.**  What it does depends on the message only, and a message that is
not complete is refused, if and only if the message has a header, and is too long, or refused by its arm,
or complete and its strings can be read. -/
theorem confinement_iff (W : Type) [Inhabited W] (buf : Buf) :
    Confined W buf ∧ RefusesShort W buf ↔ WellServed buf := by
  constructor
  · rintro ⟨hc, hs⟩
    refine ⟨seven_le_of_confined hc, ?_⟩
    by_cases hmax : maxMsg < msgSize buf
    · exact Or.inl hmax
    by_cases hrefused : Refused buf
    · exact Or.inr (Or.inl hrefused)
    · exact Or.inr (Or.inr (complete_of_holds hc hs (Nat.le_of_not_lt hmax) hrefused))
  · intro h
    exact ⟨confined_of_wellServed h, refusesShort_of_wellServed h⟩

/-- A `Topen` that ends behind its header. -/
def shortOpen : Buf := fun i => ([7, 0, 0, 0, 112, 1, 0] : List UInt8).getD i 0

/-- It opens the file whose fid is in memory behind it. -/
theorem shortOpen_served :
    (styxServe (idleCallbacks Unit) (oneFid Unit 0) shortOpen 7).map Served.calls = some [.open 0 0] ∧
      ¬ RefusesShort Unit shortOpen := by
  have hserved : (styxServe (idleCallbacks Unit) (oneFid Unit 0) shortOpen 7).map Served.calls = some [.open 0 0] := by
    decide
  refine ⟨hserved, fun h => ?_⟩
  have hshort : ¬ Complete shortOpen := show ¬ (12 ≤ 7) by decide
  obtain ⟨r, hr, -, hcalls⟩ := h hshort (idleCallbacks Unit) (oneFid Unit 0) 7 (Nat.le_refl 7)
    (by decide)
  rw [hr, Option.map_some, hcalls] at hserved
  cases hserved

end WuBuOS.Styx
