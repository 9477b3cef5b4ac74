import WuBuOS.Runtime.Nt.Sd

/-!
# What the access check lets through

The ACEs of an access control list are those up to the first one that is not complete (`aces`).  The
decoder keeps the first `WUBU_NT_ACE_MAX` of them, and has a kind for every type, so that an audit ACE, or
one of a type it does not know, lets in the rights that it names (`Lets`).  `daclAllows_iff` says of a
decoded list what it allows in terms of its ACEs, right by right.

`grants_justified_iff` is when everything that is granted is justified by the list, and
`malformed_denied_iff` when a request on a malformed list is denied.
-/

namespace WuBuOS.Nt

/-! ## The list on the wire -/

/-- The ACE at the place is complete. -/
def Complete (acl : Nat → UInt8) (cur : Nat) : Prop :=
  cur + 8 ≤ aclSize acl ∧ 12 ≤ aceSize acl cur ∧ cur + aceSize acl cur ≤ aclSize acl

instance (acl : Nat → UInt8) (cur : Nat) : Decidable (Complete acl cur) :=
  inferInstanceAs (Decidable (_ ∧ _ ∧ _))

/-- An ACE as it is on the wire. -/
structure RawAce where
  type : UInt8
  sid : BitVec 32
  rights : Mask
  deriving DecidableEq

/-- The complete ACEs of the next ones. -/
def rawAces (acl : Nat → UInt8) : Nat → Nat → List RawAce
  | 0, _ => []
  | left + 1, cur =>
    if Complete acl cur then
      ⟨acl cur, read32 acl (cur + 4), read32 acl (cur + 8)⟩ :: rawAces acl left (cur + aceSize acl cur)
    else []

/-- The ACEs of the list, up to the first one that is not complete. -/
def aces (acl : Nat → UInt8) : List RawAce := rawAces acl (aceCount acl) 8

def RevisionOk (acl : Nat → UInt8) : Prop := aclRevision acl = 2 ∨ aclRevision acl = 3 ∨ aclRevision acl = 4

/-- Every ACE that the list declares is there. -/
structure WellFormed (acl : Nat → UInt8) : Prop where
  revision : RevisionOk acl
  complete : (aces acl).length = aceCount acl

/-! ## What is promised -/

/-- The ACE names the owner or one of the groups. -/
def Names (subject : Sidset) (a : RawAce) : Prop := a.sid = subject.ownerSid ∨ a.sid ∈ subject.sids

def IsAllow (a : RawAce) : Prop := a.type = 0x00 ∨ a.type = 0x09 ∨ a.type = 0x11

def IsDeny (a : RawAce) : Prop := a.type = 0x01 ∨ a.type = 0x10

instance (a : RawAce) : Decidable (IsAllow a) := inferInstanceAs (Decidable (_ ∨ _ ∨ _))

instance (a : RawAce) : Decidable (IsDeny a) := inferInstanceAs (Decidable (_ ∨ _))

/-- Some ACE allows the right, and none denies it. -/
def Grounded (acl : Nat → UInt8) (subject : Sidset) (i : Nat) : Prop :=
  (∃ a ∈ aces acl, IsAllow a ∧ Names subject a ∧ a.rights.getLsbD i = true) ∧
    ∀ a ∈ aces acl, IsDeny a → Names subject a → a.rights.getLsbD i = false

/-- Every right of the mask is justified by the list. -/
def Justified (acl : Nat → UInt8) (subject : Sidset) (want : Mask) : Prop :=
  (∀ i, want.getLsbD i = true → ∃ a ∈ aces acl, IsAllow a ∧ Names subject a ∧ a.rights.getLsbD i = true) ∧
    ∀ a ∈ aces acl, IsDeny a → Names subject a → a.rights &&& want = 0

/-- The list is malformed. -/
def Malformed (acl : Nat → UInt8) : Prop :=
  ¬RevisionOk acl ∨ sdMaxBytes < aclSize acl ∨ (aces acl).length < aceCount acl

/-- The list of a descriptor that says that it has one. -/
def listOf (mem : Nat → UInt8) : Nat → UInt8 := memFrom mem (daclOffset mem)

/-- The descriptor says that it has a list. -/
def HasList (mem : Nat → UInt8) : Prop := sdControl mem &&& seDaclPresent ≠ 0 ∧ daclOffset mem ≠ 0

instance (mem : Nat → UInt8) : Decidable (HasList mem) := inferInstanceAs (Decidable (_ ∧ _))

/-- Whatever is granted on the descriptor is justified by its list. -/
def GrantsJustified (mem : Nat → UInt8) (subject : Sidset) : Prop :=
  ∀ view, sdRead (some mem) = some view → ∀ type desired,
    (accessCheck (some view) (some subject) type desired).status = statusSuccess →
      Justified (listOf mem) subject (expandGeneric type desired)

/-- The request is refused: the descriptor cannot be read, or the check denies it. -/
def Denied (mem : Nat → UInt8) (subject : Sidset) (type : ObjectType) (desired : Mask) : Prop :=
  ∀ view, sdRead (some mem) = some view →
    (accessCheck (some view) (some subject) type desired).status ≠ statusSuccess

/-- The ACEs that the decoder keeps. -/
def kept (acl : Nat → UInt8) : List RawAce := (aces acl).take aceMax

/-- The type of the ACE allows something to the owner or to a group, and its SID is the owner's or one of the
groups'.  What is neither is taken for a group. -/
def Lets (subject : Sidset) (a : RawAce) : Prop :=
  a.type ∈ [0x00, 0x02, 0x09] ∧ a.sid = subject.ownerSid ∨
    a.type ∉ [0x00, 0x01, 0x02, 0x09, 0x10] ∧ a.sid ∈ subject.sids

def Bars (subject : Sidset) (a : RawAce) : Prop :=
  a.type = 0x01 ∧ a.sid = subject.ownerSid ∨ a.type = 0x10 ∧ a.sid ∈ subject.sids

/-- A right that gets through: some ACE that is kept lets it in and none bars it, or the list is too long
to be looked at. -/
def Passes (acl : Nat → UInt8) (subject : Sidset) (i : Nat) : Prop :=
  sdMaxBytes < aclSize acl ∨
    (∃ a ∈ kept acl, Lets subject a ∧ a.rights.getLsbD i = true) ∧
      ∀ a ∈ kept acl, Bars subject a → a.rights.getLsbD i = false

/-! ## Decoding -/

variable {acl mem : Nat → UInt8} {subject : Sidset} {want : Mask} {view : SdView}

def RawAce.decoded (a : RawAce) : Ace := ⟨aceKind a.type, a.sid, a.rights⟩

theorem decodeLoop_eq (acl : Nat → UInt8) : ∀ left cur count : Nat,
    decodeLoop acl left cur count = ((rawAces acl left cur).take (aceMax - count)).map RawAce.decoded
  | 0, cur, count => by rw [rawAces, List.take_nil]; rfl
  | left + 1, cur, count => by
    rw [decodeLoop, rawAces]
    by_cases hfull : aceMax ≤ count
    · rw [if_pos hfull, Nat.sub_eq_zero_of_le hfull, List.take_zero]
      rfl
    rw [if_neg hfull]
    by_cases hc : Complete acl cur
    · obtain ⟨hhead, hsize, hend⟩ := hc
      obtain ⟨n, hn⟩ : ∃ n, aceMax - count = n + 1 := ⟨aceMax - count - 1, by omega⟩
      rw [if_neg (by omega), if_neg (by omega), if_neg (by omega), if_pos ⟨hhead, hsize, hend⟩, hn,
        List.take_succ_cons, List.map_cons, decodeLoop_eq acl left,
        show aceMax - (count + 1) = n by omega]
      rfl
    · rw [if_neg hc, List.take_nil]
      unfold Complete at hc
      split
      · rfl
      split
      · rfl
      split
      · rfl
      omega

theorem daclDecode_ok (hr : RevisionOk acl) (hs : aclSize acl ≤ sdMaxBytes) :
    daclDecode (some acl) = ⟨true, (kept acl).map RawAce.decoded⟩ := by
  have hrev : ¬(aclRevision acl ≠ 2 ∧ aclRevision acl ≠ 3 ∧ aclRevision acl ≠ 4) := by
    rintro ⟨h2, h3, h4⟩
    rcases hr with h | h | h
    · exact h2 h
    · exact h3 h
    · exact h4 h
  rw [daclDecode, if_neg hrev, if_neg (Nat.not_lt_of_le hs), decodeLoop_eq]
  rfl

/-- A list that is not looked at. -/
theorem daclDecode_bad (h : ¬RevisionOk acl ∨ sdMaxBytes < aclSize acl) : (daclDecode (some acl)).present = false := by
  unfold daclDecode
  dsimp only
  split
  · rfl
  · split
    · rfl
    · rename_i hrev hsize
      rcases h with h | h
      · refine absurd ?_ h
        unfold RevisionOk
        tauto
      · exact absurd h hsize

/-! ## The evaluation -/

theorem aceKind_iff (type : UInt8) : (aceKind type = .allowOwner ↔ type ∈ [0x00, 0x02, 0x09]) ∧
    (aceKind type = .denyOwner ↔ type = 0x01) ∧ (aceKind type = .denyGroup ↔ type = 0x10) ∧
    (aceKind type = .allowGroup ↔ type ∉ [0x00, 0x01, 0x02, 0x09, 0x10]) := by
  unfold aceKind
  grind

/-- One ACE of the list. -/
theorem evalAce_decoded (subject : Sidset) (want : Mask) (st : Bool × Mask) (a : RawAce) :
    ((evalAce subject want st a.decoded).1 = true ↔ st.1 = true ∨ Bars subject a ∧ a.rights &&& want ≠ 0) ∧
      ∀ i, (evalAce subject want st a.decoded).2.getLsbD i = true ↔
        st.2.getLsbD i = true ∨ Lets subject a ∧ a.rights.getLsbD i = true := by
  obtain ⟨hallow, hdeny, hbar, hgroup⟩ := aceKind_iff a.type
  unfold evalAce Bars Lets RawAce.decoded
  simp only [← hallow, ← hdeny, ← hbar, ← hgroup, Sidset.has, List.contains_iff_mem, eq_comm (a := subject.ownerSid)]
  cases aceKind a.type <;> grind

/-- All of them. -/
theorem foldl_evalAce (subject : Sidset) (want : Mask) : ∀ (l : List RawAce) (st : Bool × Mask),
    (((l.map RawAce.decoded).foldl (evalAce subject want) st).1 = true ↔
      st.1 = true ∨ ∃ a ∈ l, Bars subject a ∧ a.rights &&& want ≠ 0) ∧
    ∀ i, (((l.map RawAce.decoded).foldl (evalAce subject want) st).2.getLsbD i = true ↔
      st.2.getLsbD i = true ∨ ∃ a ∈ l, Lets subject a ∧ a.rights.getLsbD i = true)
  | [], st => by simp
  | a :: l, st => by
    obtain ⟨hbars, hlets⟩ := evalAce_decoded subject want st a
    obtain ⟨ihb, ihl⟩ := foldl_evalAce subject want l (evalAce subject want st a.decoded)
    rw [List.map_cons, List.foldl_cons]
    refine ⟨?_, fun i => ?_⟩
    · rw [ihb, hbars, List.exists_mem_cons_iff, or_assoc]
    · rw [ihl, hlets, List.exists_mem_cons_iff, or_assoc]

theorem and_eq_zero_iff {a b : Mask} : a &&& b = 0 ↔ ∀ i, b.getLsbD i = true → a.getLsbD i = false := by
  rw [BitVec.eq_of_getLsbD_eq_iff]
  refine ⟨fun h i hb => ?_, fun h i _ => ?_⟩
  · have hi := h i (BitVec.lt_of_getLsbD hb)
    rw [BitVec.getLsbD_and, hb, Bool.and_true] at hi
    exact hi.trans BitVec.getLsbD_zero
  · rw [BitVec.getLsbD_and]
    cases hb : b.getLsbD i with
    | false => rw [Bool.and_false]; exact BitVec.getLsbD_zero.symm
    | true => rw [h i hb]; exact BitVec.getLsbD_zero.symm

theorem and_eq_right_iff {a b : Mask} : a &&& b = b ↔ ∀ i, b.getLsbD i = true → a.getLsbD i = true := by
  rw [BitVec.eq_of_getLsbD_eq_iff]
  refine ⟨fun h i hb => ?_, fun h i _ => ?_⟩
  · have hi := h i (BitVec.lt_of_getLsbD hb)
    rw [BitVec.getLsbD_and, hb, Bool.and_true] at hi
    exact hi
  · rw [BitVec.getLsbD_and]
    cases hb : b.getLsbD i with
    | false => rw [Bool.and_false]
    | true => rw [h i hb]; rfl

/-- **What a list that is looked at allows**: the masks whose rights all pass. -/
theorem daclAllows_iff (l : List RawAce) : (daclAllows (some ⟨true, l.map RawAce.decoded⟩) subject want).1 = true ↔
      ∀ i, want.getLsbD i = true → (∃ a ∈ l, Lets subject a ∧ a.rights.getLsbD i = true) ∧
        ∀ a ∈ l, Bars subject a → a.rights.getLsbD i = false := by
  obtain ⟨hbars, hlets⟩ := foldl_evalAce subject want l (false, 0)
  unfold daclAllows
  dsimp only
  rw [if_neg (not_not.2 rfl)]
  generalize (l.map RawAce.decoded).foldl (evalAce subject want) (false, 0) = st at hbars hlets ⊢
  obtain ⟨denied, acc⟩ := st
  simp only [Bool.false_eq_true, false_or] at hbars hlets
  by_cases hd : denied = true
  · obtain ⟨a, ha, hb, hne⟩ := hbars.1 hd
    rw [if_pos hd]
    refine ⟨nofun, fun h => absurd (and_eq_zero_iff.2 fun i hi => ?_) hne⟩
    exact (h i hi).2 a ha hb
  · rw [if_neg hd]
    rw [decide_eq_true_iff, and_eq_right_iff]
    refine forall_congr' fun i => imp_congr_right fun hi => ?_
    have hstart : (0 : Mask).getLsbD i = false := BitVec.getLsbD_zero
    rw [hlets, hstart, or_iff_right Bool.false_ne_true]
    refine (and_iff_left fun a ha hb => ?_).symm
    have hzero : a.rights &&& want = 0 := by
      by_contra hne
      exact hd (hbars.2 ⟨a, ha, hb, hne⟩)
    exact and_eq_zero_iff.1 hzero i hi

/-- A list that is not looked at allows everything. -/
theorem daclAllows_bad {dacl : DaclView} (h : dacl.present = false) : (daclAllows (some dacl) subject want).1 = true := by
  unfold daclAllows
  dsimp only
  rw [h]
  rfl

/-! ## The check -/

theorem accessCheck_success_iff (h : view.noWriteUp = false) (type : ObjectType) (desired : Mask) :
    (accessCheck (some view) (some subject) type desired).status = statusSuccess ↔
      (daclAllows (some view.daclView) subject (expandGeneric type desired)).1 = true := by
  unfold accessCheck micAllowsWrite
  dsimp only
  rw [h]
  split
  · rename_i hno
    exact ⟨fun he => absurd (show statusAccessDenied = statusSuccess from he) (by decide), fun ht => absurd ht hno⟩
  · rename_i hyes
    rw [if_neg (by simp)]
    exact ⟨fun _ => not_not.1 hyes, fun _ => rfl⟩

/-- The view of a descriptor with a list. -/
def listView (mem : Nat → UInt8) : SdView :=
  { zeroView with
    control := sdControl mem
    dacl := some (listOf mem)
    daclPresent := true
    daclView := daclDecode (some (listOf mem)) }

/-- A descriptor that says so is read if its revision and its offset are in range. -/
theorem sdRead_eq (h : HasList mem) :
    sdRead (some mem) = if mem 0 ≠ 1 ∨ sdMaxBytes < daclOffset mem then none else some (listView mem) := by
  obtain ⟨hp, ho⟩ := h
  unfold sdRead
  dsimp only
  by_cases hrev : mem 0 = 1
  · rw [if_neg (not_not.2 hrev), if_neg (fun he => hp he.2), if_neg (fun he => he.elim hp ho)]
    by_cases hoff : sdMaxBytes < daclOffset mem
    · rw [if_pos hoff, if_pos (.inr hoff)]
    · rw [if_neg hoff, if_neg (fun he => he.elim (fun hne => hne hrev) hoff)]
      rfl
  · rw [if_pos hrev, if_pos (.inl hrev)]

/-- **When a request on a descriptor with a list succeeds**: what its list does not refuse. -/
theorem granted_iff (type : ObjectType) (desired : Mask) :
    (accessCheck (some (listView mem)) (some subject) type desired).status = statusSuccess ↔
      ¬RevisionOk (listOf mem) ∨ ∀ i, (expandGeneric type desired).getLsbD i = true → Passes (listOf mem) subject i := by
  rw [accessCheck_success_iff rfl]
  show (daclAllows (some (daclDecode (some (listOf mem)))) _ _).1 = true ↔ _
  by_cases hr : RevisionOk (listOf mem)
  · rw [or_iff_right (not_not.2 hr)]
    by_cases hs : aclSize (listOf mem) ≤ sdMaxBytes
    · rw [daclDecode_ok hr hs, daclAllows_iff]
      exact forall_congr' fun i => imp_congr_right fun _ => (or_iff_right (Nat.not_lt_of_le hs)).symm
    · refine iff_of_true ?_ fun i _ => .inl (Nat.lt_of_not_le hs)
      rw [daclAllows_bad (daclDecode_bad (.inr (Nat.lt_of_not_le hs)))]
  · refine iff_of_true ?_ (.inl hr)
    rw [daclAllows_bad (daclDecode_bad (.inl hr))]

/-! ## The rights of an expanded mask -/

theorem mapping_lt (type : ObjectType) : (genericMapping type).read.toNat < 2 ^ 28 ∧
    (genericMapping type).write.toNat < 2 ^ 28 ∧ (genericMapping type).exec.toNat < 2 ^ 28 ∧
      (genericMapping type).all.toNat < 2 ^ 28 := by
  cases type <;> decide

theorem or_toNat_lt {a b : Mask} {p : Prop} [Decidable p] (ha : a.toNat < 2 ^ 28) (hb : b.toNat < 2 ^ 28) :
    (if p then a ||| b else a).toNat < 2 ^ 28 := by
  split
  · rw [BitVec.toNat_or]
    exact Nat.or_lt_two_pow ha hb
  · exact ha

/-- No generic right is left. -/
theorem expandGeneric_lt (type : ObjectType) (desired : Mask) : (expandGeneric type desired).toNat < 2 ^ 28 := by
  obtain ⟨hr, hw, he, ha⟩ := mapping_lt type
  refine or_toNat_lt (or_toNat_lt (or_toNat_lt (or_toNat_lt ?_ hr) hw) he) ha
  rw [BitVec.toNat_and]
  exact Nat.lt_of_le_of_lt Nat.and_le_right (by decide)

theorem lt_of_expanded {type : ObjectType} {desired : Mask} {i : Nat}
    (h : (expandGeneric type desired).getLsbD i = true) : i < 28 := by
  by_contra hge
  have hlt := Nat.lt_of_lt_of_le (expandGeneric_lt type desired)
    (Nat.pow_le_pow_right (by decide) (Nat.le_of_not_lt hge))
  exact absurd ((Nat.testBit_lt_two_pow hlt).symm.trans h) nofun

/-- A mask of one right. -/
theorem expandGeneric_single {i j : Nat} (hi : i < 28) :
    (expandGeneric .unknown (BitVec.twoPow 32 i)).getLsbD j = true ↔ i = j := by
  have hself : ∀ i < 28, expandGeneric .unknown (BitVec.twoPow 32 i) = BitVec.twoPow 32 i := by decide
  rw [hself i hi, BitVec.getLsbD_twoPow, Bool.and_eq_true, decide_eq_true_iff, decide_eq_true_iff]
  exact and_iff_right (Nat.lt_trans hi (by decide))

/-! ## Justified grants -/

theorem justified_iff : Justified acl subject want ↔ ∀ i, want.getLsbD i = true → Grounded acl subject i := by
  unfold Justified Grounded
  refine ⟨fun ⟨hallow, hdeny⟩ i hi => ⟨hallow i hi, fun a ha hd hn => and_eq_zero_iff.mp (hdeny a ha hd hn) i hi⟩,
    fun h => ⟨fun i hi => (h i hi).1, fun a ha hd hn => and_eq_zero_iff.2 fun i hi => (h i hi).2 a ha hd hn⟩⟩

/-- **What is granted is justified just when every right that passes is.** -/
theorem grants_justified_iff (hl : HasList mem) (hr : (sdRead (some mem)).isSome) (hw : WellFormed (listOf mem))
    (subject : Sidset) :
    GrantsJustified mem subject ↔ ∀ i < 28, Passes (listOf mem) subject i → Grounded (listOf mem) subject i := by
  have hview : sdRead (some mem) = some (listView mem) := by
    rw [sdRead_eq hl] at hr ⊢
    split at hr
    · cases hr
    · rw [if_neg ‹_›]
  simp only [GrantsJustified, hview, Option.some.injEq, forall_eq', granted_iff, justified_iff,
    or_iff_right (not_not.2 hw.revision)]
  refine ⟨fun hall i hi hp => ?_, fun hall type desired hg i hi => hall i (lt_of_expanded hi) (hg i hi)⟩
  refine hall .unknown (BitVec.twoPow 32 i) (fun j hj => ?_) i ((expandGeneric_single hi).2 rfl)
  rw [← (expandGeneric_single hi).1 hj]
  exact hp

/-- The bytes of a list, and zeros behind them. -/
def bytes (l : List UInt8) : Nat → UInt8 := fun a => l.getD a 0

/-- A descriptor with its list at 20. -/
def descriptor (acl : List UInt8) : Nat → UInt8 :=
  bytes ([1, 0, 0x04, 0x80, 0, 0, 0, 0, 20, 0, 0, 0, 0, 0, 0, 0, 0, 0, 0, 0] ++ acl)

/-- An ACE for the SID 5 and the right 2. -/
def ace5 (type : UInt8) : List UInt8 := [type, 0, 12, 0, 5, 0, 0, 0, 2, 0, 0, 0]

def owner5 : Sidset := ⟨5, 0x2000, []⟩

/-- The owner is allowed the right. -/
theorem grants_justified_sample : GrantsJustified (descriptor ([2, 0, 20, 0, 1, 0, 0, 0] ++ ace5 0x00)) owner5 := by
  have haces : aces (listOf (descriptor ([2, 0, 20, 0, 1, 0, 0, 0] ++ ace5 0x00))) = [⟨0x00, 5, 2⟩] := by decide
  refine (grants_justified_iff (by decide) (by decide) ⟨.inl (by decide), by decide⟩
    owner5).2 fun i _ hp => ?_
  rcases hp with hlong | ⟨⟨a, ha, -, hbit⟩, -⟩
  · exact absurd hlong (by decide)
  rw [kept, haces] at ha
  obtain rfl := List.mem_singleton.1 ha
  refine ⟨⟨_, haces ▸ List.mem_singleton_self _, .inl rfl, .inl rfl, hbit⟩, fun a ha hd => ?_⟩
  rw [haces] at ha
  obtain rfl := List.mem_singleton.1 ha
  exact absurd hd (by decide)

/-- **An audit ACE lets its right in.** -/
theorem audit_grants : ¬∀ (mem : Nat → UInt8) (subject : Sidset), HasList mem → (sdRead (some mem)).isSome →
    WellFormed (listOf mem) → GrantsJustified mem subject := fun h => by
  have haces : aces (listOf (descriptor ([2, 0, 20, 0, 1, 0, 0, 0] ++ ace5 0x02))) = [⟨0x02, 5, 2⟩] := by decide
  have hj := h (descriptor ([2, 0, 20, 0, 1, 0, 0, 0] ++ ace5 0x02)) owner5 (by decide) (by decide)
    ⟨.inl (by decide), by decide⟩ (listView _)
    ((sdRead_eq (by decide)).trans (if_neg (by decide))) .unknown 2 (by decide)
  obtain ⟨a, ha, hallow, -⟩ := hj.1 1 (by decide)
  rw [haces] at ha
  obtain rfl := List.mem_singleton.1 ha
  exact absurd hallow (by decide)

/-! ## Malformed lists -/

/-- The descriptor is refused, or its list is looked at and a right of the mask does not pass the ACEs in
front of the damage. -/
def Refuses (mem : Nat → UInt8) (subject : Sidset) (want : Mask) : Prop :=
  mem 0 ≠ 1 ∨ sdMaxBytes < daclOffset mem ∨
    RevisionOk (listOf mem) ∧ aclSize (listOf mem) ≤ sdMaxBytes ∧
      ∃ i, want.getLsbD i = true ∧
        ((∀ a ∈ kept (listOf mem), Lets subject a → a.rights.getLsbD i = false) ∨
          ∃ a ∈ kept (listOf mem), Bars subject a ∧ a.rights.getLsbD i = true)

theorem not_passes_iff {i : Nat} (hs : aclSize acl ≤ sdMaxBytes) : ¬Passes acl subject i ↔
    (∀ a ∈ kept acl, Lets subject a → a.rights.getLsbD i = false) ∨
      ∃ a ∈ kept acl, Bars subject a ∧ a.rights.getLsbD i = true := by
  rw [Passes, or_iff_right (Nat.not_lt_of_le hs), not_and_or]
  refine or_congr ?_ ?_
  · simp only [not_exists, not_and, Bool.not_eq_true]
  · simp only [not_forall, Bool.not_eq_false, exists_prop]

/-- When a request is denied, whatever the list. -/
theorem denied_iff (hl : HasList mem) (subject : Sidset) (type : ObjectType) (desired : Mask) :
    Denied mem subject type desired ↔ Refuses mem subject (expandGeneric type desired) := by
  unfold Denied Refuses
  rw [sdRead_eq hl]
  by_cases hbad : mem 0 ≠ 1 ∨ sdMaxBytes < daclOffset mem
  · rw [if_pos hbad]
    exact iff_of_true nofun (hbad.imp_right .inl)
  · rw [if_neg hbad, ← or_assoc, or_iff_right hbad]
    simp only [Option.some.injEq, forall_eq', ne_eq, granted_iff, not_or, not_not]
    refine and_congr_right fun hr => ?_
    by_cases hs : aclSize (listOf mem) ≤ sdMaxBytes
    · rw [and_iff_right hs, not_forall]
      refine exists_congr fun i => ?_
      rw [Classical.not_imp, not_passes_iff hs]
    · refine iff_of_false (fun hn => hn fun i _ => .inl (Nat.lt_of_not_le hs)) fun h => hs h.1

/-- **When a request on a malformed list is denied.** -/
theorem malformed_denied_iff (hl : HasList mem) (_hm : Malformed (listOf mem)) (subject : Sidset)
    (type : ObjectType) {desired : Mask} (_hd : desired ≠ 0) :
    Denied mem subject type desired ↔ Refuses mem subject (expandGeneric type desired) :=
  denied_iff hl subject type desired

/-- A list that allows the right and then denies it, of a size. -/
def allowDeny (size : UInt8) : Nat → UInt8 :=
  descriptor ([2, 0, size, 0, 2, 0, 0, 0] ++ ace5 0x00 ++ ace5 0x01)

/-- Cut behind the first ACE the list still does not give the right 4. -/
theorem malformed_denied_sample : Denied (allowDeny 20) owner5 .unknown 4 := by
  have hkept : kept (listOf (allowDeny 20)) = [⟨0x00, 5, 2⟩] := by decide
  refine (malformed_denied_iff (by decide) (.inr (.inr (by decide))) owner5 .unknown (by decide)).2
    (.inr (.inr ⟨.inl (by decide), by decide, 2, by decide, .inl fun a ha _ => ?_⟩))
  rw [hkept] at ha
  obtain rfl := List.mem_singleton.1 ha
  rfl

/-- **Cut behind the first ACE the list gives the right 2**, which the whole list denies. -/
theorem cut_grants : ¬∀ (mem : Nat → UInt8) (subject : Sidset) (type : ObjectType) (desired : Mask),
    HasList mem → Malformed (listOf mem) → desired ≠ 0 → Denied mem subject type desired := fun h =>
  h (allowDeny 20) owner5 .unknown 2 (by decide) (.inr (.inr (by decide))) (by decide)
    (listView (allowDeny 20)) ((sdRead_eq (by decide)).trans (if_neg (by decide))) (by decide)

example : (accessCheck (sdRead (some (allowDeny 32))) (some owner5) .unknown 2).status = statusAccessDenied := by
  decide

end WuBuOS.Nt
