import WuBuOS.Lib.Runs
import WuBuOS.Runtime.Nt.BridgeSound
import WuBuOS.Runtime.Nt.SdCheck

/-!
# Duplicated handles

`vsl_nt_duplicate_object` makes a handle, which is bound to an object of its own with all the rights there are
for its type, and then binds it to the object of the source.  Whether that can be done nobody asks, and so
if there is no entry left for it, the duplicate keeps what it had.

`Chains` keeps beside the bridge what every handle is meant to share with the ones that it was duplicated
from.  `duplicates_contained` is about every run in which there is an entry for every duplicate of a bound
handle.
-/

namespace WuBuOS.Nt

open Cap Runs

/-! ## Runs -/

/-- A call of the bridge. -/
inductive Call
  | allocate (vslFd : BitVec 32) (styxFid : BitVec 64) (type : ObjectType)
  | bind (ntHandle : BitVec 32) (type : ObjectType) (desired : Mask)
  | duplicate (srcHandle newHandle e : BitVec 64)
  | revoke (ntHandle : BitVec 32)
  | free (ntHandle : BitVec 32)

/-- The bridge, the object that each record shares with the ones it was duplicated from, and the shared objects
that have been revoked. -/
structure Chains where
  bridge : Bridge
  shares : Nat → Option Nat
  revoked : List Nat

/-- The object that the record is bound to. -/
def HandleRecord.object (entry : HandleRecord) : Option Nat :=
  if entry.capBacked then some entry.capToken.idx else none

/-- The bridge after a call, and what a record shares, if the call was about one. -/
def Chains.put (c : Chains) (b : Bridge) (i : Option Nat) (o : Nat → Option Nat) : Chains :=
  match i with
  | none => { c with bridge := b }
  | some i => { c with bridge := b, shares := Function.update c.shares i (o i) }

/-- What a call does.  A handle that is bound shares its object with its duplicates from then on, and a
duplicate shares what its source does, or if that is nothing, what it is bound to itself. -/
def Chains.next (c : Chains) : Call → Chains
  | .allocate vslFd styxFid type =>
    let (h, b) := allocateHandle c.bridge vslFd styxFid type
    c.put b (capIndexOf b h) fun i => (b.handleTable i).object
  | .bind ntHandle type desired =>
    let b := (capBind c.bridge ntHandle type desired).2
    c.put b (capIndexOf c.bridge ntHandle) fun i => c.shares i <|> (b.handleTable i).object
  | .duplicate srcHandle newHandle e =>
    let ((_, d), b) := duplicateObject c.bridge srcHandle newHandle e
    let source := (capIndexOf c.bridge (srcHandle.setWidth 32)).bind c.shares
    c.put b (d.bind (capIndexOf b)) fun j => source <|> (b.handleTable j).object
  | .revoke ntHandle =>
    let (ok, b) := capRevokeNt c.bridge ntHandle
    let shared := (capIndexOf c.bridge ntHandle).bind c.shares
    { c with bridge := b, revoked := if ok then shared.toList ++ c.revoked else c.revoked }
  | .free ntHandle =>
    c.put (freeHandle c.bridge ntHandle).2 (capIndexOf c.bridge ntHandle) fun _ => none

/-- There are no handles yet. -/
def Chains.start (pid : BitVec 32) (r : Registry) : Chains := ⟨bridgeInit pid r, fun _ => none, []⟩

/-! ## What is promised -/

/-- What a new duplicate is authorised for, its source is. -/
def Contained (c : Chains) : Call → Prop
  | .duplicate srcHandle newHandle e => ∀ d b,
    duplicateObject c.bridge srcHandle newHandle e = ((statusSuccess, some d), b) →
      ∀ m, capAuthorize b d m = statusSuccess → capAuthorize b (srcHandle.setWidth 32) m = statusSuccess
  | _ => True

/-- A handle that shares a revoked object is not authorised for anything. -/
def Severed (c : Chains) : Prop :=
  ∀ h i, capIndexOf c.bridge h = some i → ∀ o ∈ c.shares i, o ∈ c.revoked →
    ∀ m, capAuthorize c.bridge h m ≠ statusSuccess

/-- If the source is bound, then once the duplicate has a handle, there is an entry for it to share. -/
def RoomToShare (c : Chains) : Call → Prop
  | .duplicate srcHandle newHandle _ => newHandle ≠ 0 → ∀ i ∈ capIndexOf c.bridge (srcHandle.setWidth 32),
    let src := c.bridge.handleTable i
    src.capBacked = true → (allocateHandle c.bridge src.vslFd src.data src.type).1 ≠ 0 →
      (allocateHandle c.bridge src.vslFd src.data src.type).2.HasRoom
  | _ => True

instance (c : Chains) : ∀ call : Call, Decidable (RoomToShare c call)
  | .duplicate .. => inferInstanceAs (Decidable (_ → ∀ i ∈ _, _ → _ → _))
  | .allocate .. => isTrue trivial
  | .bind .. => isTrue trivial
  | .revoke .. => isTrue trivial
  | .free .. => isTrue trivial

/-! ## Duplicating -/

variable {b b' : Bridge} {i di si : Nat} {src dst d : BitVec 32} {desired m : Mask} {c : Chains}

/-- **`vsl_nt_cap_alias_reduced`.** -/
theorem capAliasReduced_spec (hs : b.Sound) (hsi : capIndexOf b src = some si) (hdi : capIndexOf b dst = some di)
    (hroom : (b.handleTable si).capBacked = true → b.HasRoom) (desired : Mask) :
    let b' := (capAliasReduced b src dst desired).2
    b'.Sound ∧ Frame b b' di ∧ SameHandle (b.handleTable di) (b'.handleTable di) ∧
      ((b.handleTable si).capBacked = true → (b'.handleTable di).capBacked = true ∧
        (b'.handleTable di).capToken = (b.handleTable si).capToken ∧
        ∀ w, (b'.handleTable di).capRights &&& w = w → (b.handleTable si).capRights &&& w = w) := by
  obtain ⟨hno, hyes⟩ := capAlias_spec hs hsi hdi hroom
  unfold capAliasReduced
  cases hb : (b.handleTable si).capBacked with
  | false =>
    rw [hno hb]
    exact ⟨hs, .refl b di, .refl _, nofun⟩
  | true =>
    obtain ⟨hok, hs', hframe, slot, hself⟩ := hyes hb
    rcases halias : capAlias b src dst with ⟨ok, b'⟩
    rw [halias] at hok hs' hframe hself
    subst hok
    obtain ⟨-, hv, hnt⟩ := capIndexOf_spec hdi
    have hfind : capIndexOf b' dst = some di := by
      have hf := hs'.indexOf (i := di) (by rw [hself]; exact hv)
      rwa [hself, hnt] at hf
    dsimp only
    rw [hfind]
    dsimp only
    split
    · dsimp only
      refine ⟨hs'.set (hs'.numbered di) (hs'.unused di) fun hbd => ⟨hs'.backed di hbd, fun j hj hbj =>
        hs'.apart j di hj hbj hbd⟩, hframe.trans (.set ..), ?_, fun _ => ?_⟩
      · rw [Bridge.set_self, hself]
        exact ⟨rfl, rfl, rfl⟩
      · rw [Bridge.set_self, hself]
        refine ⟨rfl, rfl, fun w hw => and_eq_right_iff.2 fun k hk => ?_⟩
        have hbit := and_eq_right_iff.1 hw k hk
        rw [BitVec.getLsbD_and, Bool.and_eq_true] at hbit
        exact hbit.1
    · refine ⟨hs', hframe, ?_, fun _ => ?_⟩
      · rw [hself]
        exact ⟨rfl, rfl, rfl⟩
      · rw [hself]
        exact ⟨rfl, rfl, fun _ => id⟩

/-- **What `vsl_nt_duplicate_object` does**: nothing, or it makes a handle of the type of the source, for its
object if it has one. -/
theorem duplicateObject_spec (hs : c.bridge.Sound) (srcHandle newHandle e : BitVec 64)
    (hroom : RoomToShare c (.duplicate srcHandle newHandle e)) :
    (∃ st, duplicateObject c.bridge srcHandle newHandle e = ((st, none), c.bridge)) ∨
      ∃ si di d b', duplicateObject c.bridge srcHandle newHandle e = ((statusSuccess, some d), b') ∧
        capIndexOf c.bridge (srcHandle.setWidth 32) = some si ∧ capIndexOf b' d = some di ∧ si ≠ di ∧
        b'.Sound ∧ Frame c.bridge b' di ∧
        (b'.handleTable di).type = (c.bridge.handleTable si).type ∧
        ((c.bridge.handleTable si).capBacked = true → (b'.handleTable di).capBacked = true ∧
          (b'.handleTable di).capToken = (c.bridge.handleTable si).capToken ∧
          ∀ w, (b'.handleTable di).capRights &&& w = w → (c.bridge.handleTable si).capRights &&& w = w) := by
  unfold duplicateObject
  split
  · exact .inl ⟨_, rfl⟩
  rename_i hnew
  split
  · exact .inl ⟨_, rfl⟩
  rename_i si hsi
  obtain ⟨-, hv, hnt⟩ := capIndexOf_spec hsi
  have hroom := hroom hnew si hsi
  dsimp only at hroom ⊢
  obtain ⟨hs1, hcases⟩ := allocateHandle_spec hs (c.bridge.handleTable si).vslFd (c.bridge.handleTable si).data
    (c.bridge.handleTable si).type
  generalize allocateHandle c.bridge (c.bridge.handleTable si).vslFd (c.bridge.handleTable si).data
    (c.bridge.handleTable si).type = res at hroom hs1 hcases ⊢
  obtain ⟨h, b1⟩ := res
  dsimp only at hroom hs1 hcases ⊢
  obtain ⟨hzero, rfl⟩ | ⟨di, hfree, hframe, hfind, htype⟩ := hcases
  · rw [if_pos hzero]
    exact .inl ⟨_, rfl⟩
  have hne : si ≠ di := by
    rintro rfl
    exact absurd (hv.symm.trans hfree) nofun
  have hpos : h ≠ 0 := by
    obtain ⟨hlt, hv1, rfl⟩ := capIndexOf_spec hfind
    rw [(hs1.numbered di hv1).2]
    exact handle_ne_zero hlt
  rw [if_neg hpos]
  have hsi1 : capIndexOf b1 (srcHandle.setWidth 32) = some si := by
    have hf := hs1.indexOf (i := si) (by rw [hframe.others si hne]; exact hv)
    rwa [hframe.others si hne, hnt] at hf
  obtain ⟨hs2, hframe2, hsame, hshare⟩ := capAliasReduced_spec hs1 hsi1 hfind
    (fun hb => hroom (by rwa [hframe.others si hne] at hb) hpos) (e.setWidth 32)
  rw [hframe.others si hne] at hshare
  generalize (capAliasReduced b1 (srcHandle.setWidth 32) h (e.setWidth 32)).2 = b2 at hs2 hframe2 hsame hshare ⊢
  refine .inr ⟨si, di, h, b2, rfl, hsi, ?_, hne, hs2, hframe.trans hframe2, hsame.2.2.trans htype, hshare⟩
  obtain ⟨-, hv1, hnt1⟩ := capIndexOf_spec hfind
  have hf := hs2.indexOf (i := di) (hsame.1.trans hv1)
  rwa [hsame.2.1, hnt1] at hf

/-! ## The invariant -/

/-- **What holds in every run**: every handle shares the object that it is bound to, and the objects that
have been revoked are. -/
structure Chains.Linked (c : Chains) : Prop where
  sound : c.bridge.Sound
  shares : ∀ i, (c.bridge.handleTable i).valid = true → c.shares i = (c.bridge.handleTable i).object
  revoked : ∀ o ∈ c.revoked, Dead c.bridge.reg o

theorem bridgeInit_sound (pid : BitVec 32) (r : Registry) : (bridgeInit pid r).Sound where
  tables t ht := by
    have hcreate : wubuCapHandleTableCreate (wubuCapInit r) =
        (some t, (wubuCapHandleTableCreate (wubuCapInit r)).2) := Prod.ext ht rfl
    exact wubuCapHandleTableCreate_ok hcreate
  numbered _ := nofun
  unused _ _ := rfl
  backed _ := nofun
  apart _ _ _ := nofun

theorem Chains.linked_start (pid : BitVec 32) (r : Registry) : (Chains.start pid r).Linked :=
  ⟨bridgeInit_sound pid r, fun _ => nofun, nofun⟩

/-- A call that is about one record. -/
theorem Chains.Linked.put (hl : c.Linked) (hs : b'.Sound) (hf : Frame c.bridge b' i) {o : Nat → Option Nat}
    (ho : (b'.handleTable i).valid = true → o i = (b'.handleTable i).object) : (c.put b' (some i) o).Linked where
  sound := hs
  shares j hj := by
    change (b'.handleTable j).valid = true at hj
    show Function.update c.shares i (o i) j = (b'.handleTable j).object
    rcases eq_or_ne j i with rfl | hne
    · rw [Function.update_self]
      exact ho hj
    · rw [Function.update_of_ne hne, hf.others j hne]
      rw [hf.others j hne] at hj
      exact hl.shares j hj
  revoked o ho := hf.dead o (hl.revoked o ho)

theorem object_of_backed {entry : HandleRecord} (h : entry.capBacked = true) : entry.object = some entry.capToken.idx :=
  if_pos h

theorem object_of_unbacked {entry : HandleRecord} (h : entry.capBacked = false) : entry.object = none :=
  if_neg (h ▸ Bool.false_ne_true)

/-- Nothing is found under the handle that is none. -/
theorem Bridge.Sound.capIndexOf_zero (hs : b.Sound) : capIndexOf b 0 = none := by
  cases hf : capIndexOf b 0 with
  | none => rfl
  | some j =>
    obtain ⟨hlt, hv, he⟩ := capIndexOf_spec hf
    rw [(hs.numbered j hv).2] at he
    exact absurd he (handle_ne_zero hlt)

theorem Chains.Linked.allocate (hl : c.Linked) (vslFd : BitVec 32) (styxFid : BitVec 64) (type : ObjectType) :
    (c.next (.allocate vslFd styxFid type)).Linked := by
  unfold Chains.next
  dsimp only
  obtain ⟨hs, ⟨hz, hb⟩ | ⟨i, -, hframe, hfind, -⟩⟩ := allocateHandle_spec hl.sound vslFd styxFid type
  · rw [hz, hs.capIndexOf_zero, hb]
    exact hl
  · rw [hfind]
    exact hl.put hs hframe fun _ => rfl

theorem Chains.Linked.bind (hl : c.Linked) (ntHandle : BitVec 32) (type : ObjectType) (desired : Mask) :
    (c.next (.bind ntHandle type desired)).Linked := by
  obtain ⟨hs, hnone, hsome⟩ := capBind_spec hl.sound ntHandle type desired
  unfold Chains.next
  dsimp only
  cases hf : capIndexOf c.bridge ntHandle with
  | none =>
    rw [hnone hf]
    exact hl
  | some i =>
    obtain ⟨hframe, hsame, hstay⟩ := hsome i hf
    have hshares := hl.shares i (capIndexOf_spec hf).2.1
    refine hl.put hs hframe fun hv => ?_
    cases hb : (c.bridge.handleTable i).capBacked with
    | true => rw [hshares, hstay hb, object_of_backed hb]; rfl
    | false => rw [hshares, object_of_unbacked hb]; rfl

theorem Chains.Linked.duplicate (hl : c.Linked) {srcHandle newHandle e : BitVec 64}
    (hroom : RoomToShare c (.duplicate srcHandle newHandle e)) : (c.next (.duplicate srcHandle newHandle e)).Linked := by
  unfold Chains.next
  dsimp only
  obtain ⟨st, hd⟩ | ⟨si, di, d, b', hd, hsi, hdi, -, hs, hframe, -, hshare⟩ :=
    duplicateObject_spec hl.sound srcHandle newHandle e hroom
  · rw [hd]
    exact hl
  · rw [hd]
    rw [hsi, Option.bind_some, Option.bind_some, hdi]
    have hshares := hl.shares si (capIndexOf_spec hsi).2.1
    refine hl.put hs hframe fun _ => ?_
    cases hb : (c.bridge.handleTable si).capBacked with
    | true =>
      obtain ⟨hbd, htok, -⟩ := hshare hb
      rw [hshares, object_of_backed hb, object_of_backed hbd, htok]
      rfl
    | false => rw [hshares, object_of_unbacked hb]; rfl

theorem Chains.Linked.revoke (hl : c.Linked) (ntHandle : BitVec 32) : (c.next (.revoke ntHandle)).Linked := by
  obtain ⟨⟨r, hb, hdead⟩, hok⟩ := capRevokeNt_spec hl.sound ntHandle
  unfold Chains.next
  dsimp only
  generalize capRevokeNt c.bridge ntHandle = res at hb hok ⊢
  obtain ⟨ok, b'⟩ := res
  subst hb
  refine ⟨hl.sound.grows (grows_reg hl.sound.tables hdead), hl.shares, fun o ho => ?_⟩
  change o ∈ (if ok = true then _ else _) at ho
  split at ho
  · rename_i hyes
    obtain ⟨i, hi, hback, hgone⟩ := hok hyes
    rw [hi, Option.bind_some, hl.shares i (capIndexOf_spec hi).2.1, object_of_backed hback] at ho
    rcases List.mem_append.1 ho with ho | ho
    · obtain rfl := List.mem_singleton.1 ho
      exact hgone
    · exact hdead o (hl.revoked o ho)
  · exact hdead o (hl.revoked o ho)

theorem Chains.Linked.free (hl : c.Linked) (ntHandle : BitVec 32) : (c.next (.free ntHandle)).Linked := by
  obtain ⟨hs, hnone, hsome⟩ := freeHandle_spec hl.sound ntHandle
  unfold Chains.next
  dsimp only
  cases hf : capIndexOf c.bridge ntHandle with
  | none =>
    rw [hnone hf]
    exact hl
  | some i =>
    obtain ⟨hframe, hgone⟩ := hsome i hf
    exact hl.put hs hframe fun hv => absurd (hv.symm.trans hgone) nofun

theorem Chains.Linked.next (hl : c.Linked) (call : Call) (hroom : RoomToShare c call) : (c.next call).Linked := by
  cases call with
  | allocate vslFd styxFid type => exact hl.allocate vslFd styxFid type
  | bind ntHandle type desired => exact hl.bind ntHandle type desired
  | duplicate srcHandle newHandle e => exact hl.duplicate hroom
  | revoke ntHandle => exact hl.revoke ntHandle
  | free ntHandle => exact hl.free ntHandle

/-! ## Runs in which there is room -/

theorem Chains.Linked.contained (hl : c.Linked) (call : Call) (hroom : RoomToShare c call) : Contained c call := by
  cases call with
  | duplicate srcHandle newHandle e =>
    intro d b' hd m hauth
    obtain ⟨st, hd'⟩ | ⟨si, di, d', b'', hd', hsi, hdi, hne, hs, hframe, htype, hshare⟩ :=
      duplicateObject_spec hl.sound srcHandle newHandle e hroom
    · cases hd.symm.trans hd'
    obtain ⟨⟨-, rfl⟩, rfl⟩ : (statusSuccess = statusSuccess ∧ d' = d) ∧ b'' = b' := by
      have heq := hd'.symm.trans hd
      simpa using heq
    obtain ⟨-, hv, hnt⟩ := capIndexOf_spec hsi
    have hfind : capIndexOf b'' (srcHandle.setWidth 32) = some si := by
      have hf := hs.indexOf (i := si) (by rw [hframe.others si hne]; exact hv)
      rwa [hframe.others si hne, hnt] at hf
    cases hb : (c.bridge.handleTable si).capBacked with
    | false => exact authorize_unbacked hfind (by rw [hframe.others si hne]; exact hb)
    | true =>
      obtain ⟨hbd, htok, hrights⟩ := hshare hb
      rw [authorize_iff hs hdi hbd, htype, htok] at hauth
      rw [authorize_iff hs hfind (by rw [hframe.others si hne]; exact hb), hframe.others si hne]
      exact ⟨hauth.1, hrights _ hauth.2⟩
  | _ => trivial

theorem Chains.Linked.severed (hl : c.Linked) : Severed c := by
  intro h i hf o ho hrev m hauth
  rw [hl.shares i (capIndexOf_spec hf).2.1] at ho
  cases hb : (c.bridge.handleTable i).capBacked with
  | false =>
    rw [object_of_unbacked hb] at ho
    cases ho
  | true =>
    rw [object_of_backed hb] at ho
    cases ho
    exact (hl.revoked _ hrev).not_reaches ((authorize_iff hl.sound hf hb).1 hauth).1

/-- **A run in which there is an entry for every duplicate**: no duplicate is authorised for more than its
source, and no handle for anything once the object that it shares is revoked. -/
theorem duplicates_contained (pid : BitVec 32) (r : Registry) (calls : List Call)
    (hroom : Each Chains.next RoomToShare (Chains.start pid r) calls) :
    Each Chains.next Contained (Chains.start pid r) calls ∧ Severed (calls.foldl Chains.next (Chains.start pid r)) := by
  have hnext := fun (c : Chains) call (hl : c.Linked) => hl.next call
  exact ⟨Each.steps Chains.Linked hnext (fun _ call hl => hl.contained call) _ _ (Chains.linked_start pid r) hroom,
    (Each.invariant Chains.Linked hnext _ _ (Chains.linked_start pid r) hroom).severed⟩

/-- A file, a duplicate of it that may read, one of that, and the end of all three. -/
def chain : List Call :=
  [.allocate 3 0 .file, .duplicate 0x1000 1 0x80000000, .duplicate 0x1001 1 0, .revoke 0x1000]

theorem duplicates_contained_chain : Each Chains.next Contained (Chains.start 7 (.empty fun _ => true)) chain ∧
      Severed (chain.foldl Chains.next (Chains.start 7 (.empty fun _ => true))) :=
  duplicates_contained 7 (.empty fun _ => true) chain (by decide +kernel)

/-- The table has no entry left and cannot grow, and then a file is duplicated and revoked. -/
def crowded : List Call := List.replicate 15 (.allocate 3 0 .file) ++ [.duplicate 0x1000 1 0, .revoke 0x1000]

/-- **A duplicate for which there is no entry outlives the object.** -/
theorem crowded_outlives : ¬∀ (pid : BitVec 32) (r : Registry) (calls : List Call),
    Each Chains.next Contained (Chains.start pid r) calls ∧
      Severed (calls.foldl Chains.next (Chains.start pid r)) := fun h =>
  have hrun : let c := crowded.foldl Chains.next (Chains.start 7 (.empty (· < 33)))
      capIndexOf c.bridge 0x100F = some 15 ∧ 1 ∈ c.shares 15 ∧ 1 ∈ c.revoked ∧
        capAuthorize c.bridge 0x100F 2 = statusSuccess := by decide +kernel
  (h 7 (.empty (· < 33)) crowded).2 0x100F 15 hrun.1 1 hrun.2.1 hrun.2.2.1 2 hrun.2.2.2

end WuBuOS.Nt
