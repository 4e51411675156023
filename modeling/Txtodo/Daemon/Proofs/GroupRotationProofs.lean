import Txtodo.Daemon.GroupRotation
import Mathlib.Tactic.Common
import Mathlib.Data.List.Forall2
import Mathlib.Data.List.MinMax

/-!
# Group key rotation: agreement and removals

Invariants of a device over every run of a group, and what the rotations of a run leave of the removed devices.
-/

namespace Txtodo.GroupRotation

variable {C : Crypto}

namespace DeviceIdentity

variable {i i' : DeviceIdentity C} {peer x d sender minter target : DeviceId} {epoch : Nat} {key : C.Key}

/-! ## Rows -/

theorem row_updateRow (i : DeviceIdentity C) (peer : DeviceId) (f : DeviceRow C → DeviceRow C)
    (hf : ∀ r, (f r).device = r.device) (x : DeviceId) :
    (i.updateRow peer f).row x = (i.row x).map fun r => if x = peer then f r else r := by
  have hsame : ((fun r : DeviceRow C => decide (r.device = x)) ∘ fun r => if r.device = peer then f r else r) =
      fun r => decide (r.device = x) := by
    funext r
    by_cases h : r.device = peer <;> simp [h, hf]
  rw [row, updateRow, List.find?_map, hsame, ← row]
  cases hrow : i.row x with
  | none => rfl
  | some r =>
    have hx : r.device = x := by simpa using List.find?_some hrow
    rw [Option.map_some, Option.map_some, hx]

theorem row_removeRow (i : DeviceIdentity C) (peer : DeviceId) (atMs : Nat) (x : DeviceId) :
    (i.removeRow peer atMs).row x =
      (i.row x).map fun r => if x = peer then { r with removedAtMs := some atMs } else r :=
  row_updateRow i peer (fun r => { r with removedAtMs := some atMs }) (fun _ => rfl) x

theorem row_setDeviceKeyEpoch (i : DeviceIdentity C) (peer : DeviceId) (epoch : Nat) (x : DeviceId) :
    (i.setDeviceKeyEpoch peer epoch).row x =
      (i.row x).map fun r => if x = peer then { r with keyEpoch := epoch } else r :=
  row_updateRow i peer (fun r => { r with keyEpoch := epoch }) (fun _ => rfl) x

/-- Where a row is removed the device is no longer active; all others are as before. -/
theorem active_removeRow (i : DeviceIdentity C) (peer : DeviceId) (atMs : Nat) (x : DeviceId) :
    (i.removeRow peer atMs).active x = (i.active x && decide (x ≠ peer)) := by
  rw [active, row_removeRow, active]
  cases i.row x with
  | none => rfl
  | some r => by_cases h : x = peer <;> simp [h]

@[simp] theorem active_setDeviceKeyEpoch (i : DeviceIdentity C) (peer : DeviceId) (epoch : Nat)
    (x : DeviceId) : (i.setDeviceKeyEpoch peer epoch).active x = i.active x := by
  rw [active, row_setDeviceKeyEpoch, active]
  cases i.row x with
  | none => rfl
  | some r => by_cases h : x = peer <;> simp [h]

@[simp] theorem active_writeRemovalWhy (i : DeviceIdentity C) (peer : DeviceId) (removal : Removal)
    (x : DeviceId) : (i.writeRemovalWhy peer removal).active x = i.active x := rfl

@[simp] theorem active_fileKey (i : DeviceIdentity C) (epoch : Nat) (key : C.Key) (info : EpochInfo)
    (x : DeviceId) : (i.fileKey epoch key info).active x = i.active x := rfl

/-- A peer that is active is not one this device removed. -/
theorem isRemoved_of_active (h : i.active peer = true) : i.isRemoved peer = false := by
  rw [active] at h
  rw [isRemoved]
  cases hrow : i.row peer with
  | none => rfl
  | some r =>
    rw [hrow] at h
    simpa using h

theorem exists_row_of_active (h : i.active peer = true) :
    ∃ r, i.row peer = some r ∧ r.removedAtMs = none := by
  rw [active] at h
  cases hrow : i.row peer with
  | none =>
    rw [hrow] at h
    cases h
  | some r =>
    rw [hrow] at h
    exact ⟨r, rfl, by simpa using h⟩

/-! ## What an operation leaves as it was -/

/-- What only files or rewrites rows: the device itself, its secret and its peers' static keys stay. -/
structure Rewrites (i i' : DeviceIdentity C) : Prop where
  device : i'.device = i.device
  deviceStatic : i'.deviceStatic = i.deviceStatic
  statics : ∀ x, (i'.row x).map DeviceRow.staticPublic = (i.row x).map DeviceRow.staticPublic

theorem Rewrites.refl (i : DeviceIdentity C) : Rewrites i i := ⟨rfl, rfl, fun _ => rfl⟩

theorem Rewrites.trans {i'' : DeviceIdentity C} (h : Rewrites i i') (h' : Rewrites i' i'') : Rewrites i i'' :=
  ⟨h'.device.trans h.device, h'.deviceStatic.trans h.deviceStatic, fun x => (h'.statics x).trans (h.statics x)⟩

theorem rewrites_removeRow (i : DeviceIdentity C) (peer : DeviceId) (atMs : Nat) :
    Rewrites i (i.removeRow peer atMs) := by
  refine ⟨rfl, rfl, fun x => ?_⟩
  rw [row_removeRow, Option.map_map]
  congr 1
  funext r
  by_cases h : x = peer <;> simp [h]

theorem rewrites_dropFollowed (i : DeviceIdentity C) (dropped minter : DeviceId) (nowMs : Nat) :
    Rewrites i (i.dropFollowed dropped minter nowMs) := by
  rw [dropFollowed]
  split
  · have h := rewrites_removeRow i dropped nowMs
    exact ⟨h.device, h.deviceStatic, h.statics⟩
  · exact .refl i

/-- What noting a peer's epoch leaves: all but the epochs in the rows. -/
structure Notes (i i' : DeviceIdentity C) : Prop where
  device : i'.device = i.device
  deviceStatic : i'.deviceStatic = i.deviceStatic
  groupEpoch : i'.groupEpoch = i.groupEpoch
  keyStore : i'.keyStore = i.keyStore
  epochInfo : i'.epochInfo = i.epochInfo
  rows : ∀ x, (i'.row x).map (fun r => (r.staticPublic, r.removedAtMs)) =
    (i.row x).map fun r => (r.staticPublic, r.removedAtMs)

theorem Notes.refl (i : DeviceIdentity C) : Notes i i := ⟨rfl, rfl, rfl, rfl, rfl, fun _ => rfl⟩

theorem Notes.trans {i'' : DeviceIdentity C} (h : Notes i i') (h' : Notes i' i'') : Notes i i'' where
  device := h'.device.trans h.device
  deviceStatic := h'.deviceStatic.trans h.deviceStatic
  groupEpoch := h'.groupEpoch.trans h.groupEpoch
  keyStore := h'.keyStore.trans h.keyStore
  epochInfo := h'.epochInfo.trans h.epochInfo
  rows x := (h'.rows x).trans (h.rows x)

theorem Notes.active_eq (h : Notes i i') (x : DeviceId) : i'.active x = i.active x := by
  have hrow := congrArg (fun o => o.any fun r => r.2.isNone) (h.rows x)
  simpa [active, Option.any_map, Function.comp_def] using hrow

theorem Notes.rewrites (h : Notes i i') : Rewrites i i' := by
  refine ⟨h.device, h.deviceStatic, fun x => ?_⟩
  have hrow := congrArg (fun o => o.map Prod.fst) (h.rows x)
  simpa [Option.map_map, Function.comp_def] using hrow

theorem notes_setDeviceKeyEpoch (i : DeviceIdentity C) (peer : DeviceId) (epoch : Nat) :
    Notes i (i.setDeviceKeyEpoch peer epoch) := by
  refine ⟨rfl, rfl, rfl, rfl, rfl, fun x => ?_⟩
  rw [row_setDeviceKeyEpoch, Option.map_map]
  congr 1
  funext r
  by_cases h : x = peer <;> simp [h]

theorem notes_notePeerEpoch (i : DeviceIdentity C) (peer : DeviceId) (epoch : Nat) :
    Notes i (i.notePeerEpoch peer epoch) := by
  rw [notePeerEpoch]
  split
  · exact .refl i
  · split
    · exact notes_setDeviceKeyEpoch i peer epoch
    · exact .refl i

theorem Notes.grantChain_eq (h : Notes i i') (nonce : Nat → C.Nonce) (peer : DeviceId) (recipient : C.Public)
    (n epoch : Nat) : i'.grantChain nonce peer recipient n epoch = i.grantChain nonce peer recipient n epoch := by
  induction n generalizing epoch with
  | zero => rfl
  | succ n ih => rw [grantChain, grantChain, h.device, h.epochInfo, h.keyStore, ih]

/-! ## Grants in -/

/-- After the drops of a grant the devices dropped are not active; the keys and records are as before. -/
theorem foldl_dropFollowed (minter : DeviceId) (nowMs : Nat) (l : List DeviceId) (i : DeviceIdentity C) :
    let i' := l.foldl (fun i d => i.dropFollowed d minter nowMs) i
    Rewrites i i' ∧ i'.groupEpoch = i.groupEpoch ∧ i'.keyStore = i.keyStore ∧ i'.epochInfo = i.epochInfo ∧
      ∀ x, i'.active x = (i.active x && decide (x ∉ l)) := by
  induction l generalizing i with
  | nil => exact ⟨.refl i, rfl, rfl, rfl, fun x => by simp⟩
  | cons d l ih =>
    obtain ⟨hrewrites, hepoch, hkeys, hinfo, hactive⟩ := ih (i.dropFollowed d minter nowMs)
    have hdrop : (i.dropFollowed d minter nowMs).groupEpoch = i.groupEpoch ∧
        (i.dropFollowed d minter nowMs).keyStore = i.keyStore ∧
        (i.dropFollowed d minter nowMs).epochInfo = i.epochInfo ∧
        ∀ x, (i.dropFollowed d minter nowMs).active x = (i.active x && decide (x ≠ d)) := by
      rw [dropFollowed]
      split
      · exact ⟨rfl, rfl, rfl, fun x => active_removeRow i d nowMs x⟩
      · rename_i hactive
        refine ⟨rfl, rfl, rfl, fun x => ?_⟩
        by_cases hx : x = d
        · rw [hx]
          simpa using hactive
        · simp [hx]
    refine ⟨(rewrites_dropFollowed i d minter nowMs).trans hrewrites, hepoch.trans hdrop.1,
      hkeys.trans hdrop.2.1, hinfo.trans hdrop.2.2.1, fun x => ?_⟩
    rw [List.foldl_cons, hactive, hdrop.2.2.2, Bool.and_assoc]
    congr 1
    simp [List.mem_cons]

/-- What adopting a grant does: the key and the record at its epoch, which is now the current one, and the
devices it leaves out no longer active. -/
theorem adopt_spec (i : DeviceIdentity C) (sender minter : DeviceId) (epoch : Nat) (key : C.Key)
    (leftOut : List DeviceId) (nowMs : Nat) :
    let i' := i.adopt sender minter epoch key leftOut nowMs
    Rewrites i i' ∧ i'.groupEpoch = epoch ∧ i'.keyStore = Function.update i.keyStore epoch (some key) ∧
      i'.epochInfo = Function.update i.epochInfo epoch (some ⟨minter, leftOut.take MAX_LEFT_OUT⟩) ∧
      ∀ x, i'.active x = (i.active x && !decide (x ∈ leftOut ∧ x ≠ i.device ∧ x ≠ sender)) := by
  obtain ⟨hrewrites, hepoch, hkeys, hinfo, hactive⟩ := foldl_dropFollowed minter nowMs
    (leftOut.filter fun d => d ≠ i.device ∧ d ≠ sender) (i.fileKey epoch key ⟨minter, leftOut⟩)
  have hfiled : Rewrites i (i.fileKey epoch key ⟨minter, leftOut⟩) := ⟨rfl, rfl, fun _ => rfl⟩
  refine ⟨(hfiled.trans hrewrites).trans (notes_setDeviceKeyEpoch _ sender epoch).rewrites, hepoch, hkeys, hinfo,
    fun x => ?_⟩
  rw [adopt, active_setDeviceKeyEpoch, hactive, active_fileKey]
  simp [List.mem_filter]

theorem decideGrant_adopt {current : Nat} {mine : Option DeviceId}
    (h : decideGrant current epoch mine minter = .adopt) : epoch = current + 1 ∨ epoch = current := by
  unfold decideGrant at h
  split at h
  · cases h
  · split at h
    · exact .inl ‹_›
    · split at h
      · cases h
      · exact .inr (by omega)

/-- A grant either changes nothing or is adopted, at the current epoch or the next. -/
theorem applyGrant_cases (i : DeviceIdentity C) (msg : ControlMessage C.Wrapped) (nowMs : Nat) :
    (i.applyGrant msg nowMs).2 = i ∨
      ∃ sender minter epoch wrapped leftOut key, msg = .grant sender minter epoch wrapped leftOut ∧
        (epoch = i.groupEpoch + 1 ∨ epoch = i.groupEpoch) ∧ C.openGrant wrapped epoch i.deviceStatic = some key ∧
        (i.applyGrant msg nowMs).2 = i.adopt sender minter epoch key leftOut nowMs := by
  cases msg with
  | grant sender minter epoch wrapped leftOut =>
    rw [applyGrant]
    split
    · split
      · exact .inl rfl
      · exact .inl rfl
      · rename_i hadopt
        split
        · exact .inl rfl
        · rename_i key hopen
          exact .inr ⟨sender, minter, epoch, wrapped, leftOut, key, rfl, decideGrant_adopt hadopt, hopen, rfl⟩
    · exact .inl rfl
  | _ => exact .inl rfl

/-! ## Removals -/

/-- A removal that rotates moves to the next epoch, records the target as left out and tombstones its row,
which was active. -/
theorem removeDeviceBecause_rotated {nowMs grants : Nat} {why : Why}
    (h : i.removeDeviceBecause target nowMs why key = (.ok ⟨true, false, epoch, grants⟩, i')) :
    epoch = i.groupEpoch + 1 ∧ target ≠ i.device ∧ i.active target = true ∧
      i' = ((i.fileKey epoch key ⟨i.device, [target]⟩).removeRow target nowMs).writeRemovalWhy target
        ⟨why, i.device⟩ := by
  unfold removeDeviceBecause at h
  dsimp only at h
  split at h
  · cases h
  · rename_i hvalid
    have hself : target ≠ i.device := by
      intro hself
      rw [validateRemoval, if_pos hself] at hvalid
      cases hvalid
    split at h
    · cases h
    · rename_i r hrow
      split at h
      · cases h
      · rename_i hremoved
        split at h
        · cases h
        · rename_i newEpoch minted hplan
          rw [planNextEpoch] at hplan
          split at hplan
          · cases hplan
          · cases hplan
            cases h
            refine ⟨rfl, hself, ?_, rfl⟩
            rw [active, hrow]
            simpa using hremoved

/-! ## Grants out -/

/-- A grant of a chain is of one of its epochs, wraps that epoch's key and names its record, which the peer is
not left out by. -/
theorem mem_grantChain {nonce : Nat → C.Nonce} {recipient : C.Public} {g : OutGrant C} {n : Nat}
    (h : g ∈ i.grantChain nonce peer recipient n epoch) :
    ∃ e key info, epoch ≤ e ∧ e < epoch + n ∧ i.keyStore e = some key ∧
      info = (i.epochInfo e).getD ⟨i.device, []⟩ ∧ peer ∉ info.leftOut ∧
      g = ⟨e - 1, .grant i.device info.minter e (C.wrapGrantFor (nonce e) key e recipient) info.leftOut⟩ := by
  induction n generalizing epoch with
  | zero => cases h
  | succ n ih =>
    rw [grantChain] at h
    split at h
    · cases h
    · rename_i hkept
      split at h
      · cases h
      · rename_i key hkey
        rcases List.mem_cons.1 h with rfl | h
        · exact ⟨epoch, key, _, le_rfl, by omega, hkey, rfl, hkept, rfl⟩
        · obtain ⟨e, key, info, hlow, hhigh, rest⟩ := ih h
          exact ⟨e, key, info, by omega, by omega, rest⟩

/-- Grants are made for active peers only. -/
theorem mem_grantsFor {nonce : Nat → C.Nonce} {peerEpoch : Nat} {g : OutGrant C}
    (h : g ∈ i.grantsFor nonce peer peerEpoch) :
    ∃ r, i.row peer = some r ∧ r.removedAtMs = none ∧ peerEpoch < i.groupEpoch ∧
      g ∈ i.grantChain nonce peer r.staticPublic (i.groupEpoch - peerEpoch) (peerEpoch + 1) := by
  rw [grantsFor] at h
  split at h
  · cases h
  · rename_i hbehind
    split at h
    · cases h
    · rename_i r hrow
      split at h
      · cases h
      · rename_i hactive
        exact ⟨r, hrow, by simpa using hactive, by omega, h⟩

theorem Notes.grantsFor_eq (h : Notes i i') (nonce : Nat → C.Nonce) (peer : DeviceId) (peerEpoch : Nat) :
    i'.grantsFor nonce peer peerEpoch = i.grantsFor nonce peer peerEpoch := by
  have hrow := h.rows peer
  rw [grantsFor, grantsFor, h.groupEpoch]
  cases hi : i.row peer with
  | none =>
    rw [hi, Option.map_none, Option.map_eq_none_iff] at hrow
    rw [hrow]
  | some r =>
    rw [hi, Option.map_some, Option.map_eq_some_iff] at hrow
    obtain ⟨r', hi', hr'⟩ := hrow
    obtain ⟨hpublic, hremoved⟩ := Prod.mk.inj hr'
    simp only [hi', hpublic, hremoved, h.grantChain_eq]

theorem grantsFor_of_le {nonce : Nat → C.Nonce} {peerEpoch : Nat} (h : i.groupEpoch ≤ peerEpoch) :
    i.grantsFor nonce peer peerEpoch = [] := by
  rw [grantsFor, if_pos (.inl h)]

/-- What an active peer behind by no more than the retained epochs is granted. -/
theorem grantsFor_of_active {nonce : Nat → C.Nonce} {peerEpoch : Nat} {r : DeviceRow C}
    (hrow : i.row peer = some r) (hactive : r.removedAtMs = none) (hbehind : peerEpoch < i.groupEpoch)
    (hgap : i.groupEpoch ≤ peerEpoch + MAX_RETAINED_KEY_EPOCHS) : i.grantsFor nonce peer peerEpoch =
      i.grantChain nonce peer r.staticPublic (i.groupEpoch - peerEpoch) (peerEpoch + 1) := by
  have hretained : MAX_RETAINED_KEY_EPOCHS = 16 := rfl
  rw [grantsFor, if_neg (by omega)]
  simp only [hrow, hactive, Option.isSome_none, Bool.false_eq_true, if_false]

/-! ## The invariant of a device -/

/-- What a device keeps over every run: the keys of all epochs up to its own, its peers' own static keys, and
records that leave out no active device and never the device itself. -/
structure Sound (secret : DeviceId → C.Secret) (d : DeviceId) (i : DeviceIdentity C) : Prop where
  device : i.device = d
  deviceStatic : i.deviceStatic = secret d
  keys : ∀ e ≤ i.groupEpoch, (i.keyStore e).isSome = true
  alone : i.row d = none
  statics : ∀ x r, i.row x = some r → r.staticPublic = C.publicOf (secret x)
  records : ∀ e info, i.epochInfo e = some info → ∀ x ∈ info.leftOut, x ≠ d ∧ i.active x = false

namespace Sound

variable {secret : DeviceId → C.Secret}

/-- Keys and records are all there is to check where rows are only rewritten. -/
theorem rewritten (h : i.Sound secret d) (hrewrites : Rewrites i i')
    (hkeys : ∀ e ≤ i'.groupEpoch, (i'.keyStore e).isSome = true)
    (hrecords : ∀ e info, i'.epochInfo e = some info → ∀ x ∈ info.leftOut, x ≠ d ∧ i'.active x = false) :
    i'.Sound secret d where
  device := hrewrites.device.trans h.device
  deviceStatic := hrewrites.deviceStatic.trans h.deviceStatic
  keys := hkeys
  alone := by
    have hnone := hrewrites.statics d
    rw [h.alone, Option.map_none, Option.map_eq_none_iff] at hnone
    exact hnone
  statics x r hrow := by
    have hsame := hrewrites.statics x
    rw [hrow, Option.map_some] at hsame
    obtain ⟨r', hrow', hr'⟩ := Option.map_eq_some_iff.1 hsame.symm
    exact hr' ▸ h.statics x r' hrow'
  records := hrecords

theorem notes (h : i.Sound secret d) (hnotes : Notes i i') : i'.Sound secret d := by
  refine h.rewritten hnotes.rewrites ?_ fun e info hinfo x hx => ?_
  · rw [hnotes.groupEpoch, hnotes.keyStore]
    exact h.keys
  · rw [hnotes.epochInfo] at hinfo
    rw [hnotes.active_eq]
    exact h.records e info hinfo x hx

/-- Filing a key at the next epoch or the current one leaves no epoch without a key. -/
theorem keys_update (h : i.Sound secret d) (hepoch : epoch ≤ i.groupEpoch + 1) :
    ∀ e ≤ epoch, (Function.update i.keyStore epoch (some key) e).isSome = true := by
  intro e he
  by_cases hsame : e = epoch
  · rw [hsame, Function.update_self]
    rfl
  · rw [Function.update_of_ne hsame]
    exact h.keys e (by omega)

/-- A record filed with devices that are no longer active, beside those there were. -/
theorem records_update {info : EpochInfo} (h : i.Sound secret d)
    (hactive : ∀ x, i.active x = false → i'.active x = false)
    (hinfo : ∀ x ∈ info.leftOut, x ≠ d ∧ i'.active x = false) :
    ∀ e info', Function.update i.epochInfo epoch (some info) e = some info' →
      ∀ x ∈ info'.leftOut, x ≠ d ∧ i'.active x = false := by
  intro e info' he x hx
  by_cases hsame : e = epoch
  · rw [hsame, Function.update_self] at he
    cases he
    exact hinfo x hx
  · rw [Function.update_of_ne hsame] at he
    exact ⟨(h.records e info' he x hx).1, hactive x (h.records e info' he x hx).2⟩

theorem adopt {leftOut : List DeviceId} {nowMs : Nat} (h : i.Sound secret d)
    (hepoch : epoch = i.groupEpoch + 1 ∨ epoch = i.groupEpoch)
    (hleft : ∀ x ∈ leftOut, x ≠ d ∧ x ≠ sender) :
    (i.adopt sender minter epoch key leftOut nowMs).Sound secret d := by
  obtain ⟨hrewrites, hcurrent, hkeys, hinfo, hactive⟩ := adopt_spec i sender minter epoch key leftOut nowMs
  refine h.rewritten hrewrites ?_ ?_
  · rw [hcurrent, hkeys]
    exact h.keys_update (by omega)
  · rw [hinfo]
    refine h.records_update (fun x hx => ?_) fun x hx => ⟨(hleft x (List.mem_of_mem_take hx)).1, ?_⟩
    · rw [hactive, hx, Bool.false_and]
    · have hmem := List.mem_of_mem_take hx
      rw [hactive, decide_eq_true ⟨hmem, h.device ▸ (hleft x hmem).1, (hleft x hmem).2⟩, Bool.not_true,
        Bool.and_false]

theorem rotated {nowMs grants : Nat} {why : Why} (h : i.Sound secret d)
    (hrotated : i.removeDeviceBecause target nowMs why key = (.ok ⟨true, false, epoch, grants⟩, i')) :
    i'.Sound secret d := by
  obtain ⟨rfl, hself, -, rfl⟩ := removeDeviceBecause_rotated hrotated
  have hgone : ∀ x, (((i.fileKey (i.groupEpoch + 1) key ⟨i.device, [target]⟩).removeRow target nowMs).writeRemovalWhy
      target ⟨why, i.device⟩).active x = (i.active x && decide (x ≠ target)) := fun x => active_removeRow _ target nowMs x
  refine h.rewritten ?_ (h.keys_update le_rfl) (h.records_update (fun x hx => ?_) fun x hx => ⟨?_, ?_⟩)
  · have hremoved := rewrites_removeRow (i.fileKey (i.groupEpoch + 1) key ⟨i.device, [target]⟩) target nowMs
    exact ⟨hremoved.device, hremoved.deviceStatic, hremoved.statics⟩
  · rw [hgone, hx, Bool.false_and]
  · have hx' : x = target := by simpa [MAX_LEFT_OUT] using hx
    rw [hx', ← h.device]
    exact hself
  · have hx' : x = target := by simpa [MAX_LEFT_OUT] using hx
    rw [hgone, hx', decide_eq_false (not_not.2 rfl), Bool.and_false]

end Sound

end DeviceIdentity

/-- A grant made for `peer` leaves out neither it nor its sender. -/
def Addressed (peer : DeviceId) (msg : ControlMessage C.Wrapped) : Prop :=
  ∃ sender minter epoch wrapped leftOut, msg = .grant sender minter epoch wrapped leftOut ∧
    ∀ x ∈ leftOut, x ≠ peer ∧ x ≠ sender

namespace DeviceIdentity.Sound

variable {secret : DeviceId → C.Secret} {i : DeviceIdentity C} {d peer : DeviceId}

/-- The record of an epoch, or the one that stands in where there is none. -/
theorem record_of_getD {e : Nat} (h : i.Sound secret d) :
    ∀ x ∈ ((i.epochInfo e).getD ⟨i.device, []⟩).leftOut, x ≠ d ∧ i.active x = false := by
  intro x hx
  cases hinfo : i.epochInfo e with
  | none =>
    rw [hinfo] at hx
    cases hx
  | some info =>
    rw [hinfo] at hx
    exact h.records e info hinfo x hx

theorem addressed {nonce : Nat → C.Nonce} {peerEpoch : Nat} {g : OutGrant C} (h : i.Sound secret d)
    (hg : g ∈ i.grantsFor nonce peer peerEpoch) : Addressed peer g.message := by
  obtain ⟨r, -, -, -, hg⟩ := mem_grantsFor hg
  obtain ⟨e, key, info, -, -, -, rfl, hkept, rfl⟩ := mem_grantChain hg
  refine ⟨_, _, _, _, _, rfl, fun x hx => ⟨fun hpeer => hkept (hpeer ▸ hx), ?_⟩⟩
  rw [h.device]
  exact (h.record_of_getD x hx).1

theorem applyGrant {msg : ControlMessage C.Wrapped} {nowMs : Nat} (h : i.Sound secret d)
    (hmsg : Addressed d msg) : (i.applyGrant msg nowMs).2.Sound secret d := by
  rcases applyGrant_cases i msg nowMs with hsame |
    ⟨sender, minter, epoch, wrapped, leftOut, key, rfl, hepoch, -, hadopt⟩
  · rw [hsame]
    exact h
  · obtain ⟨_, _, _, _, _, hgrant, hleft⟩ := hmsg
    cases hgrant
    rw [hadopt]
    exact h.adopt hepoch hleft

end DeviceIdentity.Sound

namespace World

/-- Every device is sound, and every grant made leaves out neither its sender nor the device it is for. -/
structure Sound (secret : DeviceId → C.Secret) (w : World C) : Prop where
  devices : ∀ d, (w.identities d).Sound secret d
  grants : ∀ g ∈ w.grants, Addressed g.1 g.2

variable {secret : DeviceId → C.Secret} {w : World C} {key : C.Key}

theorem Paired.sound (h : w.Paired key) : w.Sound fun d => (w.identities d).deviceStatic where
  devices d :=
    { device := h.device d
      deviceStatic := rfl
      keys := fun e he => by
        rw [h.epoch d, Nat.le_zero] at he
        rw [he, h.key d]
        rfl
      alone := by
        rw [DeviceIdentity.row, List.find?_eq_none]
        intro r hr
        simpa using (h.rows d r hr).1
      statics := fun x r hrow => by
        have hx : r.device = x := by simpa using List.find?_some hrow
        rw [(h.rows d r (List.mem_of_find?_eq_some hrow)).2.2, hx]
      records := fun e info hinfo => by
        rw [h.nothing.1 d e] at hinfo
        cases hinfo }
  grants := by
    rw [h.nothing.2.1]
    exact List.forall_mem_nil _

theorem put_self {d : DeviceId} {i : DeviceIdentity C} : (w.put d i).identities d = i := Function.update_self ..

theorem put_of_ne {d x : DeviceId} {i : DeviceIdentity C} (h : x ≠ d) :
    (w.put d i).identities x = w.identities x :=
  Function.update_of_ne h ..

theorem Sound.put {d : DeviceId} {i : DeviceIdentity C} (h : w.Sound secret) (hi : i.Sound secret d) :
    (w.put d i).Sound secret := by
  refine ⟨fun x => ?_, h.grants⟩
  by_cases hx : x = d
  · rw [hx, put_self]
    exact hi
  · rw [put_of_ne hx]
    exact h.devices x

theorem Sound.step (h : w.Sound secret) (a : Action C) : (w.step a).Sound secret := by
  cases a with
  | remove device target nowMs why newKey =>
    rw [World.step]
    split
    · rename_i hrotated
      exact ⟨(h.put ((h.devices device).rotated hrotated)).devices, h.grants⟩
    · exact h
  | grant sender peer peerEpoch nonce =>
    refine ⟨h.devices, fun g hg => ?_⟩
    rcases List.mem_append.1 hg with hg | hg
    · exact h.grants g hg
    · obtain ⟨out, hout, rfl⟩ := List.mem_map.1 hg
      exact (h.devices sender).addressed hout
  | deliver index nowMs =>
    rw [World.step]
    split
    · exact h
    · rename_i device msg hget
      exact h.put ((h.devices device).applyGrant (h.grants _ (List.mem_of_getElem? hget)))
  | note device peer epoch => exact h.put ((h.devices device).notes (DeviceIdentity.notes_notePeerEpoch _ peer epoch))

/-- Every device is sound in every world a run reaches. -/
theorem Sound.after (h : w.Sound secret) (actions : List (Action C)) : (w.after actions).Sound secret := by
  induction actions generalizing w with
  | nil => exact h
  | cons a actions ih => exact ih (h.step a)

/-! ## Removals over a run -/

/-- The devices that were removed by some rotation. -/
def removed (w : World C) : List DeviceId := w.minted.map Minted.target

/-- The members of the group that no rotation removed. -/
def kept (w : World C) (group : List DeviceId) : List DeviceId := group.filter fun d => d ∉ w.removed

theorem mem_kept {w : World C} {group : List DeviceId} {d : DeviceId} :
    d ∈ w.kept group ↔ d ∈ group ∧ d ∉ w.removed := by
  rw [kept, List.mem_filter, decide_eq_true_eq]

/-- The members know each other. -/
def Mesh (w : World C) (group : List DeviceId) : Prop :=
  ∀ d ∈ group, ∀ x ∈ group, x ≠ d → (w.identities d).active x = true

instance (w : World C) (group : List DeviceId) : Decidable (w.Mesh group) :=
  inferInstanceAs (Decidable (∀ d ∈ group, ∀ x ∈ group, x ≠ d → (w.identities d).active x = true))

/-- Nothing is left to grant between kept devices, none of which is too far behind to be granted anything. -/
structure Applied (w : World C) (group : List DeviceId) (nonce : Nat → C.Nonce) : Prop where
  grants : ∀ s ∈ w.kept group, ∀ d ∈ w.kept group,
    ((w.identities s).grantsFor nonce d (w.identities d).groupEpoch).isEmpty = true
  gap : ∀ s ∈ w.kept group, ∀ d ∈ w.kept group,
    (w.identities s).groupEpoch ≤ (w.identities d).groupEpoch + MAX_RETAINED_KEY_EPOCHS

/-- No kept device has a removed one as active, nor makes a grant of the epoch it ended on for one. -/
def RemovalsStand (w : World C) (group : List DeviceId) : Prop :=
  ∀ d ∈ w.kept group, ∀ x ∈ w.removed, (w.identities d).active x = false ∧
    ∀ nonce peerEpoch, ∀ g ∈ (w.identities d).grantsFor nonce x peerEpoch,
      ∀ sender minter epoch wrapped leftOut, g.message = .grant sender minter epoch wrapped leftOut →
        epoch < (w.identities d).groupEpoch

/-- Two rotations that minted one epoch removed the same device. -/
def DropsAgree (w : World C) : Prop :=
  ∀ m ∈ w.minted, ∀ m' ∈ w.minted, m.epoch = m'.epoch → m.target = m'.target

instance (w : World C) : Decidable w.DropsAgree :=
  inferInstanceAs (Decidable (∀ m ∈ w.minted, ∀ m' ∈ w.minted, m.epoch = m'.epoch → m.target = m'.target))

/-- What the records, the grants and the rows of a run have to do with its rotations. -/
structure Recorded (w : World C) (group : List DeviceId) : Prop where
  records : ∀ d e, 0 < e → e ≤ (w.identities d).groupEpoch →
    ∃ m ∈ w.minted, m.epoch = e ∧ ∃ minter, (w.identities d).epochInfo e = some ⟨minter, [m.target]⟩
  grants : ∀ g ∈ w.grants, ∀ sender minter e wrapped leftOut, g.2 = .grant sender minter e wrapped leftOut →
    ∃ m ∈ w.minted, m.epoch = e ∧ leftOut = [m.target]
  minted : ∀ m ∈ w.minted, m.minter ∈ group ∧ 0 < m.epoch ∧ m.epoch ≤ (w.identities m.minter).groupEpoch
  rows : ∀ d ∈ group, ∀ x ∈ group, x ≠ d → (w.identities d).active x = false → x ∈ w.removed

end World

/-- The removals of an action are made by members of the group. -/
def Action.By (group : List DeviceId) : Action C → Prop
  | .remove device _ _ _ _ => device ∈ group
  | _ => True

instance (group : List DeviceId) : (a : Action C) → Decidable (a.By group)
  | .remove device _ _ _ _ => inferInstanceAs (Decidable (device ∈ group))
  | .grant .. | .deliver .. | .note .. => inferInstanceAs (Decidable True)

namespace World

variable {w : World C} {key : C.Key} {group : List DeviceId}

theorem Paired.recorded (h : w.Paired key) (hmesh : w.Mesh group) : w.Recorded group where
  records d e hpos he := by
    rw [h.epoch d] at he
    omega
  grants := by
    rw [h.nothing.2.1]
    exact List.forall_mem_nil _
  minted := by
    rw [h.nothing.2.2]
    exact List.forall_mem_nil _
  rows d hd x hx hne hactive := by
    rw [hmesh d hd x hx hne] at hactive
    cases hactive

/-- One device goes on, with rotations of its own: its epoch does not fall, its records are of rotations, and
whoever is no longer active was removed by one. -/
theorem Recorded.rotate {d : DeviceId} {i : DeviceIdentity C} (h : w.Recorded group) (own : List Minted)
    (hown : ∀ m ∈ own, m.minter = d ∧ d ∈ group ∧ 0 < m.epoch ∧ m.epoch ≤ i.groupEpoch)
    (hepoch : (w.identities d).groupEpoch ≤ i.groupEpoch)
    (hrecords : ∀ e, 0 < e → e ≤ i.groupEpoch →
      ∃ m ∈ w.minted ++ own, m.epoch = e ∧ ∃ minter, i.epochInfo e = some ⟨minter, [m.target]⟩)
    (hrows : ∀ x, i.active x = false →
      (w.identities d).active x = false ∨ x ∈ (w.minted ++ own).map Minted.target) :
    ({ w.put d i with minted := w.minted ++ own } : World C).Recorded group where
  records d' e hpos he := by
    by_cases hd : d' = d
    · rw [hd, put_self] at he ⊢
      exact hrecords e hpos he
    · rw [put_of_ne hd] at he ⊢
      obtain ⟨m, hm, rest⟩ := h.records d' e hpos he
      exact ⟨m, List.mem_append_left _ hm, rest⟩
  grants g hg sender minter e wrapped leftOut hgrant := by
    obtain ⟨m, hm, rest⟩ := h.grants g hg sender minter e wrapped leftOut hgrant
    exact ⟨m, List.mem_append_left _ hm, rest⟩
  minted m hm := by
    rcases List.mem_append.1 hm with hm | hm
    · obtain ⟨hminter, hpos, hle⟩ := h.minted m hm
      refine ⟨hminter, hpos, ?_⟩
      by_cases hd : m.minter = d
      · rw [hd, put_self]
        exact (hd ▸ hle).trans hepoch
      · rw [put_of_ne hd]
        exact hle
    · obtain ⟨rfl, hmember, hpos, hle⟩ := hown m hm
      rw [put_self]
      exact ⟨hmember, hpos, hle⟩
  rows d' hd' x hx hne hactive := by
    by_cases hd : d' = d
    · rw [hd, put_self] at hactive
      refine (hrows x hactive).elim (fun hbefore => ?_) id
      rw [removed, List.map_append]
      exact List.mem_append_left _ (h.rows d (hd ▸ hd') x hx (hd ▸ hne) hbefore)
    · rw [put_of_ne hd] at hactive
      rw [removed, List.map_append]
      exact List.mem_append_left _ (h.rows d' hd' x hx hne hactive)

/-- `Recorded.rotate` without a rotation. -/
theorem Recorded.put {d : DeviceId} {i : DeviceIdentity C} (h : w.Recorded group)
    (hepoch : (w.identities d).groupEpoch ≤ i.groupEpoch)
    (hrecords : ∀ e, 0 < e → e ≤ i.groupEpoch →
      ∃ m ∈ w.minted, m.epoch = e ∧ ∃ minter, i.epochInfo e = some ⟨minter, [m.target]⟩)
    (hrows : ∀ x, i.active x = false → (w.identities d).active x = false ∨ x ∈ w.removed) :
    (w.put d i).Recorded group := by
  have hrotate := h.rotate [] (List.forall_mem_nil _) hepoch
    (fun e hpos he => by simpa using hrecords e hpos he) fun x hx => by simpa [removed] using hrows x hx
  rw [List.append_nil] at hrotate
  exact hrotate

/-- A record written over the others, at an epoch that a rotation with its target minted. -/
theorem Recorded.records_update {d minter : DeviceId} {m : Minted} (h : w.Recorded group)
    {minted : List Minted} (hminted : ∀ m' ∈ w.minted, m' ∈ minted) (hm : m ∈ minted)
    (hepoch : m.epoch ≤ (w.identities d).groupEpoch + 1) : ∀ e, 0 < e → e ≤ m.epoch →
      ∃ m' ∈ minted, m'.epoch = e ∧ ∃ minter',
        Function.update (w.identities d).epochInfo m.epoch (some ⟨minter, [m.target]⟩) e =
          some ⟨minter', [m'.target]⟩ := by
  intro e hpos he
  by_cases hsame : e = m.epoch
  · exact ⟨m, hm, hsame.symm, minter, by rw [hsame, Function.update_self]⟩
  · obtain ⟨m', hm', hepoch', minter', hinfo⟩ := h.records d e hpos (by omega)
    exact ⟨m', hminted m' hm', hepoch', minter', by rw [Function.update_of_ne hsame, hinfo]⟩

theorem Recorded.step (h : w.Recorded group) {a : Action C} (hby : a.By group) :
    (w.step a).Recorded group := by
  cases a with
  | remove device target nowMs why newKey =>
    rw [World.step]
    split
    · rename_i epoch grants identity hrotated
      obtain ⟨rfl, -, -, rfl⟩ := DeviceIdentity.removeDeviceBecause_rotated hrotated
      refine h.rotate [⟨(w.identities device).groupEpoch + 1, device, target⟩] (fun m hm => ?_)
        (Nat.le_succ _) ?_ fun x hx => ?_
      · obtain rfl := List.mem_singleton.1 hm
        exact ⟨rfl, hby, Nat.succ_pos _, le_rfl⟩
      · exact h.records_update (m := ⟨(w.identities device).groupEpoch + 1, device, target⟩)
          (fun m hm => List.mem_append_left _ hm) (by simp) le_rfl
      · have hgone := DeviceIdentity.active_removeRow ((w.identities device).fileKey
          ((w.identities device).groupEpoch + 1) newKey ⟨(w.identities device).device, [target]⟩) target nowMs x
        by_cases htarget : x = target
        · exact .inr (by simp [htarget])
        · refine .inl ?_
          rw [decide_eq_true htarget, Bool.and_true] at hgone
          exact hgone.symm.trans hx
    · exact h
  | grant sender peer peerEpoch nonce =>
    refine ⟨h.records, fun g hg s minter e wrapped leftOut hgrant => ?_, h.minted, h.rows⟩
    rcases List.mem_append.1 hg with hg | hg
    · exact h.grants g hg s minter e wrapped leftOut hgrant
    · obtain ⟨out, hout, rfl⟩ := List.mem_map.1 hg
      obtain ⟨r, -, -, hbehind, hout⟩ := DeviceIdentity.mem_grantsFor hout
      obtain ⟨e', key, info, hlow, hhigh, -, rfl, -, rfl⟩ := DeviceIdentity.mem_grantChain hout
      cases hgrant
      obtain ⟨m, hm, hepoch, minter', hinfo⟩ := h.records sender e (by omega) (by omega)
      exact ⟨m, hm, hepoch, by rw [hinfo, Option.getD_some]⟩
  | deliver index nowMs =>
    rw [World.step]
    split
    · exact h
    · rename_i device msg hget
      rcases DeviceIdentity.applyGrant_cases (w.identities device) msg nowMs with hsame |
        ⟨sender, minter, epoch, wrapped, leftOut, key, rfl, hepoch, -, hadopt⟩
      · rw [hsame]
        exact h.put le_rfl (h.records device) fun x hx => .inl hx
      · obtain ⟨m, hm, rfl, rfl⟩ := h.grants _ (List.mem_of_getElem? hget) _ _ _ _ _ rfl
        obtain ⟨-, hcurrent, -, hinfo, hactive⟩ := DeviceIdentity.adopt_spec (w.identities device) sender minter
          m.epoch key [m.target] nowMs
        rw [hadopt]
        refine h.put (by omega) ?_ fun x hx => ?_
        · rw [hcurrent, hinfo]
          exact h.records_update (fun _ h => h) hm (by omega)
        · by_cases htarget : x = m.target
          · exact .inr (htarget ▸ List.mem_map_of_mem hm)
          · rw [hactive] at hx
            exact .inl (by simpa [htarget] using hx)
  | note device peer epoch =>
    have hnotes := DeviceIdentity.notes_notePeerEpoch (w.identities device) peer epoch
    refine h.put hnotes.groupEpoch.ge ?_ fun x hx => .inl (hnotes.active_eq x ▸ hx)
    rw [hnotes.groupEpoch, hnotes.epochInfo]
    exact h.records device

theorem Recorded.after (h : w.Recorded group) {actions : List (Action C)}
    (hby : ∀ a ∈ actions, a.By group) : (w.after actions).Recorded group := by
  induction actions generalizing w with
  | nil => exact h
  | cons a actions ih =>
    rw [List.forall_mem_cons] at hby
    exact ih (h.step hby.1) hby.2

/-- A device that has an epoch of a rotation no longer has the rotation's target as active. -/
theorem Recorded.inactive {secret : DeviceId → C.Secret} (h : w.Recorded group) (hsound : w.Sound secret)
    (hdrop : w.DropsAgree) {m : Minted} (hm : m ∈ w.minted) (hpos : 0 < m.epoch) {d : DeviceId}
    (hle : m.epoch ≤ (w.identities d).groupEpoch) : m.target ≠ d ∧ (w.identities d).active m.target = false := by
  obtain ⟨m', hm', hepoch, minter, hinfo⟩ := h.records d m.epoch hpos hle
  rw [hdrop m hm m' hm' hepoch.symm]
  exact (hsound.devices d).records m.epoch _ hinfo m'.target (List.mem_singleton_self _)

/-- Kept devices to which nothing more is granted are on one epoch. -/
theorem Recorded.level {secret : DeviceId → C.Secret} {nonce : Nat → C.Nonce} (h : w.Recorded group)
    (hsound : w.Sound secret) (happlied : w.Applied group nonce) {s d : DeviceId} (hs : s ∈ w.kept group)
    (hd : d ∈ w.kept group) : (w.identities s).groupEpoch ≤ (w.identities d).groupEpoch := by
  by_contra hbehind
  have hne : d ≠ s := by
    rintro rfl
    exact hbehind le_rfl
  have hactive : (w.identities s).active d = true := by
    by_contra hnot
    exact (mem_kept.1 hd).2 (h.rows s (mem_kept.1 hs).1 d (mem_kept.1 hd).1 hne (by simpa using hnot))
  obtain ⟨r, hrow, hr⟩ := DeviceIdentity.exists_row_of_active hactive
  have hnone := List.isEmpty_iff.1 (happlied.grants s hs d hd)
  rw [DeviceIdentity.grantsFor_of_active hrow hr (by omega) (happlied.gap s hs d hd)] at hnone
  obtain ⟨n, hn⟩ : ∃ n, (w.identities s).groupEpoch - (w.identities d).groupEpoch = n + 1 :=
    ⟨_, (Nat.sub_add_cancel (by omega : 1 ≤ _)).symm⟩
  obtain ⟨m, hm, -, minter, hinfo⟩ := h.records s ((w.identities d).groupEpoch + 1) (by omega) (by omega)
  obtain ⟨key, hkey⟩ := Option.isSome_iff_exists.1
    ((hsound.devices s).keys ((w.identities d).groupEpoch + 1) (by omega))
  have hkept : d ∉ [m.target] := by
    rintro hd'
    exact (mem_kept.1 hd).2 (List.mem_singleton.1 hd' ▸ List.mem_map_of_mem hm)
  rw [hn, DeviceIdentity.grantChain, hinfo, Option.getD_some, if_neg hkept, hkey] at hnone
  cases hnone

/-- A kept device to which nothing more is granted has every epoch that was minted: the device that minted the
last one is itself kept. -/
theorem Recorded.le_kept {secret : DeviceId → C.Secret} {nonce : Nat → C.Nonce} (h : w.Recorded group)
    (hsound : w.Sound secret) (hdrop : w.DropsAgree) (happlied : w.Applied group nonce) {d : DeviceId}
    (hd : d ∈ w.kept group) {m : Minted} (hm : m ∈ w.minted) : m.epoch ≤ (w.identities d).groupEpoch := by
  obtain ⟨last, hlast⟩ : ∃ last, w.minted.argmax Minted.epoch = some last := by
    rw [← Option.isSome_iff_exists, Option.isSome_iff_ne_none, Ne, List.argmax_eq_none]
    exact List.ne_nil_of_mem hm
  have hmem := List.argmax_mem hlast
  obtain ⟨hmember, hpos, hle⟩ := h.minted last hmem
  have hkept : last.minter ∈ w.kept group := by
    refine mem_kept.2 ⟨hmember, fun hremoved => ?_⟩
    obtain ⟨m', hm', htarget⟩ := List.mem_map.1 hremoved
    have hmax : m'.epoch ≤ last.epoch := List.le_of_mem_argmax hm' hlast
    exact (h.inactive hsound hdrop hm' (h.minted m' hm').2.1 (hmax.trans hle)).1 htarget
  calc m.epoch ≤ last.epoch := List.le_of_mem_argmax hm hlast
    _ ≤ (w.identities last.minter).groupEpoch := hle
    _ ≤ (w.identities d).groupEpoch := h.level hsound happlied hkept hd

end World

/-- Where no two rotations of a run minted one epoch for different removals, and nothing is left to grant, the
removals stand on every kept device. -/
theorem removals_stand {w : World C} {key : C.Key} {group : List DeviceId} {actions : List (Action C)}
    (nonce : Nat → C.Nonce) (hpaired : w.Paired key) (hmesh : w.Mesh group) (hby : ∀ a ∈ actions, a.By group)
    (hdrop : (w.after actions).DropsAgree) (happlied : (w.after actions).Applied group nonce) :
    (w.after actions).RemovalsStand group := by
  have hsound := hpaired.sound.after actions
  have hrecorded := (hpaired.recorded hmesh).after hby
  intro d hd x hx
  obtain ⟨m, hm, rfl⟩ := List.mem_map.1 hx
  have hinactive := (hrecorded.inactive hsound hdrop hm (hrecorded.minted m hm).2.1
    (hrecorded.le_kept hsound hdrop happlied hd hm)).2
  refine ⟨hinactive, fun nonce' peerEpoch g hg => ?_⟩
  obtain ⟨r, hrow, hr, -⟩ := DeviceIdentity.mem_grantsFor hg
  rw [DeviceIdentity.active, hrow, Option.any_some, hr] at hinactive
  cases hinactive

/-- Keys, wrapped grants and frames that carry what they were made of. -/
@[reducible] def plainCrypto : Crypto where
  Key := Nat
  Public := Nat
  Secret := Nat
  Nonce := Unit
  Wrapped := Nat × Nat × Nat
  Sealed := Nat × Nat × ControlMessage (Nat × Nat × Nat)
  publicOf secret := secret
  wrapGrantFor _ key epoch recipient := (key, epoch, recipient)
  openGrant wrapped epoch secret := if wrapped.2 = (epoch, secret) then some wrapped.1 else none
  sealControl _ key epoch msg := (key, epoch, msg)
  openControl key epoch bytes := if bytes.1 = key ∧ bytes.2.1 = epoch then some bytes.2.2 else none

/-- Four devices that know each other. -/
def fourDevices : World plainCrypto where
  identities d :=
    { device := d
      deviceStatic := d.ulid
      groupEpoch := 0
      keyStore := fun epoch => if epoch = 0 then some 7 else none
      devices := ([1, 2, 3, 4].filter (· ≠ d.ulid)).map fun n => ⟨⟨n⟩, n, 0, none⟩
      epochInfo := fun _ => none
      removalWhy := fun _ => none }
  grants := []
  minted := []

theorem fourDevices_paired : fourDevices.Paired 7 where
  device _ := rfl
  epoch _ := rfl
  key _ := rfl
  rows d r hr := by
    obtain ⟨n, hn, rfl⟩ := List.mem_map.1 hr
    refine ⟨fun h => ?_, rfl, rfl⟩
    have hne : n ≠ d.ulid := by simpa using (List.mem_filter.1 hn).2
    exact hne (congrArg DeviceId.ulid h)
  nothing := ⟨fun _ _ => rfl, rfl, rfl⟩

/-- A removal that reaches the devices left, then one of another device by one of these. -/
def removalsInTurn : List (Action plainCrypto) :=
  [.remove ⟨1⟩ ⟨3⟩ 100 .manual 8, .grant ⟨1⟩ ⟨2⟩ 0 fun _ => (), .grant ⟨1⟩ ⟨4⟩ 0 fun _ => (),
    .deliver 0 101, .deliver 1 101, .remove ⟨2⟩ ⟨4⟩ 102 .manual 9, .grant ⟨2⟩ ⟨1⟩ 1 fun _ => (),
    .deliver 2 103]

theorem removals_stand_in_turn :
    (fourDevices.after removalsInTurn).RemovalsStand [⟨1⟩, ⟨2⟩, ⟨3⟩, ⟨4⟩] :=
  removals_stand (fun _ => ()) fourDevices_paired (by decide) (by decide) (by decide) ⟨by decide, by decide⟩

/-- Two removals at once, and both grants brought to the other device. -/
def twoRemovals : List (Action plainCrypto) :=
  [.remove ⟨1⟩ ⟨3⟩ 100 .manual 8, .remove ⟨2⟩ ⟨4⟩ 100 .manual 9, .grant ⟨1⟩ ⟨2⟩ 0 fun _ => (),
    .grant ⟨2⟩ ⟨1⟩ 0 fun _ => (), .deliver 0 101, .deliver 1 101]

/-- The lower minter keeps its own key, and with it the device that the other removed: it would grant that one
its epoch. -/
theorem not_removals_stand : fourDevices.Paired 7 ∧ fourDevices.Mesh [⟨1⟩, ⟨2⟩, ⟨3⟩, ⟨4⟩] ∧
    (∀ a ∈ twoRemovals, a.By [⟨1⟩, ⟨2⟩, ⟨3⟩, ⟨4⟩]) ∧
    (fourDevices.after twoRemovals).Applied [⟨1⟩, ⟨2⟩, ⟨3⟩, ⟨4⟩] (fun _ => ()) ∧
    (((fourDevices.after twoRemovals).identities ⟨1⟩).grantsFor (fun _ => ()) ⟨4⟩ 0).length = 1 ∧
    ¬(fourDevices.after twoRemovals).RemovalsStand [⟨1⟩, ⟨2⟩, ⟨3⟩, ⟨4⟩] := by
  refine ⟨fourDevices_paired, by decide, by decide, ⟨by decide, by decide⟩, by decide, fun h => ?_⟩
  have hactive : ((fourDevices.after twoRemovals).identities ⟨1⟩).active ⟨4⟩ = true := by decide
  rw [(h ⟨1⟩ (by decide) ⟨4⟩ (by decide)).1] at hactive
  cases hactive

end Txtodo.GroupRotation
