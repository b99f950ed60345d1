import Steel.Player.MessageValidator

/-! # Rejected acknowledgements

An update that is rejected may have moved the window of the server before, and may have changed the
entries before the one that is found wrong.
-/

namespace Steel

open List Nat

namespace LastSeenMessagesValidator

variable {Sig : Type*} (acknowledged : Acknowledged)

def updatedSlot (index : ℕ) (slot : Option (TrackedEntry Sig)) : Option (TrackedEntry Sig) :=
  if acknowledged.isAcknowledged index then slot.map TrackedEntry.acknowledge else none

/-- An entry that is acknowledged though it is unknown, or ignored though it was acknowledged. -/
def Rejects (index : ℕ) (slot : Option (TrackedEntry Sig)) : Prop :=
  if acknowledged.isAcknowledged index then slot = none
  else ∃ entry, slot = some entry ∧ entry.pending = false

variable {acknowledged} {slot : Option (TrackedEntry Sig)}

theorem updateWindow_cons {index : ℕ}
    (haccept : ¬ Rejects acknowledged index slot) (rest : List (Option (TrackedEntry Sig))) :
    (updateWindow acknowledged index (slot :: rest)).1 =
        updatedSlot acknowledged index slot :: (updateWindow acknowledged (index + 1) rest).1 ∧
      ((∃ signatures, (updateWindow acknowledged index (slot :: rest)).2 = .ok signatures) ↔
        ∃ signatures, (updateWindow acknowledged (index + 1) rest).2 = .ok signatures) := by
  have hmap (f : List Sig → List Sig) (result : Except LastSeenError (List Sig)) :
      (∃ signatures, result.map f = .ok signatures) ↔ ∃ signatures, result = .ok signatures := by
    cases result <;> simp [Except.map]
  generalize hrest : updateWindow acknowledged (index + 1) rest = updated
  unfold updateWindow updatedSlot
  unfold Rejects at haccept
  simp only [hrest]
  by_cases hbit : acknowledged.isAcknowledged index = true
  · rw [if_pos hbit] at haccept
    obtain ⟨entry, rfl⟩ := Option.ne_none_iff_exists'.1 haccept
    simp only [hbit, if_true]
    exact ⟨rfl, hmap _ _⟩
  · rw [if_neg hbit] at haccept
    cases slot with
    | none =>
      simp only [hbit]
      exact ⟨rfl, Iff.rfl⟩
    | some entry =>
      have hpending : entry.pending = true := by
        by_contra hpending
        exact haccept ⟨entry, rfl, by simpa using hpending⟩
      simp only [hbit, hpending]
      exact ⟨rfl, Iff.rfl⟩

theorem updateWindow_reject {index : ℕ}
    (hreject : Rejects acknowledged index slot) (rest : List (Option (TrackedEntry Sig))) :
    (updateWindow acknowledged index (slot :: rest)).1 = slot :: rest ∧
      ∃ error, (updateWindow acknowledged index (slot :: rest)).2 = .error error := by
  unfold updateWindow
  unfold Rejects at hreject
  by_cases hbit : acknowledged.isAcknowledged index = true
  · rw [if_pos hbit] at hreject
    subst hreject
    simp only [hbit, if_true]
    exact ⟨trivial, _, rfl⟩
  · rw [if_neg hbit] at hreject
    obtain ⟨entry, rfl, hpending⟩ := hreject
    simp only [hbit, hpending]
    exact ⟨rfl, _, rfl⟩

theorem updateWindow_eq (slots : List (Option (TrackedEntry Sig))) :
    ∀ index, (∀ i slot, slots[i]? = some slot → ¬ Rejects acknowledged (index + i) slot) ∧
          (updateWindow acknowledged index slots).1 =
            slots.mapIdx (fun i slot => updatedSlot acknowledged (index + i) slot) ∧
          (∃ signatures, (updateWindow acknowledged index slots).2 = .ok signatures) ∨
        ∃ k slot, slots[k]? = some slot ∧ Rejects acknowledged (index + k) slot ∧
          (∀ i < k, ∀ slot, slots[i]? = some slot → ¬ Rejects acknowledged (index + i) slot) ∧
          (updateWindow acknowledged index slots).1 =
            (slots.take k).mapIdx (fun i slot => updatedSlot acknowledged (index + i) slot) ++
              slots.drop k ∧
          ∃ error, (updateWindow acknowledged index slots).2 = .error error := by
  induction slots with
  | nil => exact fun index => .inl ⟨nofun, rfl, [], rfl⟩
  | cons slot rest ih =>
    intro index
    by_cases hreject : Rejects acknowledged index slot
    · obtain ⟨hsame, herror⟩ := updateWindow_reject hreject rest
      exact .inr ⟨0, slot, rfl, hreject, nofun, hsame, herror⟩
    · obtain ⟨hwindow, hok⟩ := updateWindow_cons hreject rest
      have hsucc (i : ℕ) : index + 1 + i = index + (i + 1) := by omega
      rcases ih (index + 1) with ⟨haccept, hrest, hsignatures⟩ |
        ⟨k, slot', hget, hreject', haccept, hrest, herror⟩
      · refine .inl ⟨?_, ?_, hok.2 hsignatures⟩
        · rintro (_ | i) slot' hget
          · cases hget
            exact hreject
          · rw [← hsucc]
            exact haccept i slot' hget
        · simp only [hsucc] at hrest
          rw [hwindow, hrest, mapIdx_cons]
          rfl
      · refine .inr ⟨k + 1, slot', hget, by rwa [← hsucc], ?_, ?_, ?_⟩
        · rintro (_ | i) hlt slot'' hget'
          · cases hget'
            exact hreject
          · rw [← hsucc]
            exact haccept i (lt_of_succ_lt_succ hlt) slot'' hget'
        · simp only [hsucc] at hrest
          rw [hwindow, hrest, take_succ_cons, mapIdx_cons]
          rfl
        · cases hresult : (updateWindow acknowledged index (slot :: rest)).2 with
          | error error => exact ⟨error, rfl⟩
          | ok signatures =>
            obtain ⟨signatures', hsignatures⟩ := hok.1 ⟨signatures, hresult⟩
            obtain ⟨error, herror⟩ := herror
            rw [herror] at hsignatures
            cases hsignatures

/-- What holds of an update: a rejected one has changed nothing, and an accepted one has removed the
entries of its offset and updated the first twenty of the others. -/
def Exact (acknowledged : Acknowledged) (offset : ℤ)
    (before after : LastSeenMessagesValidator Sig) (result : Except LastSeenError (List Sig)) :
    Prop :=
  match result with
  | .error _ => after.trackedMessages = before.trackedMessages
  | .ok _ => 0 ≤ offset ∧
      after.trackedMessages.length + offset.toNat = before.trackedMessages.length ∧
      ∀ i, after.trackedMessages[i]? = (before.trackedMessages[offset.toNat + i]?).map fun slot =>
        if i < maxTrackedMessages then updatedSlot acknowledged i slot else slot

/-- An update that nothing is wrong with but its offset, or that has changed nothing when it comes
to what is wrong. -/
def Harmless (validator : LastSeenMessagesValidator Sig) (acknowledged : Acknowledged)
    (offset : ℤ) : Prop :=
  (offset < 0 ∨ validator.trackedMessages.length - maxTrackedMessages < offset.toNat) ∨
  (∀ i < maxTrackedMessages, ∀ slot, validator.trackedMessages[offset.toNat + i]? = some slot →
    ¬ Rejects acknowledged i slot) ∨
  (offset = 0 ∧ ∃ k < maxTrackedMessages,
    (∃ slot, validator.trackedMessages[k]? = some slot ∧ Rejects acknowledged k slot) ∧
    ∀ i < k, ∀ slot, validator.trackedMessages[i]? = some slot →
      ¬ Rejects acknowledged i slot ∧ updatedSlot acknowledged i slot = slot)

section Update

variable {validator : LastSeenMessagesValidator Sig} {offset : ℤ}

theorem getElem?_mapIdx_take {α : Type*} (l : List α) (n : ℕ) (f : ℕ → α → α) (i : ℕ) :
    ((l.take n).mapIdx f ++ l.drop n)[i]? = l[i]?.map fun a => if i < n then f i a else a := by
  rw [List.getElem?_append, length_mapIdx, length_take, List.getElem?_mapIdx,
    List.getElem?_take, List.getElem?_drop]
  by_cases hi : i < n
  · by_cases hlen : i < l.length
    · rw [if_pos (by omega), if_pos hi]
      simp [hi]
    · rw [if_neg (by omega), List.getElem?_eq_none (by omega), List.getElem?_eq_none (by omega)]
      rfl
  · rw [if_neg (by omega)]
    by_cases hlen : n ≤ l.length
    · rw [show n + (i - min n l.length) = i by omega]
      simp [hi]
    · rw [List.getElem?_eq_none (by omega), List.getElem?_eq_none (by omega)]
      rfl

/-- A list of which a part has been changed is the same exactly if each element of the part is. -/
theorem mapIdx_take_append_eq_self_iff {α : Type*} {l : List α} {k n : ℕ} (hk : k ≤ n)
    (f : ℕ → α → α) :
    ((l.take n).take k).mapIdx f ++ (l.take n).drop k ++ l.drop n = l ↔
      ∀ i < k, ∀ a, l[i]? = some a → f i a = a := by
  have htake : (l.take n).take k = l.take k := by
    rw [List.take_take, min_eq_left hk]
  have hdrop : (l.take n).drop k ++ l.drop n = l.drop k := by
    have h := List.take_append_drop (n - k) (l.drop k)
    rwa [List.drop_drop, Nat.add_sub_cancel' hk, ← List.drop_take] at h
  rw [htake, List.append_assoc, hdrop, List.ext_getElem?_iff]
  refine forall_congr' fun i => ?_
  rw [getElem?_mapIdx_take]
  cases l[i]? with
  | none => simp
  | some a =>
    by_cases hi : i < k
    · simp [hi]
    · simp [hi]

theorem applyOffset_rejected (h : offset < 0 ∨
    validator.trackedMessages.length - maxTrackedMessages < offset.toNat) :
    validator.applyOffset offset =
      .error (.advanced offset (validator.trackedMessages.length - maxTrackedMessages)) := by
  rw [applyOffset]
  exact if_pos h

theorem applyOffset_accepted (h : ¬ (offset < 0 ∨
    validator.trackedMessages.length - maxTrackedMessages < offset.toNat)) :
    validator.applyOffset offset =
      .ok { validator with trackedMessages := validator.trackedMessages.drop offset.toNat } := by
  rw [applyOffset]
  exact if_neg h

theorem applyUpdate_exact_iff (validator : LastSeenMessagesValidator Sig)
    (acknowledged : Acknowledged) (offset : ℤ) (checksum : BitVec 8) :
    Exact acknowledged offset validator (validator.applyUpdate acknowledged offset checksum).1
        (validator.applyUpdate acknowledged offset checksum).2 ↔
      Harmless validator acknowledged offset := by
  by_cases hoffset : offset < 0 ∨
      validator.trackedMessages.length - maxTrackedMessages < offset.toNat
  · have hresult : validator.applyUpdate acknowledged offset checksum = (validator,
        .error (.advanced offset (validator.trackedMessages.length - maxTrackedMessages))) := by
      rw [applyUpdate, applyOffset_rejected hoffset]
    rw [hresult]
    exact iff_of_true rfl (.inl hoffset)
  · have hresult : validator.applyUpdate acknowledged offset checksum =
        ({ validator with trackedMessages :=
            (updateWindow acknowledged 0
              ((validator.trackedMessages.drop offset.toNat).take maxTrackedMessages)).1 ++
            (validator.trackedMessages.drop offset.toNat).drop maxTrackedMessages },
          (updateWindow acknowledged 0
            ((validator.trackedMessages.drop offset.toNat).take maxTrackedMessages)).2) := by
      rw [applyUpdate, applyOffset_accepted hoffset]
    rw [hresult]
    have hget (i : ℕ) (slot : Option (TrackedEntry Sig)) :
        ((validator.trackedMessages.drop offset.toNat).take maxTrackedMessages)[i]? = some slot ↔
          i < maxTrackedMessages ∧ validator.trackedMessages[offset.toNat + i]? = some slot := by
      rw [List.getElem?_take, List.getElem?_drop]
      split_ifs with hi
      · simp [hi]
      · simp [hi]
    rcases updateWindow_eq ((validator.trackedMessages.drop offset.toNat).take maxTrackedMessages) 0
      with ⟨haccept, hwindow, signatures, hok⟩ |
        ⟨k, slot, hk, hreject, haccept, hwindow, error, herror⟩
    · rw [hok, hwindow]
      refine iff_of_true ⟨by omega, ?_, fun i => ?_⟩ (.inr (.inl fun i hi slot hslot => ?_))
      · simp only [length_append, length_mapIdx, length_take, length_drop]
        omega
      · simp only [Nat.zero_add]
        rw [getElem?_mapIdx_take, List.getElem?_drop]
      · rw [← Nat.zero_add i]
        exact haccept i slot ((hget i slot).2 ⟨hi, hslot⟩)
    · rw [herror, hwindow]
      simp only [Nat.zero_add] at haccept hreject
      simp only [Nat.zero_add, Exact]
      obtain ⟨hk20, hkget⟩ := (hget k slot).1 hk
      constructor
      · intro hsame
        have hlength := congrArg List.length hsame
        simp only [length_append, length_mapIdx, length_take,
          length_drop] at hlength
        have hzero : offset.toNat = 0 := by omega
        have hstart : offset = 0 := by omega
        subst hstart
        simp only [Int.toNat_zero, Nat.zero_add, drop_zero] at hkget haccept hsame
        refine .inr (.inr ⟨rfl, k, hk20, ⟨slot, hkget, hreject⟩, fun i hi slot' hslot' => ⟨?_, ?_⟩⟩)
        · refine haccept i hi slot' ?_
          rw [List.getElem?_take, if_pos (hi.trans hk20)]
          exact hslot'
        · exact (mapIdx_take_append_eq_self_iff hk20.le _).1 hsame i hi slot' hslot'
      · rintro (hbad | hnone | ⟨rfl, k', hk', ⟨slot', hslot', hreject'⟩, haccept'⟩)
        · exact absurd hbad hoffset
        · exact absurd hreject (hnone k hk20 slot hkget)
        · simp only [Int.toNat_zero, Nat.zero_add, drop_zero] at hkget haccept ⊢
          have hle : k ≤ k' := by
            by_contra hlt
            refine haccept k' (by omega) slot' ?_ hreject'
            rw [List.getElem?_take, if_pos hk']
            exact hslot'
          rw [mapIdx_take_append_eq_self_iff hk20.le]
          intro i hi slot'' hslot''
          exact (haccept' i (hi.trans_le hle) slot'' hslot'').2

end Update

/-- A call that changes a validator. -/
inductive Call (Sig : Type*) where
  | addPending (signature : Option Sig)
  | applyOffset (offset : ℤ)
  | applyUpdate (acknowledged : Acknowledged) (offset : ℤ) (checksum : BitVec 8)

variable [DecidableEq Sig]

def perform (validator : LastSeenMessagesValidator Sig) : Call Sig → LastSeenMessagesValidator Sig
  | .addPending signature => validator.addPending signature
  | .applyOffset offset => (validator.applyOffset offset).toOption.getD validator
  | .applyUpdate acknowledged offset checksum =>
    (validator.applyUpdate acknowledged offset checksum).1

def afterCalls (calls : List (Call Sig)) : LastSeenMessagesValidator Sig :=
  calls.foldl perform new

/-- After any calls, an update that is rejected has changed nothing, and one that is accepted has
done just what it says, if and only if it is harmless. -/
theorem applyUpdate_exact_iff_harmless (calls : List (Call Sig)) (acknowledged : Acknowledged)
    (offset : ℤ) (checksum : BitVec 8) :
    Exact acknowledged offset (afterCalls calls)
        ((afterCalls calls).applyUpdate acknowledged offset checksum).1
        ((afterCalls calls).applyUpdate acknowledged offset checksum).2 ↔
      Harmless (afterCalls calls) acknowledged offset :=
  applyUpdate_exact_iff _ _ _ _

/-- One message has been sent, and the client acknowledges it in the wrong place: the entry that the
offset removes is gone, though the update is rejected. -/
theorem applyUpdate_not_exact :
    ¬ ∀ (calls : List (Call ℕ)) (acknowledged : Acknowledged) (offset : ℤ) (checksum : BitVec 8),
      Exact acknowledged offset (afterCalls calls)
        ((afterCalls calls).applyUpdate acknowledged offset checksum).1
        ((afterCalls calls).applyUpdate acknowledged offset checksum).2 := by
  intro hexact
  have h := hexact [.addPending (some 0)] (fun _ => 1#8) 1 0#8
  exact absurd (congrArg List.length h) (by decide)

end LastSeenMessagesValidator

end Steel
