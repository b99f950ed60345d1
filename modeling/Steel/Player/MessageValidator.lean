import Mathlib.Data.List.Forall2
import Mathlib.Order.Nat
import Steel.Lib.Run

/-! # Acknowledged chat messages

The server tracks the signatures that it has sent, and the client the last twenty that it has
received.
-/

namespace Steel

open List Option Nat

variable {Sig : Type*}

def maxTrackedMessages : ℕ := 20

/-- A signature that has been sent, pending until the client has acknowledged it. -/
structure TrackedEntry (Sig : Type*) where
  signature : Option Sig
  pending : Bool

def TrackedEntry.acknowledge (entry : TrackedEntry Sig) : TrackedEntry Sig :=
  ⟨entry.signature, false⟩

/-- What the server can find wrong with an acknowledgement. -/
inductive LastSeenError where
  | advanced (offset : ℤ) (removable : ℕ)
  | acknowledgedUnknown (index : ℕ)
  | ignoredAcknowledged (index : ℕ)
  deriving DecidableEq

def LastSeenError.message : LastSeenError → String
  | advanced offset removable =>
    s!"Advanced last seen window by {offset} messages, but expected at most {removable}"
  | acknowledgedUnknown index =>
    s!"Last seen update acknowledged unknown or previously ignored message at index {index}"
  | ignoredAcknowledged index =>
    s!"Last seen update ignored previously acknowledged message at index {index}"

structure LastSeenMessagesValidator (Sig : Type*) where
  trackedMessages : List (Option (TrackedEntry Sig))
  lastPendingSignature : Option Sig

abbrev Acknowledged : Type := Fin 3 → BitVec 8

def Acknowledged.isAcknowledged (acknowledged : Acknowledged) (index : ℕ) : Bool :=
  acknowledged (Fin.ofNat 3 (index / 8)) &&& (1#8 <<< (index % 8)) != 0#8

namespace LastSeenMessagesValidator

def new : LastSeenMessagesValidator Sig := ⟨List.replicate maxTrackedMessages none, none⟩

def addPending [DecidableEq Sig] (validator : LastSeenMessagesValidator Sig)
    (signature : Option Sig) : LastSeenMessagesValidator Sig :=
  if signature ≠ validator.lastPendingSignature then
    ⟨validator.trackedMessages ++ [some ⟨signature, true⟩], signature⟩
  else validator

variable (validator : LastSeenMessagesValidator Sig)

def applyOffset (offset : ℤ) : Except LastSeenError (LastSeenMessagesValidator Sig) :=
  let removable := validator.trackedMessages.length - maxTrackedMessages
  if offset < 0 ∨ removable < offset.toNat then .error (.advanced offset removable)
  else .ok { validator with trackedMessages := validator.trackedMessages.drop offset.toNat }

/-- The loop of `apply_update` over the window, from an index on. At an error it leaves the rest of
the window as it was. -/
def updateWindow (acknowledged : Acknowledged) : ℕ → List (Option (TrackedEntry Sig)) →
    List (Option (TrackedEntry Sig)) × Except LastSeenError (List Sig)
  | _, [] => ([], .ok [])
  | index, slot :: rest =>
    let updated := updateWindow acknowledged (index + 1) rest
    if acknowledged.isAcknowledged index then
      match slot with
      | some entry =>
        (some entry.acknowledge :: updated.1, updated.2.map (entry.signature.toList ++ ·))
      | none => (none :: rest, .error (.acknowledgedUnknown index))
    else
      match slot with
      | some entry =>
        if !entry.pending then (some entry :: rest, .error (.ignoredAcknowledged index))
        else (none :: updated.1, updated.2)
      | none => (none :: updated.1, updated.2)

def applyUpdate (acknowledged : Acknowledged) (offset : ℤ) (_checksum : BitVec 8) :
    LastSeenMessagesValidator Sig × Except LastSeenError (List Sig) :=
  match validator.applyOffset offset with
  | .error error => (validator, .error error)
  | .ok validator =>
    let updated := updateWindow acknowledged 0 (validator.trackedMessages.take maxTrackedMessages)
    ({ validator with
      trackedMessages := updated.1 ++ validator.trackedMessages.drop maxTrackedMessages },
      updated.2)

end LastSeenMessagesValidator

open LastSeenMessagesValidator (updateWindow applyOffset addPending applyUpdate)

/-- The last messages that a client has received, the oldest first; a hidden one is nothing. -/
structure LastSeenMessagesTracker (Sig : Type*) where
  ring : List (Option Sig)
  offset : ℕ
  lastTracked : Option Sig

namespace LastSeenMessagesTracker

def new : LastSeenMessagesTracker Sig := ⟨List.replicate maxTrackedMessages none, 0, none⟩

def receive [DecidableEq Sig] (tracker : LastSeenMessagesTracker Sig) (signature : Sig)
    (displayed : Bool) : LastSeenMessagesTracker Sig :=
  if some signature = tracker.lastTracked then tracker
  else ⟨tracker.ring.tail ++ [if displayed then some signature else none], tracker.offset + 1,
    some signature⟩

variable (tracker : LastSeenMessagesTracker Sig)

def acknowledged : Acknowledged := fun byte =>
  (BitVec.ofBoolListLE ((List.range 8).map fun bit =>
    (tracker.ring[(byte : ℕ) * 8 + bit]?.join).isSome)).setWidth 8

def signatures : List Sig := tracker.ring.filterMap id

def clearOffset : LastSeenMessagesTracker Sig :=
  { tracker with offset := 0 }

end LastSeenMessagesTracker

/-- A packet of the client. A chat packet is kept with the tracker that it was sent from. -/
inductive ChatPacket (Sig : Type*) where
  | chat (tracker : LastSeenMessagesTracker Sig) (checksum : BitVec 8)
  | ack (offset : ℕ)

/-- A client and the server, with the messages and the packets that are under way. -/
structure ChatConnection (Sig : Type*) where
  server : LastSeenMessagesValidator Sig
  client : LastSeenMessagesTracker Sig
  toClient : List Sig
  toServer : List (ChatPacket Sig)

inductive ChatAction (Sig : Type*) where
  /-- The server sends a signed message. -/
  | broadcast (signature : Sig)
  /-- The client receives the next message. -/
  | deliverMessage (displayed : Bool)
  | sendChat (checksum : BitVec 8)
  | sendAck
  /-- The server receives the next packet. -/
  | deliverPacket

namespace ChatConnection

def new : ChatConnection Sig := ⟨.new, .new, [], []⟩

def handlePacket (server : LastSeenMessagesValidator Sig) :
    ChatPacket Sig → LastSeenMessagesValidator Sig × Except LastSeenError (List Sig)
  | .chat tracker checksum => server.applyUpdate tracker.acknowledged tracker.offset checksum
  | .ack offset =>
    match server.applyOffset offset with
    | .error error => (server, .error error)
    | .ok server => (server, .ok [])

def step [DecidableEq Sig] (connection : ChatConnection Sig) : ChatAction Sig → ChatConnection Sig
  | .broadcast signature => { connection with
      server := connection.server.addPending (some signature)
      toClient := connection.toClient ++ [signature] }
  | .deliverMessage displayed =>
    match connection.toClient with
    | [] => connection
    | signature :: toClient => { connection with
        client := connection.client.receive signature displayed
        toClient := toClient }
  | .sendChat checksum => { connection with
      client := connection.client.clearOffset
      toServer := connection.toServer ++ [.chat connection.client checksum] }
  | .sendAck => { connection with
      client := connection.client.clearOffset
      toServer := connection.toServer ++ [.ack connection.client.offset] }
  | .deliverPacket =>
    match connection.toServer with
    | [] => connection
    | packet :: toServer => { connection with
        server := (handlePacket connection.server packet).1
        toServer := toServer }

end ChatConnection

/-- What the server may keep for a place in the window of the client. -/
def SlotMatches : Option (TrackedEntry Sig) → Option Sig → Prop
  | none, none => True
  | none, some _ => False
  | some entry, some signature => entry.signature = some signature
  | some entry, none => entry.pending = true

theorem isAcknowledged_eq (acknowledged : Acknowledged) (index : ℕ) :
    acknowledged.isAcknowledged index =
      (acknowledged (Fin.ofNat 3 (index / 8))).getLsbD (index % 8) := by
  have hbit : ∀ (byte : BitVec 8) (bit : Fin 8),
      (byte &&& (1#8 <<< (bit : ℕ)) != 0#8) = byte.getLsbD bit := by
    decide +kernel
  exact hbit _ ⟨index % 8, mod_lt _ (by decide)⟩

theorem LastSeenMessagesTracker.isAcknowledged {tracker : LastSeenMessagesTracker Sig}
    {index : ℕ} (hlt : index < maxTrackedMessages) :
    tracker.acknowledged.isAcknowledged index = (tracker.ring[index]?.join).isSome := by
  unfold maxTrackedMessages at hlt
  have hbit : index % 8 < 8 := mod_lt _ (by decide)
  have hbyte : index / 8 % 3 = index / 8 := mod_eq_of_lt (by omega)
  rw [isAcknowledged_eq, acknowledged, BitVec.getLsbD_setWidth, BitVec.getLsbD_ofBoolListLE]
  simp [hbit, Fin.ofNat, hbyte, div_add_mod']

/-- The server understands a window that matches that of the client, and it still does then. -/
theorem updateWindow_spec {acknowledged : Acknowledged} {window : List (Option (TrackedEntry Sig))}
    {ring : List (Option Sig)} (h : List.Forall₂ SlotMatches window ring) {index : ℕ}
    (hbits : ∀ i < ring.length,
      acknowledged.isAcknowledged (index + i) = (ring[i]?.join).isSome) :
    (updateWindow acknowledged index window).2 =
      .ok (ring.filterMap id) ∧
    List.Forall₂ SlotMatches
      (updateWindow acknowledged index window).1 ring := by
  induction h generalizing index with
  | nil => exact ⟨rfl, .nil⟩
  | @cons slot place window ring hslot hrest ih =>
    have hbit := hbits 0 (Nat.zero_lt_succ _)
    obtain ⟨hresult, hmatches⟩ := @ih (index + 1) fun i hi => by
      have hbit := hbits (i + 1) (Nat.succ_lt_succ hi)
      rwa [List.getElem?_cons_succ, show index + (i + 1) = index + 1 + i by omega] at hbit
    simp only [Nat.add_zero, List.getElem?_cons_zero, join_some] at hbit
    unfold updateWindow
    simp only [hbit, hresult]
    cases place with
    | none =>
      cases slot with
      | none => exact ⟨rfl, .cons trivial hmatches⟩
      | some entry =>
        have hpending : entry.pending = true := hslot
        simp only [hpending, isSome_none, Bool.false_eq_true, if_false, Bool.not_true]
        exact ⟨rfl, .cons trivial hmatches⟩
    | some signature =>
      cases slot with
      | none => cases hslot
      | some entry =>
        have hsignature : entry.signature = some signature := hslot
        simp only [isSome_some, if_true, hsignature]
        exact ⟨rfl, .cons hsignature hmatches⟩

namespace ChatConnection

section Pending

variable [DecidableEq Sig]

/-- The messages under way that will move the window of the client. -/
def newMessages : Option Sig → List Sig → List Sig
  | _, [] => []
  | last, signature :: messages =>
    if some signature = last then newMessages last messages
    else signature :: newMessages (some signature) messages

theorem newMessages_concat (last : Option Sig) (messages : List Sig) (signature : Sig) :
    newMessages last (messages ++ [signature]) = newMessages last messages ++
      if some signature = messages.getLast?.or last then [] else [signature] := by
  induction messages generalizing last with
  | nil =>
    by_cases hsame : some signature = last
    · simp [newMessages, hsame]
    · simp [newMessages, hsame]
  | cons message messages ih =>
    have hlast :
        ((message :: messages).getLast?.or last) = messages.getLast?.or (some message) := by
      rw [List.getLast?_cons]
      cases messages.getLast? with
      | none => rfl
      | some _ => rfl
    rw [hlast]
    by_cases hsame : some message = last
    · subst hsame
      simp only [cons_append, newMessages, if_true]
      exact ih (some message)
    · simp only [cons_append, newMessages, hsame, if_false, List.cons.injEq, true_and]
      exact ih (some message)

end Pending

/-- The packets under way fit to the history of the client from the window of the server on. -/
def Fits : List (Option Sig) → List (ChatPacket Sig) → LastSeenMessagesTracker Sig → Prop
  | history, [], client => history.length = client.offset + maxTrackedMessages ∧
      client.ring = history.drop client.offset
  | history, .chat tracker _ :: packets, client =>
      tracker.offset + maxTrackedMessages ≤ history.length ∧
      tracker.ring = (history.drop tracker.offset).take maxTrackedMessages ∧
      Fits (history.drop tracker.offset) packets client
  | history, .ack offset :: packets, client => offset + maxTrackedMessages ≤ history.length ∧
      Fits (history.drop offset) packets client

variable {history : List (Option Sig)} {packets : List (ChatPacket Sig)} {packet : ChatPacket Sig}

variable {client : LastSeenMessagesTracker Sig}

theorem Fits.receive (h : Fits history packets client) (place : Option Sig) (last : Option Sig) :
    Fits (history ++ [place]) packets ⟨client.ring.tail ++ [place], client.offset + 1, last⟩ := by
  induction packets generalizing history with
  | nil =>
    obtain ⟨hlength, hring⟩ := h
    constructor
    · rw [length_append, length_singleton, hlength]
      simp only
      omega
    · simp only
      rw [hring, tail_drop, drop_append_of_le_length]
      unfold maxTrackedMessages at hlength
      omega
  | cons packet packets ih =>
    cases packet with
    | chat tracker checksum =>
      obtain ⟨hle, hring, hrest⟩ := h
      refine ⟨?_, ?_, ?_⟩
      · rw [length_append]
        omega
      · rw [drop_append_of_le_length (by omega), take_append_of_le_length, hring]
        rw [length_drop]
        omega
      · rw [drop_append_of_le_length (by omega)]
        exact ih hrest
    | ack offset =>
      obtain ⟨hle, hrest⟩ := h
      refine ⟨?_, ?_⟩
      · rw [length_append]
        omega
      · rw [drop_append_of_le_length (by omega)]
        exact ih hrest

theorem Fits.send (h : Fits history packets client)
    (hpacket : packet = .ack client.offset ∨ ∃ checksum, packet = .chat client checksum) :
    Fits history (packets ++ [packet]) client.clearOffset := by
  induction packets generalizing history with
  | nil =>
    obtain ⟨hlength, hring⟩ := h
    have hend : Fits (history.drop client.offset) [] client.clearOffset := by
      constructor
      · rw [length_drop, hlength]
        simp only [LastSeenMessagesTracker.clearOffset]
        omega
      · exact hring
    rcases hpacket with rfl | ⟨checksum, rfl⟩
    · exact ⟨by omega, hend⟩
    · refine ⟨by omega, ?_, hend⟩
      rw [take_of_length_le, hring]
      rw [length_drop]
      omega
  | cons first packets ih =>
    cases first with
    | chat tracker checksum => exact ⟨h.1, h.2.1, ih h.2.2⟩
    | ack offset => exact ⟨h.1, ih h.2⟩

theorem applyOffset_eq {server : LastSeenMessagesValidator Sig} {offset : ℕ}
    (h : offset + maxTrackedMessages ≤ server.trackedMessages.length) :
    server.applyOffset offset =
      .ok { server with trackedMessages := server.trackedMessages.drop offset } := by
  unfold applyOffset
  rw [if_neg, Int.toNat_natCast]
  rw [Int.toNat_natCast]
  omega

theorem drop_tracked {slots : List (Option (TrackedEntry Sig))} {offset : ℕ}
    (hmatches : List.Forall₂ SlotMatches slots history)
    (hle : offset + maxTrackedMessages ≤ history.length)
    (pending : List (Option (TrackedEntry Sig))) :
    offset + maxTrackedMessages ≤ (slots ++ pending).length ∧
      (slots ++ pending).drop offset = slots.drop offset ++ pending ∧
      List.Forall₂ SlotMatches (slots.drop offset) (history.drop offset) := by
  have hlength := hmatches.length_eq
  refine ⟨?_, drop_append_of_le_length (by omega), forall₂_drop _ hmatches⟩
  rw [length_append]
  omega

variable [DecidableEq Sig]

/-- The window of the server: what the client has received, and then what is under way to it. -/
structure Invariant (connection : ChatConnection Sig) : Prop where
  tracked : ∃ history slots, List.Forall₂ SlotMatches slots history ∧
    Fits history connection.toServer connection.client ∧
    connection.server.trackedMessages = slots ++
      (newMessages connection.client.lastTracked connection.toClient).map
        fun signature => some ⟨some signature, true⟩
  last : connection.server.lastPendingSignature =
    connection.toClient.getLast?.or connection.client.lastTracked

theorem invariant_new : (new : ChatConnection Sig).Invariant := by
  have hempty : ∀ n, List.Forall₂ SlotMatches (List.replicate n (none : Option (TrackedEntry Sig)))
      (List.replicate n none) := by
    intro n
    induction n with
    | zero => exact .nil
    | succ n ih => exact .cons trivial ih
  exact ⟨⟨_, _, hempty maxTrackedMessages, ⟨rfl, rfl⟩, (append_nil _).symm⟩, rfl⟩

variable {connection : ChatConnection Sig}

theorem Invariant.broadcast (h : connection.Invariant) (signature : Sig) :
    (connection.step (.broadcast signature)).Invariant := by
  obtain ⟨⟨history, slots, hmatches, hfits, htracked⟩, hlast⟩ := h
  constructor
  · refine ⟨history, slots, hmatches, hfits, ?_⟩
    simp only [step, newMessages_concat, ← hlast, addPending]
    by_cases hsame : some signature = connection.server.lastPendingSignature
    · simp only [hsame, ne_eq, not_true_eq_false, if_false, if_true, append_nil]
      exact htracked
    · simp only [hsame, ne_eq, not_false_eq_true, if_true, if_false, map_append]
      rw [htracked, append_assoc]
      rfl
  · simp only [step, addPending, List.getLast?_append,
      List.getLast?_singleton, some_or]
    split_ifs with hsame
    · rfl
    · exact (not_not.1 hsame).symm

theorem Invariant.deliverMessage (h : connection.Invariant) (displayed : Bool) :
    (connection.step (.deliverMessage displayed)).Invariant := by
  obtain ⟨⟨history, slots, hmatches, hfits, htracked⟩, hlast⟩ := h
  unfold step
  cases hmessages : connection.toClient with
  | nil => exact ⟨⟨history, slots, hmatches, hfits, htracked⟩, hlast⟩
  | cons signature messages =>
    rw [hmessages] at htracked hlast
    have hlast' : connection.server.lastPendingSignature =
        messages.getLast?.or (some signature) := by
      rw [hlast, List.getLast?_cons]
      cases messages.getLast? with
      | none => rfl
      | some _ => rfl
    by_cases hsame : some signature = connection.client.lastTracked
    · have hreceive : connection.client.receive signature displayed = connection.client :=
        if_pos hsame
      simp only [newMessages, hsame, if_true] at htracked
      simp only [hreceive]
      refine ⟨⟨history, slots, hmatches, hfits, htracked⟩, ?_⟩
      rw [← hsame]
      exact hlast'
    · simp only [newMessages, hsame, if_false, map_cons] at htracked
      simp only [LastSeenMessagesTracker.receive, hsame, if_false]
      refine ⟨⟨_, slots ++ [some ⟨some signature, true⟩], ?_, hfits.receive _ _, ?_⟩, hlast'⟩
      · refine rel_append hmatches (.cons ?_ .nil)
        cases displayed with
        | true => exact rfl
        | false => exact rfl
      · rw [htracked, append_assoc]
        rfl

theorem Invariant.send (h : connection.Invariant)
    (hpacket : packet = .ack connection.client.offset ∨
      ∃ checksum, packet = .chat connection.client checksum) :
    Invariant { connection with
      client := connection.client.clearOffset
      toServer := connection.toServer ++ [packet] } := by
  obtain ⟨⟨history, slots, hmatches, hfits, htracked⟩, hlast⟩ := h
  exact ⟨⟨history, slots, hmatches, hfits.send hpacket, htracked⟩, hlast⟩

def Accepts (result : Except LastSeenError (List Sig)) : ChatPacket Sig → Prop
  | .chat tracker _ => result = .ok tracker.signatures
  | .ack _ => result = .ok []

theorem Invariant.handlePacket (h : connection.Invariant)
    (hnext : connection.toServer = packet :: packets) :
    Accepts (ChatConnection.handlePacket connection.server packet).2 packet ∧
      (connection.step .deliverPacket).Invariant := by
  obtain ⟨⟨history, slots, hmatches, hfits, htracked⟩, hlast⟩ := h
  rw [hnext] at hfits
  unfold step
  rw [hnext]
  cases packet with
  | ack offset =>
    obtain ⟨hle, hrest⟩ := hfits
    obtain ⟨hroom, hdrop, hmatches'⟩ := drop_tracked hmatches hle
      ((newMessages connection.client.lastTracked connection.toClient).map
        fun signature => some ⟨some signature, true⟩)
    rw [← htracked] at hroom hdrop
    simp only [ChatConnection.handlePacket, applyOffset_eq hroom]
    exact ⟨rfl, ⟨_, _, hmatches', hrest, hdrop⟩, hlast⟩
  | chat tracker checksum =>
    obtain ⟨hle, hring, hrest⟩ := hfits
    obtain ⟨hroom, hdrop, hmatches'⟩ := drop_tracked hmatches hle
      ((newMessages connection.client.lastTracked connection.toClient).map
        fun signature => some ⟨some signature, true⟩)
    rw [← htracked] at hroom hdrop
    have hlength := hmatches'.length_eq
    have hlong : maxTrackedMessages ≤ (slots.drop tracker.offset).length := by
      rw [hlength, length_drop]
      omega
    obtain ⟨hresult, hupdated⟩ := @updateWindow_spec Sig tracker.acknowledged _ _
      (forall₂_take maxTrackedMessages hmatches') 0 fun i hi => by
        rw [Nat.zero_add, ← hring]
        refine tracker.isAcknowledged (Nat.lt_of_lt_of_le hi ?_)
        exact length_take_le _ _
    simp only [ChatConnection.handlePacket, applyUpdate,
      applyOffset_eq hroom, hdrop]
    rw [take_append_of_le_length hlong, drop_append_of_le_length hlong]
    constructor
    · rw [Accepts, hresult, LastSeenMessagesTracker.signatures, hring]
    · refine ⟨⟨_, _, ?_, hrest, (append_assoc _ _ _).symm⟩, hlast⟩
      rw [← take_append_drop maxTrackedMessages (history.drop tracker.offset)]
      exact rel_append hupdated (forall₂_drop _ hmatches')

theorem Invariant.step (h : connection.Invariant) (action : ChatAction Sig) :
    (connection.step action).Invariant := by
  cases action with
  | broadcast signature => exact h.broadcast signature
  | deliverMessage displayed => exact h.deliverMessage displayed
  | sendChat checksum => exact h.send (.inr ⟨checksum, rfl⟩)
  | sendAck => exact h.send (.inl rfl)
  | deliverPacket =>
    cases hnext : connection.toServer with
    | nil =>
      simp only [ChatConnection.step, hnext]
      exact h
    | cons packet packets => exact (h.handlePacket hnext).2

theorem invariant_runSteps (actions : List (ChatAction Sig)) :
    (runSteps step new actions).Invariant := by
  have hguarded : Guarded step (fun _ _ => True) (new : ChatConnection Sig) actions :=
    guarded_of_forall fun _ _ _ => trivial
  exact hguarded.invariant (fun _ action hi _ => hi.step action) invariant_new

/-- Whatever is under way, the server accepts the next packet of the client, and of a chat packet it
reads the signatures that the client had when it sent it. -/
theorem handlePacket_accepts (actions : List (ChatAction Sig)) (packet : ChatPacket Sig)
    (packets : List (ChatPacket Sig))
    (hnext : (runSteps step new actions).toServer = packet :: packets) :
    Accepts (handlePacket (runSteps step new actions).server packet).2 packet :=
  ((invariant_runSteps actions).handlePacket hnext).1

/-- Two messages are sent, the client hides the second one and answers, and a third one is sent
before the answer arrives. -/
def hiddenMessage : List (ChatAction ℕ) :=
  [.broadcast 1, .broadcast 2, .deliverMessage true, .deliverMessage false, .sendChat 0#8,
    .broadcast 3]

theorem handlePacket_accepts_hiddenMessage :
    ∃ tracker, Accepts (handlePacket (runSteps step new hiddenMessage).server (.chat tracker 0#8)).2
      (.chat tracker 0#8) ∧ tracker.signatures = [1] := by
  have hnext : (runSteps step new hiddenMessage).toServer = [.chat
      ((new.client.receive 1 true).receive 2 false) 0#8] := rfl
  exact ⟨_, handlePacket_accepts hiddenMessage _ [] hnext, by decide⟩

end ChatConnection

end Steel
