import Mathlib.Data.List.Nodup
import Mathlib.Data.List.Perm.Subperm
import Mathlib.Order.Nat
import Steel.Lib.Run

/-! # The signature cache of a recipient

The server keeps a copy of the signature cache of each client and sends places in it instead of
whole signatures.
-/

namespace Steel

open List Nat

variable {Sig : Type*}

def maxCachedSignatures : ℕ := 128

/-- A previous message in a chat packet: a place in the cache of the recipient counted from one, or
zero and the whole signature. -/
structure PreviousMessageEntry (Sig : Type*) where
  id : ℤ
  signature : Option Sig
  deriving DecidableEq

/-- The signatures that a recipient has cached, the most recent first. -/
structure MessageCache (Sig : Type*) where
  fullCache : List Sig

/-- The cache as a client has it. -/
structure ClientSignatureCache (Sig : Type*) where
  entries : List (Option Sig)

/-- A signed message with what its sender has seen. -/
structure SignedMessage (Sig : Type*) where
  lastSeen : List Sig
  signature : Sig

def SignedMessage.pushed (message : SignedMessage Sig) : List Sig :=
  message.lastSeen ++ [message.signature]

/-- The array of the given size that a list fills from the front. -/
def signatureArray (slots : ℕ) (fullCache : List Sig) : List (Option Sig) :=
  fullCache.map some ++ List.replicate (slots - fullCache.length) none

section Array

variable {fullCache : List Sig} {slots : ℕ}

theorem signatureArray_cons {signature : Sig} :
    signatureArray (slots + 1) (signature :: fullCache) =
      some signature :: signatureArray slots fullCache := by
  simp [signatureArray]

theorem signatureArray_nil : @signatureArray Sig (slots + 1) [] =
    none :: signatureArray slots [] := by
  simp [signatureArray, replicate_succ]

theorem perm_getLast {deque : List Sig} {newEntry : Sig} (h : deque.getLast? = some newEntry) :
    deque.Perm (newEntry :: deque.dropLast) := by
  obtain ⟨front, rfl⟩ := List.getLast?_eq_some_iff.1 h
  rw [dropLast_concat]
  exact perm_append_singleton newEntry front

theorem getElem?_signatureArray {index : ℕ} {signature : Sig}
    (h : fullCache[index]? = some signature) :
    (signatureArray slots fullCache)[index]? = some (some signature) := by
  obtain ⟨hlt, _⟩ := List.getElem?_eq_some_iff.1 h
  rw [signatureArray, List.getElem?_append_left (by simpa using hlt), List.getElem?_map, h]
  rfl

end Array

section Push

variable [DecidableEq Sig]

/-- The signature that was in a place is put in front of the queue unless it is pushed anyway. -/
def carryOn (pushSet : List Sig) (old : Option Sig) (deque : List Sig) : List Sig :=
  match old with
  | none => deque
  | some old => if old ∈ pushSet then deque else old :: deque

namespace MessageCache

def new : MessageCache Sig := ⟨[]⟩

/-- The loop of `push`: each place takes the last signature of the queue, and the loop ends when the
queue is empty. -/
def pushLoop (pushSet : List Sig) : ℕ → List Sig → List Sig → List Sig
  | 0, _, _ => []
  | slots + 1, deque, fullCache =>
    match deque.getLast? with
    | none => []
    | some newEntry =>
      newEntry :: pushLoop pushSet slots (carryOn pushSet fullCache.head? deque.dropLast)
        fullCache.tail

variable (cache : MessageCache Sig)

def push (lastSeen : List Sig) (signature : Sig) : MessageCache Sig :=
  ⟨pushLoop (lastSeen ++ [signature]) maxCachedSignatures (lastSeen ++ [signature]) cache.fullCache⟩

def indexPreviousMessages (senderLastSeen : List Sig) : List (PreviousMessageEntry Sig) :=
  senderLastSeen.map fun signature =>
    match cache.fullCache.idxOf? signature with
    | some index => ⟨1 + index, none⟩
    | none => ⟨0, some signature⟩

end MessageCache

namespace ClientSignatureCache

def new : ClientSignatureCache Sig := ⟨List.replicate maxCachedSignatures none⟩

/-- The client replaces its entries in place and leaves the rest of the array alone. -/
def pushLoop (pushSet : List Sig) : List Sig → List (Option Sig) → List (Option Sig)
  | _, [] => []
  | deque, old :: rest =>
    match deque.getLast? with
    | none => old :: rest
    | some newEntry => some newEntry :: pushLoop pushSet (carryOn pushSet old deque.dropLast) rest

variable (client : ClientSignatureCache Sig)

def push (lastSeen : List Sig) (signature : Sig) : ClientSignatureCache Sig :=
  ⟨pushLoop (lastSeen ++ [signature]) (lastSeen ++ [signature]) client.entries⟩

def unpackEntry (entry : PreviousMessageEntry Sig) : Option Sig :=
  if entry.id = 0 then entry.signature else client.entries[(entry.id - 1).toNat]?.join

def unpack (previousMessages : List (PreviousMessageEntry Sig)) : Option (List Sig) :=
  previousMessages.mapM client.unpackEntry

end ClientSignatureCache

/-- The caches for one recipient. -/
structure SignatureCaches (Sig : Type*) where
  server : MessageCache Sig
  client : ClientSignatureCache Sig

namespace SignatureCaches

def new : SignatureCaches Sig := ⟨.new, .new⟩

/-- `broadcast_chat` for one recipient: the packet is built before the cache is updated, and the
client updates its own cache with what it reads. -/
def broadcastChat (caches : SignatureCaches Sig) (message : SignedMessage Sig) :
    SignatureCaches Sig where
  server := caches.server.push message.lastSeen message.signature
  client :=
    match caches.client.unpack (caches.server.indexPreviousMessages message.lastSeen) with
    | none => caches.client
    | some lastSeen => caches.client.push lastSeen message.signature

end SignatureCaches

def Lasts (pushSet deque fullCache : List Sig) : Prop :=
  fullCache = [] ∨ fullCache.dropLast.countP (· ∈ pushSet) < deque.length

instance (pushSet deque fullCache : List Sig) : Decidable (Lasts pushSet deque fullCache) :=
  inferInstanceAs (Decidable (_ ∨ _))

variable {pushSet deque fullCache : List Sig} {slots : ℕ}

theorem MessageCache.length_pushLoop_le :
    (MessageCache.pushLoop pushSet slots deque fullCache).length ≤ slots := by
  induction slots generalizing deque fullCache with
  | zero => exact le_refl 0
  | succ slots ih =>
    unfold MessageCache.pushLoop
    cases deque.getLast? with
    | none => exact zero_le _
    | some newEntry => exact succ_le_succ ih

theorem lasts_carryOn {signature : Sig} (hdeque : deque ≠ []) :
    Lasts pushSet (carryOn pushSet (some signature) deque.dropLast) fullCache ↔
      Lasts pushSet deque (signature :: fullCache) := by
  have hpos := length_pos_of_ne_nil hdeque
  unfold Lasts
  cases fullCache with
  | nil => simpa using hpos
  | cons next rest =>
    simp only [dropLast_cons_cons, reduceCtorEq, false_or, carryOn, countP_cons]
    by_cases hmem : signature ∈ pushSet
    · simp only [hmem, if_true, length_dropLast, decide_true]
      omega
    · simp only [hmem, if_false, length_cons, length_dropLast, decide_false, Bool.false_eq_true]
      omega

theorem signatureArray_pushLoop (h : fullCache.length ≤ slots) :
    signatureArray slots (MessageCache.pushLoop pushSet slots deque fullCache) =
      ClientSignatureCache.pushLoop pushSet deque (signatureArray slots fullCache) ↔
        Lasts pushSet deque fullCache := by
  induction slots generalizing deque fullCache with
  | zero =>
    obtain rfl := length_eq_zero_iff.1 (le_zero.1 h)
    simp [MessageCache.pushLoop, signatureArray, ClientSignatureCache.pushLoop, Lasts]
  | succ slots ih =>
    cases hlast : deque.getLast? with
    | none =>
      obtain rfl := List.getLast?_eq_none_iff.1 hlast
      cases fullCache with
      | nil =>
        rw [signatureArray_nil]
        simp [MessageCache.pushLoop, ClientSignatureCache.pushLoop, Lasts, signatureArray_nil]
      | cons signature rest =>
        rw [signatureArray_cons]
        simp [MessageCache.pushLoop, ClientSignatureCache.pushLoop, Lasts, signatureArray_nil]
    | some newEntry =>
      have hdeque : deque ≠ [] := by
        rintro rfl
        cases hlast
      cases fullCache with
      | nil =>
        rw [signatureArray_nil]
        simp only [MessageCache.pushLoop, ClientSignatureCache.pushLoop, hlast, signatureArray_cons,
          List.head?_nil, tail_nil, List.cons.injEq, true_and]
        rw [ih (zero_le _)]
        simp [Lasts]
      | cons signature rest =>
        rw [signatureArray_cons]
        simp only [MessageCache.pushLoop, ClientSignatureCache.pushLoop, hlast, signatureArray_cons,
          List.head?_cons, tail_cons, List.cons.injEq, true_and]
        rw [ih (le_of_succ_le_succ h), lasts_carryOn hdeque]

theorem MessageCache.pushLoop_subperm :
    (MessageCache.pushLoop pushSet slots deque fullCache).Subperm
      (deque ++ fullCache.filter (· ∉ pushSet)) := by
  induction slots generalizing deque fullCache with
  | zero => exact nil_subperm
  | succ slots ih =>
    unfold MessageCache.pushLoop
    cases hlast : deque.getLast? with
    | none => exact nil_subperm
    | some newEntry =>
      have hperm := (perm_getLast hlast).append_right (fullCache.filter (· ∉ pushSet))
      rw [hperm.subperm_left, cons_append, subperm_cons]
      refine ih.trans (List.Perm.subperm ?_)
      cases fullCache with
      | nil => exact .refl _
      | cons signature rest =>
        by_cases hmem : signature ∈ pushSet
        · simp [carryOn, hmem]
        · simp only [carryOn, List.head?_cons, hmem, if_false, tail_cons, not_false_eq_true,
            decide_true, filter_cons_of_pos]
          exact perm_middle.symm

theorem MessageCache.nodup_push {cache : MessageCache Sig} {lastSeen : List Sig} {signature : Sig}
    (hcache : cache.fullCache.Nodup) (hpushed : (lastSeen ++ [signature]).Nodup) :
    (cache.push lastSeen signature).fullCache.Nodup := by
  have hall : ((lastSeen ++ [signature]) ++
      cache.fullCache.filter (· ∉ lastSeen ++ [signature])).Nodup := by
    refine hpushed.append (hcache.filter _) fun s hs hs' => ?_
    rw [mem_filter, decide_eq_true_iff] at hs'
    exact hs'.2 hs
  rw [nodup_iff_count_le_one] at hall ⊢
  exact fun s => (pushLoop_subperm.count_le s).trans (hall s)

theorem unpack_indexPreviousMessages {cache : MessageCache Sig} {client : ClientSignatureCache Sig}
    (h : client.entries = signatureArray slots cache.fullCache) (senderLastSeen : List Sig) :
    client.unpack (cache.indexPreviousMessages senderLastSeen) = some senderLastSeen := by
  have hentry : ∀ signature : Sig, client.unpackEntry (match cache.fullCache.idxOf? signature with
        | some index => ⟨1 + index, none⟩
        | none => ⟨0, some signature⟩) = pure (id signature) := by
    intro signature
    cases hindex : cache.fullCache.idxOf? signature with
    | none => rfl
    | some index =>
      obtain ⟨hlt, heq, _⟩ := List.idxOf?_eq_some_iff.1 hindex
      have hne : (1 + index : ℤ) ≠ 0 := by
        omega
      have hplace : ((1 + index : ℤ) - 1).toNat = index := by
        omega
      simp only [ClientSignatureCache.unpackEntry, if_neg hne, hplace, h]
      rw [getElem?_signatureArray (List.getElem?_eq_some_iff.2 ⟨hlt, heq⟩)]
      rfl
  unfold ClientSignatureCache.unpack MessageCache.indexPreviousMessages
  rw [mapM_map]
  simp only [Function.comp_def, hentry, mapM_pure, map_id]
  rfl

namespace SignatureCaches

variable {caches : SignatureCaches Sig} {message : SignedMessage Sig}

def Agree (caches : SignatureCaches Sig) : Prop :=
  caches.server.fullCache.length ≤ maxCachedSignatures ∧
    caches.client.entries = signatureArray maxCachedSignatures caches.server.fullCache

/-- The queue of the message lasts to the end of the cache. -/
def Fits (caches : SignatureCaches Sig) (message : SignedMessage Sig) : Prop :=
  Lasts message.pushed message.pushed caches.server.fullCache

instance (caches : SignatureCaches Sig) (message : SignedMessage Sig) :
    Decidable (caches.Fits message) :=
  inferInstanceAs (Decidable (Lasts _ _ _))

omit [DecidableEq Sig] in
theorem agree_new : (new : SignatureCaches Sig).Agree := ⟨zero_le _, rfl⟩

theorem Agree.unpack (h : caches.Agree) (lastSeen : List Sig) :
    caches.client.unpack (caches.server.indexPreviousMessages lastSeen) = some lastSeen :=
  unpack_indexPreviousMessages h.2 lastSeen

theorem Agree.broadcastChat_iff (h : caches.Agree) :
    (caches.broadcastChat message).Agree ↔ caches.Fits message := by
  have hlength : (caches.broadcastChat message).server.fullCache.length ≤ maxCachedSignatures :=
    MessageCache.length_pushLoop_le
  have hclient : (caches.broadcastChat message).client.entries =
      ClientSignatureCache.pushLoop message.pushed message.pushed
        (signatureArray maxCachedSignatures caches.server.fullCache) := by
    simp only [broadcastChat, h.unpack, ClientSignatureCache.push, h.2, SignedMessage.pushed]
  rw [Agree, hclient, Fits, ← signatureArray_pushLoop h.1, and_iff_right hlength]
  exact eq_comm

theorem nodup_broadcastChat (h : caches.server.fullCache.Nodup) (hpushed : message.pushed.Nodup) :
    (caches.broadcastChat message).server.fullCache.Nodup :=
  MessageCache.nodup_push h hpushed

theorem nodup_runSteps {messages : List (SignedMessage Sig)} (h : caches.server.fullCache.Nodup)
    (hpushed : ∀ message ∈ messages, message.pushed.Nodup) :
    (runSteps broadcastChat caches messages).server.fullCache.Nodup := by
  induction messages generalizing caches with
  | nil => exact h
  | cons message messages ih =>
    exact ih (nodup_broadcastChat h (hpushed message mem_cons_self))
      fun m hm => hpushed m (mem_cons_of_mem message hm)

/-- While every message fits, the client has the cache that the server thinks it has, no signature
is in it twice unless it was pushed twice, and whatever a sender has seen is read correctly. -/
theorem runSteps_agree (messages : List (SignedMessage Sig))
    (h : Guarded broadcastChat Fits new messages) :
    (runSteps broadcastChat new messages).client.entries =
      signatureArray maxCachedSignatures (runSteps broadcastChat new messages).server.fullCache ∧
    ((∀ message ∈ messages, message.pushed.Nodup) →
      (runSteps broadcastChat new messages).server.fullCache.Nodup) ∧
    ∀ lastSeen, (runSteps broadcastChat new messages).client.unpack
      ((runSteps broadcastChat new messages).server.indexPreviousMessages lastSeen) =
        some lastSeen := by
  have hagree : (runSteps broadcastChat new messages).Agree :=
    h.invariant (fun _ _ hi hfits => (Agree.broadcastChat_iff hi).2 hfits) agree_new
  refine ⟨hagree.2, fun hpushed => ?_, hagree.unpack⟩
  exact nodup_runSteps nodup_nil hpushed

def conversation : List (SignedMessage ℕ) := [⟨[], 1⟩, ⟨[1], 2⟩, ⟨[1, 2], 3⟩]

theorem runSteps_agree_conversation : (runSteps broadcastChat new conversation).client.entries =
      signatureArray maxCachedSignatures
        (runSteps broadcastChat new conversation).server.fullCache ∧
    ((∀ message ∈ conversation, message.pushed.Nodup) →
      (runSteps broadcastChat new conversation).server.fullCache.Nodup) ∧
    ∀ lastSeen, (runSteps broadcastChat new conversation).client.unpack
      ((runSteps broadcastChat new conversation).server.indexPreviousMessages lastSeen) =
        some lastSeen :=
  runSteps_agree conversation (by decide +kernel)

/-- A sender has seen one signature three times. After the next message the list of the server is
shorter than what the client has. -/
theorem runSteps_not_agree :
    Guarded broadcastChat (fun caches message => message.signature ∉ caches.server.fullCache)
      (new : SignatureCaches ℕ) [⟨[1, 1, 1], 2⟩, ⟨[1], 3⟩] ∧
    (runSteps broadcastChat (new : SignatureCaches ℕ) [⟨[1, 1, 1], 2⟩, ⟨[1], 3⟩]).client.entries ≠
      signatureArray maxCachedSignatures (runSteps broadcastChat (new : SignatureCaches ℕ)
          [⟨[1, 1, 1], 2⟩, ⟨[1], 3⟩]).server.fullCache := by
  decide +kernel

end SignatureCaches

end Push

end Steel
