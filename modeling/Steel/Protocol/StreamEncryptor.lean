import Mathlib.Tactic.Common

/-! # The encrypting writer

Bytes are encrypted one at a time and handed to the underlying stream.
-/

namespace Steel

open List

/-- A cipher that encrypts byte by byte and changes its state with every byte. -/
structure ByteCipher (σ : Type) where
  encrypt : σ → UInt8 → UInt8 × σ

namespace ByteCipher

variable {σ : Type} (cipher : ByteCipher σ)

def encryptAll : σ → List UInt8 → List UInt8
  | _, [] => []
  | state, byte :: bytes => (cipher.encrypt state byte).1 ::
      encryptAll (cipher.encrypt state byte).2 bytes

def after : σ → List UInt8 → σ
  | state, [] => state
  | state, byte :: bytes => after (cipher.encrypt state byte).2 bytes

@[simp] theorem encryptAll_append (state : σ) (as bs : List UInt8) :
    cipher.encryptAll state (as ++ bs) =
      cipher.encryptAll state as ++ cipher.encryptAll (cipher.after state as) bs := by
  induction as generalizing state with
  | nil => rfl
  | cons a as ih => simp [encryptAll, after, ih]

@[simp] theorem after_append (state : σ) (as bs : List UInt8) :
    cipher.after state (as ++ bs) = cipher.after (cipher.after state as) bs := by
  induction as generalizing state with
  | nil => rfl
  | cons a as ih => simp [after, ih]

end ByteCipher

inductive IoResult where
  | ok (written : ℕ)
  | err
  deriving DecidableEq

inductive Poll where
  | pending
  | ready (result : IoResult)
  deriving DecidableEq

/-- A stream that answers its attempts by a schedule and collects the bytes it takes. -/
structure ScheduledStream where
  schedule : ℕ → Poll
  attempts : ℕ
  received : List UInt8

def ScheduledStream.pollWrite (stream : ScheduledStream) (byte : UInt8) : Poll × ScheduledStream :=
  match stream.schedule stream.attempts with
  | .ready (.ok (n + 1)) => (.ready (.ok (n + 1)), { stream with
      attempts := stream.attempts + 1
      received := stream.received ++ [byte] })
  | result => (result, { stream with attempts := stream.attempts + 1 })

structure StreamEncryptor (σ : Type) where
  cipher : σ
  write : ScheduledStream
  lastUnwrittenEncryptedByte : Option UInt8

namespace StreamEncryptor

variable {σ : Type} (cipher : ByteCipher σ)

def new (state : σ) (stream : ScheduledStream) : StreamEncryptor σ :=
  ⟨state, stream, none⟩

/-- The byte to offer for the next plaintext byte: the kept one if there is one. -/
def nextByte (e : StreamEncryptor σ) (byte : UInt8) : UInt8 × σ :=
  match e.lastUnwrittenEncryptedByte with
  | some out => (out, e.cipher)
  | none => cipher.encrypt e.cipher byte

/-- The loop of `poll_write` after `totalWritten` bytes. -/
def pollWriteFrom (totalWritten : ℕ) : List UInt8 → StreamEncryptor σ →
    Poll × StreamEncryptor σ
  | [], e => (.ready (.ok totalWritten), e)
  | byte :: buf, e =>
    let (out, state) := nextByte cipher e byte
    match e.write.pollWrite out with
    | (.pending, write) =>
      let e := ⟨state, write, some out⟩
      if totalWritten = 0 then (.pending, e) else (.ready (.ok totalWritten), e)
    | (.ready (.ok written), write) =>
      pollWriteFrom (totalWritten + written) buf ⟨state, write, none⟩
    | (.ready .err, write) => (.ready .err, ⟨state, write, none⟩)

def pollWrite (buf : List UInt8) (e : StreamEncryptor σ) : Poll × StreamEncryptor σ :=
  pollWriteFrom cipher 0 buf e

/-- The usual loop around `poll_write`, for a number of polls: offer what was not accepted
until nothing is left. An error ends the loop. -/
def writeAll : ℕ → List UInt8 → StreamEncryptor σ → List UInt8 × StreamEncryptor σ
  | 0, buf, e => (buf, e)
  | _ + 1, [], e => ([], e)
  | polls + 1, buf@(_ :: _), e =>
    match pollWrite cipher buf e with
    | (.pending, e) => writeAll polls buf e
    | (.ready (.ok written), e) => writeAll polls (buf.drop written) e
    | (.ready .err, e) => (buf, e)

variable {cipher} {state : σ} {start : List UInt8}

/-- After `accepted` the stream has received its encryption. The cipher is ahead of it by the
byte that is kept. -/
structure Synced (cipher : ByteCipher σ) (state : σ) (start accepted rest : List UInt8)
    (e : StreamEncryptor σ) : Prop where
  received : e.write.received = start ++ cipher.encryptAll state accepted
  idle : e.lastUnwrittenEncryptedByte = none → e.cipher = cipher.after state accepted
  kept : ∀ out, e.lastUnwrittenEncryptedByte = some out → ∃ byte rest', rest = byte :: rest' ∧
    (out, e.cipher) = cipher.encrypt (cipher.after state accepted) byte

def Cooperative (schedule : ℕ → Poll) : Prop :=
  ∀ i, schedule i = .pending ∨ schedule i = .ready (.ok 1)

variable {accepted rest : List UInt8} {byte : UInt8} {e : StreamEncryptor σ}

/-- The offered byte is the encryption of the next byte, whether it is kept or new. -/
theorem Synced.nextByte_eq (h : Synced cipher state start accepted (byte :: rest) e) :
    nextByte cipher e byte = cipher.encrypt (cipher.after state accepted) byte := by
  unfold nextByte
  cases hlast : e.lastUnwrittenEncryptedByte with
  | none => rw [h.idle hlast]
  | some out =>
    obtain ⟨byte', rest', heq, hout⟩ := h.kept out hlast
    obtain ⟨rfl, -⟩ := List.cons.inj heq
    exact hout

theorem synced_new (stream : ScheduledStream) (text : List UInt8) :
    Synced cipher state stream.received [] text (new state stream) where
  received := by simp [new, ByteCipher.encryptAll]
  idle := fun _ => rfl
  kept := fun out h => nomatch h

theorem Synced.keep (h : Synced cipher state start accepted (byte :: rest) e)
    {write : ScheduledStream} (hwrite : write.received = e.write.received) :
    Synced cipher state start accepted (byte :: rest)
      ⟨(nextByte cipher e byte).2, write, some (nextByte cipher e byte).1⟩ where
  received := hwrite.trans h.received
  idle := fun h => nomatch h
  kept := by
    rintro out ⟨⟩
    exact ⟨byte, rest, rfl, h.nextByte_eq⟩

theorem Synced.take (h : Synced cipher state start accepted (byte :: rest) e)
    {write : ScheduledStream}
    (hwrite : write.received = e.write.received ++ [(nextByte cipher e byte).1]) :
    Synced cipher state start (accepted ++ [byte]) rest
      ⟨(nextByte cipher e byte).2, write, none⟩ where
  received := by
    rw [hwrite, h.received, h.nextByte_eq]
    simp [ByteCipher.encryptAll]
  idle := by
    intro _
    simp [h.nextByte_eq, ByteCipher.after]
  kept := fun out h => nomatch h

/-- What a poll does on a cooperative stream: the bytes before the first pending attempt are
taken, and the next one is kept. -/
structure Polled (cipher : ByteCipher σ) (state : σ) (start accepted buf : List UInt8)
    (e : StreamEncryptor σ) (taken rest : List UInt8) (e' : StreamEncryptor σ) : Prop where
  split : buf = taken ++ rest
  synced : Synced cipher state start (accepted ++ taken) rest e'
  schedule : e'.write.schedule = e.write.schedule
  ready : buf ≠ [] → e.write.schedule e.write.attempts = .ready (.ok 1) → taken ≠ []
  attempts : e.write.schedule e.write.attempts = .pending → buf ≠ [] →
    taken = [] ∧ e'.write.attempts = e.write.attempts + 1

theorem pollWriteFrom_polled (buf : List UInt8) :
    ∀ (totalWritten : ℕ) (accepted : List UInt8) (e : StreamEncryptor σ),
    Cooperative e.write.schedule → Synced cipher state start accepted buf e →
    ∃ taken rest e', Polled cipher state start accepted buf e taken rest e' ∧
      pollWriteFrom cipher totalWritten buf e =
        (if totalWritten + taken.length = 0 ∧ buf ≠ [] then .pending
          else .ready (.ok (totalWritten + taken.length)), e') := by
  induction buf with
  | nil =>
    intro totalWritten accepted e _ hsync
    refine ⟨[], [], e, ⟨rfl, by simpa using hsync, rfl, ?_, ?_⟩, by simp [pollWriteFrom]⟩
    · exact fun h => absurd rfl h
    · exact fun _ h => absurd rfl h
  | cons byte buf ih =>
    intro totalWritten accepted e hcoop hsync
    rcases hcoop e.write.attempts with hpoll | hpoll
    · refine ⟨[], byte :: buf, ⟨(nextByte cipher e byte).2,
        { e.write with attempts := e.write.attempts + 1 }, some (nextByte cipher e byte).1⟩,
        ⟨rfl, ?_, rfl, ?_, ?_⟩, ?_⟩
      · rw [append_nil]
        exact hsync.keep rfl
      · intro _ h
        simp [hpoll] at h
      · exact fun _ _ => ⟨rfl, rfl⟩
      · by_cases h : totalWritten = 0 <;>
          simp [pollWriteFrom, ScheduledStream.pollWrite, hpoll, h]
    · obtain ⟨taken, rest, e', hpolled, heq⟩ := ih (totalWritten + 1) (accepted ++ [byte])
        ⟨(nextByte cipher e byte).2, { e.write with
          attempts := e.write.attempts + 1
          received := e.write.received ++ [(nextByte cipher e byte).1] }, none⟩
        hcoop (hsync.take rfl)
      refine ⟨byte :: taken, rest, e', ⟨?_, ?_, hpolled.schedule, ?_, ?_⟩, ?_⟩
      · rw [hpolled.split, cons_append]
      · simpa using hpolled.synced
      · exact fun _ _ => cons_ne_nil _ _
      · intro h
        simp [hpoll] at h
      · have hne : totalWritten + 1 + taken.length ≠ 0 := by omega
        simp only [pollWriteFrom, ScheduledStream.pollWrite, hpoll]
        rw [heq]
        simp [Nat.add_assoc, Nat.add_comm 1]

theorem writeAll_succ {buf : List UInt8} (hcoop : Cooperative e.write.schedule)
    (hsync : Synced cipher state start accepted buf e) (hbuf : buf ≠ []) :
    ∃ taken rest e', Polled cipher state start accepted buf e taken rest e' ∧
      ∀ polls, writeAll cipher (polls + 1) buf e = writeAll cipher polls rest e' := by
  obtain ⟨taken, rest, e', hpolled, heq⟩ := pollWriteFrom_polled buf 0 accepted e hcoop hsync
  refine ⟨taken, rest, e', hpolled, ?_⟩
  intro polls
  cases buf with
  | nil => exact absurd rfl hbuf
  | cons byte buf =>
    have hpoll : pollWrite cipher (byte :: buf) e = (if taken.length = 0 then .pending
        else .ready (.ok taken.length), e') := by
      simpa [pollWrite] using heq
    have hsplit := hpolled.split
    by_cases htaken : taken.length = 0
    · have hrest : byte :: buf = rest := by
        rw [hsplit, length_eq_zero_iff.mp htaken, nil_append]
      simp only [writeAll, hpoll, htaken, if_true]
      rw [hrest]
    · simp only [writeAll, hpoll, htaken, if_false]
      rw [hsplit, drop_left]

theorem writeAll_synced (polls : ℕ) :
    ∀ (accepted buf : List UInt8) (e : StreamEncryptor σ),
    Cooperative e.write.schedule → Synced cipher state start accepted buf e →
    ∃ taken, buf = taken ++ (writeAll cipher polls buf e).1 ∧
      Synced cipher state start (accepted ++ taken) (writeAll cipher polls buf e).1
        (writeAll cipher polls buf e).2 := by
  induction polls with
  | zero =>
    intro accepted buf e _ hsync
    exact ⟨[], rfl, by simpa [writeAll] using hsync⟩
  | succ polls ih =>
    intro accepted buf e hcoop hsync
    by_cases hbuf : buf = []
    · subst hbuf
      exact ⟨[], rfl, by simpa [writeAll] using hsync⟩
    · obtain ⟨taken, rest, e', hpolled, heq⟩ := writeAll_succ hcoop hsync hbuf
      have hcoop' : Cooperative e'.write.schedule := by
        rw [hpolled.schedule]
        exact hcoop
      obtain ⟨more, hmore, hsync'⟩ := ih (accepted ++ taken) rest e' hcoop' hpolled.synced
      refine ⟨taken ++ more, ?_, ?_⟩
      · rw [heq, append_assoc, ← hmore, hpolled.split]
      · rw [heq, ← append_assoc]
        exact hsync'

def Live (schedule : ℕ → Poll) : Prop :=
  ∀ i, ∃ j, schedule (i + j) = .ready (.ok 1)

theorem Polled.length_lt {buf taken : List UInt8} {e' : StreamEncryptor σ}
    (h : Polled cipher state start accepted buf e taken rest e') (hbuf : buf ≠ [])
    (hready : e.write.schedule e.write.attempts = .ready (.ok 1)) : rest.length < buf.length := by
  have htaken := length_pos_iff.mpr (h.ready hbuf hready)
  rw [h.split, length_append]
  omega

/-- On a live stream the loop ends. Every poll before the next ready attempt brings it nearer,
and the poll at a ready attempt takes a byte. -/
theorem exists_writeAll_nil (length : ℕ) :
    ∀ (wait : ℕ) (accepted buf : List UInt8) (e : StreamEncryptor σ), buf.length ≤ length →
    Cooperative e.write.schedule → Live e.write.schedule →
    e.write.schedule (e.write.attempts + wait) = .ready (.ok 1) →
    Synced cipher state start accepted buf e →
    ∃ polls, (writeAll cipher polls buf e).1 = [] := by
  induction length with
  | zero =>
    intro wait accepted buf e hlength _ _ _ _
    obtain rfl := length_eq_zero_iff.mp (Nat.le_zero.mp hlength)
    exact ⟨0, rfl⟩
  | succ length ih =>
    intro wait
    induction wait with
    | zero =>
      intro accepted buf e hlength hcoop hlive hready hsync
      by_cases hbuf : buf = []
      · exact ⟨0, hbuf⟩
      · obtain ⟨taken, rest, e', hpolled, heq⟩ := writeAll_succ hcoop hsync hbuf
        have hrest := hpolled.length_lt hbuf hready
        obtain ⟨wait, hwait⟩ := hlive e'.write.attempts
        obtain ⟨polls, hpolls⟩ := ih wait _ rest e' (by omega) (hpolled.schedule ▸ hcoop)
          (hpolled.schedule ▸ hlive) (hpolled.schedule ▸ hwait) hpolled.synced
        exact ⟨polls + 1, by rw [heq, hpolls]⟩
    | succ wait ihwait =>
      intro accepted buf e hlength hcoop hlive hready hsync
      by_cases hbuf : buf = []
      · exact ⟨0, hbuf⟩
      · obtain ⟨taken, rest, e', hpolled, heq⟩ := writeAll_succ hcoop hsync hbuf
        have hcoop' := hpolled.schedule ▸ hcoop
        have hlive' := hpolled.schedule ▸ hlive
        suffices h : ∃ polls, (writeAll cipher polls rest e').1 = [] by
          obtain ⟨polls, hpolls⟩ := h
          exact ⟨polls + 1, by rw [heq, hpolls]⟩
        rcases hcoop e.write.attempts with hpending | hnow
        · obtain ⟨rfl, hattempts⟩ := hpolled.attempts hpending hbuf
          have hsplit : buf = rest := hpolled.split
          have hready' : e'.write.schedule (e'.write.attempts + wait) = .ready (.ok 1) := by
            rw [hpolled.schedule, hattempts, Nat.add_assoc, Nat.add_comm 1]
            exact hready
          exact ihwait _ rest e' (hsplit ▸ hlength) hcoop' hlive' hready' hpolled.synced
        · have hrest := hpolled.length_lt hbuf hnow
          obtain ⟨wait, hwait⟩ := hlive e'.write.attempts
          exact ih wait _ rest e' (by omega) hcoop' hlive' (hpolled.schedule ▸ hwait)
            hpolled.synced

/-- What holds when the whole text has been accepted: the stream has the encryption of the
text, and the cipher has seen every byte of it once. -/
structure Delivered (cipher : ByteCipher σ) (state : σ) (start text : List UInt8)
    (e : StreamEncryptor σ) : Prop where
  received : e.write.received = start ++ cipher.encryptAll state text
  cipher : e.cipher = cipher.after state text
  idle : e.lastUnwrittenEncryptedByte = none

theorem Synced.delivered {text : List UInt8} (h : Synced cipher state start text [] e) :
    Delivered cipher state start text e := by
  have hidle : e.lastUnwrittenEncryptedByte = none := by
    cases hlast : e.lastUnwrittenEncryptedByte with
    | none => rfl
    | some out =>
      obtain ⟨byte, rest, heq, -⟩ := h.kept out hlast
      exact absurd heq (cons_ne_nil byte rest).symm
  exact ⟨h.received, h.idle hidle, hidle⟩

/-- However the stream schedules its answers, after any number of polls it has received the
encryption of the accepted part of the text and nothing else, each byte encrypted once. When
the loop ends the accepted part is the whole text, and on a live stream the loop ends. -/
theorem writeAll_delivers (cipher : ByteCipher σ) (state : σ) (stream : ScheduledStream)
    (text : List UInt8) (hcoop : Cooperative stream.schedule) :
    (∀ polls, ∃ accepted,
      text = accepted ++ (writeAll cipher polls text (new state stream)).1 ∧
      Synced cipher state stream.received accepted
        (writeAll cipher polls text (new state stream)).1
        (writeAll cipher polls text (new state stream)).2) ∧
    (∀ polls, (writeAll cipher polls text (new state stream)).1 = [] →
      Delivered cipher state stream.received text
        (writeAll cipher polls text (new state stream)).2) ∧
    (Live stream.schedule → ∃ polls, (writeAll cipher polls text (new state stream)).1 = []) := by
  have hrun : ∀ polls, ∃ accepted,
      text = accepted ++ (writeAll cipher polls text (new state stream)).1 ∧
      Synced cipher state stream.received accepted
        (writeAll cipher polls text (new state stream)).1
        (writeAll cipher polls text (new state stream)).2 := by
    intro polls
    exact writeAll_synced polls [] text _ hcoop (synced_new stream text)
  refine ⟨hrun, ?_, ?_⟩
  · intro polls hend
    obtain ⟨accepted, htext, hsync⟩ := hrun polls
    rw [hend] at htext hsync
    rw [append_nil] at htext
    exact htext ▸ hsync.delivered
  · intro hlive
    obtain ⟨wait, hwait⟩ := hlive stream.attempts
    exact exists_writeAll_nil text.length wait [] text _ (Nat.le_refl _) hcoop hlive hwait
      (synced_new stream text)

/-- A cipher that adds the previous output, and a stream that takes every second byte. -/
def chained : ByteCipher UInt8 := ⟨fun state byte => (state + byte, state + byte)⟩

def everySecond : ScheduledStream :=
  ⟨fun i => if i % 2 = 0 then .pending else .ready (.ok 1), 0, []⟩

theorem writeAll_delivers_everySecond :
    Cooperative everySecond.schedule ∧ Live everySecond.schedule ∧
    Delivered chained 7 [] [1, 2, 3] (writeAll chained 6 [1, 2, 3] (new 7 everySecond)).2 := by
  have hcoop : Cooperative everySecond.schedule := by
    intro i
    by_cases h : i % 2 = 0 <;> simp [everySecond, h]
  have hlive : Live everySecond.schedule := by
    intro i
    refine ⟨i + 1, ?_⟩
    have h : (i + (i + 1)) % 2 = 1 := by omega
    simp [everySecond, h]
  exact ⟨hcoop, hlive,
    (writeAll_delivers chained 7 everySecond [1, 2, 3] hcoop).2.1 6 (by decide)⟩

end StreamEncryptor

end Steel
