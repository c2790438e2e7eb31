import Mathlib.Data.List.Basic

/-!
# The buffer of a pipe to a decoder

`Flush` may write a part of the bytes, and only the way out for a full pipe moves the rest to the front. After a timeout
or an error the accepted bytes are written again (`resent`); else `stream_law` holds.
-/

namespace Rdm

namespace PipeBuffer

def EINTR : Int := 4
def EAGAIN : Int := 11
def ETIMEDOUT : Int := 110

structure Errno where
  value : Int
  ne_zero : value ≠ 0
deriving DecidableEq

/-- What happens before a write that may block. -/
inductive PollAnswer where
  | expired
  | timeout
  | failed (errno : Errno)
  | ready
deriving DecidableEq

inductive WriteAnswer where
  | wrote (n : Nat)
  | failed (errno : Errno)
deriving DecidableEq

/-- The answers in one turn of the loop. -/
structure Answer where
  poll : PollAnswer := .ready
  write : WriteAnswer
deriving DecidableEq

def PollAnswer.status : PollAnswer → Option Int
  | .expired => some ETIMEDOUT
  | .timeout => some ETIMEDOUT
  | .failed errno => if errno.value = EINTR then none else some errno.value
  | .ready => none

end PipeBuffer

structure PipeBuffer where
  buffer : List UInt8
  writePos : Nat
  pos : 0 < buffer.length
  fits : writePos ≤ buffer.length

namespace PipeBuffer

def buffered (b : PipeBuffer) : List UInt8 := b.buffer.take b.writePos

def new (size : Nat) (h : 0 < size) : PipeBuffer := ⟨List.replicate size 0, 0, by simpa using h, Nat.zero_le _⟩

def clear (b : PipeBuffer) : PipeBuffer := { b with writePos := 0, fits := Nat.zero_le _ }

def compact (b : PipeBuffer) (offset : Nat) : PipeBuffer where
  buffer := b.buffered.drop offset ++ b.buffer.drop (b.writePos - offset)
  writePos := b.writePos - offset
  pos := by
    have := b.pos
    have := b.fits
    simp [buffered]
    omega
  fits := by
    have := b.fits
    simp [buffered]
    omega

def append (b : PipeBuffer) (bytes : List UInt8) (h : b.writePos + bytes.length ≤ b.buffer.length) : PipeBuffer where
  buffer := b.buffered ++ bytes ++ b.buffer.drop (b.writePos + bytes.length)
  writePos := b.writePos + bytes.length
  pos := by
    have := b.pos
    simp [buffered]
    omega
  fits := by
    have := b.fits
    simp [buffered]
    omega

end PipeBuffer

/-- A buffer and its pipe: what the pipe has accepted, what was taken from the callers, and how many accepted bytes were
left in the buffer. -/
structure PipeStream where
  buf : PipeBuffer
  accepted : List UInt8 := []
  taken : List UInt8 := []
  resent : Nat := 0

namespace PipeStream

open PipeBuffer List

/-! ## The operations -/

def flushLoop (block : Bool) (timeoutSecs : Nat) : List Answer → Nat → PipeStream →
    Option (Int × PipeStream × List Answer)
  | [], offset, x => if x.buf.writePos ≤ offset then some (0, { x with buf := x.buf.clear }, []) else none
  | a :: answers, offset, x =>
    if x.buf.writePos ≤ offset then some (0, { x with buf := x.buf.clear }, a :: answers)
    else
      match if block ∧ timeoutSecs ≠ 0 then a.poll.status else none with
      | some status => some (status, { x with resent := x.resent + offset }, answers)
      | none =>
        match a.write with
        | .failed errno =>
          if errno.value = PipeBuffer.EINTR then flushLoop block timeoutSecs answers offset x
          else if errno.value = PipeBuffer.EAGAIN then
            if block then flushLoop block timeoutSecs answers offset x
            else some (PipeBuffer.EAGAIN, { x with buf := x.buf.compact offset }, answers)
          else some (errno.value, { x with resent := x.resent + offset }, answers)
        | .wrote n =>
          let nwrote := min n (x.buf.writePos - offset)
          flushLoop block timeoutSecs answers (offset + nwrote)
            { x with accepted := x.accepted ++ (x.buf.buffered.drop offset).take nwrote }

def flush (block : Bool) (timeoutSecs : Nat) (answers : List Answer) (x : PipeStream) :
    Option (Int × PipeStream × List Answer) :=
  if x.buf.writePos = 0 then some (0, x, answers) else flushLoop block timeoutSecs answers 0 x

def chunk (x : PipeStream) (data : List UInt8) : List UInt8 := data.take (x.buf.buffer.length - x.buf.writePos)

def take (x : PipeStream) (data : List UInt8) : PipeStream :=
  { x with
    buf := x.buf.append (x.chunk data) (by
      have := x.buf.fits
      simp only [chunk, List.length_take]
      omega)
    taken := x.taken ++ x.chunk data }

variable {status : Int} {block : Bool} {timeoutSecs : Nat} {answers answers' : List Answer} {x : PipeStream}
variable {data : List UInt8} {x x' : PipeStream} {offset : Nat}

theorem PollAnswer_status_ne_zero {a : PollAnswer} (h : a.status = some status) : status ≠ 0 := by
  unfold PollAnswer.status at h
  split at h
  · cases h
    decide
  · cases h
    decide
  · next errno =>
    split at h
    · cases h
    · cases h
      exact errno.ne_zero
  · cases h

theorem flushLoop_done : ∀ {answers answers' : List Answer} {offset : Nat} {x x' : PipeStream},
    flushLoop block timeoutSecs answers offset x = some (0, x', answers') → x'.buf.writePos = 0
  | [], answers', offset, x, x', h => by
    rw [flushLoop] at h
    split at h
    · cases h
      rfl
    · cases h
  | a :: answers, answers', offset, x, x', h => by
    rw [flushLoop] at h
    split at h
    · cases h
      rfl
    split at h
    · next status hstatus =>
      simp only [Option.some.injEq, Prod.mk.injEq] at h
      split at hstatus
      · exact absurd h.1 (PollAnswer_status_ne_zero hstatus)
      · cases hstatus
    split at h
    · next errno _ =>
      split at h
      · exact flushLoop_done h
      split at h
      · split at h
        · exact flushLoop_done h
        · cases h
      · simp only [Option.some.injEq, Prod.mk.injEq] at h
        exact absurd h.1 errno.ne_zero
    · exact flushLoop_done h

theorem flush_done {x' : PipeStream}
    (h : flush block timeoutSecs answers x = some (0, x', answers')) : x'.buf.writePos = 0 := by
  rw [flush] at h
  split at h
  · next hzero =>
    cases h
    exact hzero
  · exact flushLoop_done h

def isFull (x : PipeStream) : Bool := x.buf.writePos = x.buf.buffer.length

theorem length_chunk (x : PipeStream) (data : List UInt8) :
    (x.chunk data).length = min (x.buf.buffer.length - x.buf.writePos) data.length := by
  rw [chunk, length_take]

theorem length_take_buffer (x : PipeStream) (data : List UInt8) :
    (x.take data).buf.buffer.length = x.buf.buffer.length := by
  have hfits := x.buf.fits
  have hchunk := x.length_chunk data
  show (x.buf.buffered ++ x.chunk data ++ x.buf.buffer.drop (x.buf.writePos + (x.chunk data).length)).length = _
  simp only [buffered, length_append, length_take, length_drop]
  omega

theorem isFull_take : (x.take data).isFull = true ↔
    x.buf.writePos + (x.chunk data).length = x.buf.buffer.length := by
  rw [isFull, decide_eq_true_eq, length_take_buffer]
  rfl

theorem turn_flushed {x' : PipeStream} (hdata : data ≠ []) (hempty : x'.buf.writePos = 0) :
    2 * (data.drop (x.chunk data).length).length + (if x'.isFull then 1 else 0) <
      2 * data.length + (if x.isFull then 1 else 0) := by
  have hpos := length_pos_iff.2 hdata
  have hchunk := x.length_chunk data
  have hfits := x.buf.fits
  have hnot : x'.isFull = false := by
    have := x'.buf.pos
    rw [isFull, decide_eq_false_iff_not]
    omega
  rw [length_drop, hnot, if_neg Bool.false_ne_true]
  by_cases hfull : x.isFull = true
  · rw [if_pos hfull]
    omega
  · rw [if_neg hfull]
    rw [isFull, decide_eq_true_eq] at hfull
    omega

theorem turn_taken (hdata : data ≠ []) (hfull : ¬ (x.take data).isFull = true) :
    2 * (data.drop (x.chunk data).length).length + (if (x.take data).isFull then 1 else 0) <
      2 * data.length + (if x.isFull then 1 else 0) := by
  have hpos := length_pos_iff.2 hdata
  have hchunk := x.length_chunk data
  have hfits := x.buf.fits
  rw [length_drop, if_neg hfull]
  rw [isFull_take] at hfull
  omega

def writeLoop (timeoutSecs : Nat) (data : List UInt8) (answers : List Answer) (x : PipeStream) :
    Option (Int × PipeStream × List Answer) :=
  if data = [] then some (0, x, answers)
  else if (x.take data).isFull then
    match _h : flush true timeoutSecs answers (x.take data) with
    | none => none
    | some (status, x', answers') =>
      if status ≠ 0 then some (status, x', answers')
      else writeLoop timeoutSecs (data.drop (x.chunk data).length) answers' x'
  else writeLoop timeoutSecs (data.drop (x.chunk data).length) answers (x.take data)
-- a turn that takes no bytes finds the buffer full, and the next turn finds it empty
termination_by 2 * data.length + (if x.isFull then 1 else 0)
decreasing_by
  · have hstatus : status = 0 := Decidable.not_not.1 ‹_›
    exact turn_flushed ‹_› (flush_done (hstatus ▸ _h))
  · exact turn_taken ‹_› ‹_›

def write (data : List UInt8) (timeoutSecs : Nat) (answers : List Answer) (x : PipeStream) :
    Option (Int × PipeStream × List Answer) :=
  match writeLoop timeoutSecs data answers x with
  | none => none
  | some (status, x, answers) =>
    if status ≠ 0 then some (status, x, answers)
    else
      match flush false 0 answers x with
      | none => none
      | some (status, x, answers) => some (if status = PipeBuffer.EAGAIN then 0 else status, x, answers)

inductive Call where
  | write (data : List UInt8) (timeoutSecs : Nat)
  | flush (block : Bool) (timeoutSecs : Nat)

def Call.run (answers : List Answer) (x : PipeStream) : Call → Option (Int × PipeStream × List Answer)
  | .write data timeoutSecs => PipeStream.write data timeoutSecs answers x
  | .flush block timeoutSecs => PipeStream.flush block timeoutSecs answers x

def runAll : List Call → List Answer → PipeStream → Option PipeStream
  | [], _, x => some x
  | c :: cs, answers, x =>
    match c.run answers x with
    | none => none
    | some (_, x, answers) => runAll cs answers x

/-! ## The stream -/

/-- What the pipe has accepted is followed by what is to be written, and accepted bytes that were left in the buffer are
counted. -/
structure Inv (x : PipeStream) : Prop where
  count : x.accepted.length + x.buf.writePos = x.taken.length + x.resent
  joined : x.resent = 0 → x.accepted ++ x.buf.buffered = x.taken

/-- The same in the loop of `Flush`, which has written `offset` bytes. -/
structure InvAt (offset : Nat) (x : PipeStream) : Prop where
  le : offset ≤ x.buf.writePos
  count : x.accepted.length + (x.buf.writePos - offset) = x.taken.length + x.resent
  joined : x.resent = 0 → x.accepted ++ x.buf.buffered.drop offset = x.taken

theorem length_buffered (b : PipeBuffer) : b.buffered.length = b.writePos := by
  rw [buffered, length_take]
  exact Nat.min_eq_left b.fits

theorem Inv.at (h : Inv x) : InvAt 0 x := ⟨Nat.zero_le _, h.count, h.joined⟩

theorem InvAt.finished (h : InvAt offset x) (hend : x.buf.writePos ≤ offset) : Inv { x with buf := x.buf.clear } := by
  have hle := h.le
  have hcount := h.count
  refine ⟨?_, fun hz => ?_⟩
  · show x.accepted.length + 0 = x.taken.length + x.resent
    omega
  · have hjoined := h.joined hz
    rw [drop_eq_nil_of_le (by rw [length_buffered]; omega)] at hjoined
    exact hjoined

theorem InvAt.compacted (h : InvAt offset x) : Inv { x with buf := x.buf.compact offset } := by
  refine ⟨h.count, fun hz => ?_⟩
  have hmoved : (x.buf.compact offset).buffered = x.buf.buffered.drop offset := by
    have hlen : x.buf.writePos - offset = (x.buf.buffered.drop offset).length := by
      rw [length_drop, length_buffered]
    show (x.buf.buffered.drop offset ++ _).take (x.buf.writePos - offset) = _
    rw [hlen, take_left]
  show x.accepted ++ (x.buf.compact offset).buffered = x.taken
  rw [hmoved]
  exact h.joined hz

theorem InvAt.gaveUp (h : InvAt offset x) : Inv { x with resent := x.resent + offset } := by
  have hle := h.le
  have hcount := h.count
  refine ⟨?_, fun hz => ?_⟩
  · show x.accepted.length + x.buf.writePos = x.taken.length + (x.resent + offset)
    omega
  · have hzero : x.resent + offset = 0 := hz
    have hjoined := h.joined (by omega)
    rw [show offset = 0 by omega, drop_zero] at hjoined
    exact hjoined

theorem InvAt.wrote (h : InvAt offset x) {n : Nat} (hn : n ≤ x.buf.writePos - offset) :
    InvAt (offset + n) { x with accepted := x.accepted ++ (x.buf.buffered.drop offset).take n } := by
  have hle := h.le
  have hcount := h.count
  refine ⟨?_, ?_, fun hz => ?_⟩
  · show offset + n ≤ x.buf.writePos
    omega
  · show (x.accepted ++ (x.buf.buffered.drop offset).take n).length + (x.buf.writePos - (offset + n)) =
      x.taken.length + x.resent
    rw [length_append, length_take, length_drop, length_buffered]
    omega
  · show x.accepted ++ (x.buf.buffered.drop offset).take n ++ x.buf.buffered.drop (offset + n) = x.taken
    rw [append_assoc, ← drop_drop, take_append_drop]
    exact h.joined hz

/-- **`Flush` keeps the count**, whatever way it returns. -/
theorem InvAt.flushLoop : ∀ {answers answers' : List Answer} {offset : Nat}
    {x : PipeStream}, InvAt offset x → PipeStream.flushLoop block timeoutSecs answers offset x =
    some (status, x', answers') → Inv x'
  | [], answers', offset, x, hx, h => by
    rw [PipeStream.flushLoop] at h
    split at h
    · next hend =>
      cases h
      exact hx.finished hend
    · cases h
  | a :: answers, answers', offset, x, hx, h => by
    rw [PipeStream.flushLoop] at h
    split at h
    · next hend =>
      cases h
      exact hx.finished hend
    split at h
    · cases h
      exact hx.gaveUp
    split at h
    · split at h
      · exact hx.flushLoop h
      split at h
      · split at h
        · exact hx.flushLoop h
        · cases h
          exact hx.compacted
      · cases h
        exact hx.gaveUp
    · exact (hx.wrote (Nat.min_le_right _ _)).flushLoop h

theorem Inv.flush (hx : Inv x) (h : PipeStream.flush block timeoutSecs answers x = some (status, x', answers')) :
    Inv x' := by
  rw [PipeStream.flush] at h
  split at h
  · cases h
    exact hx
  · exact hx.at.flushLoop h

theorem Inv.take (hx : Inv x) (data : List UInt8) : Inv (x.take data) := by
  have hcount := hx.count
  refine ⟨?_, fun hz => ?_⟩
  · show x.accepted.length + (x.buf.writePos + (x.chunk data).length) = (x.taken ++ x.chunk data).length + x.resent
    rw [length_append]
    omega
  · have hadded : (x.take data).buf.buffered = x.buf.buffered ++ x.chunk data := by
      show (x.buf.buffered ++ x.chunk data ++ _).take (x.buf.writePos + (x.chunk data).length) = _
      have hlen : x.buf.writePos + (x.chunk data).length = (x.buf.buffered ++ x.chunk data).length := by
        rw [length_append, length_buffered]
      rw [hlen, take_left]
    rw [hadded]
    show x.accepted ++ (x.buf.buffered ++ x.chunk data) = x.taken ++ x.chunk data
    rw [← append_assoc, hx.joined hz]

theorem Inv.writeLoop (hx : Inv x)
    (h : PipeStream.writeLoop timeoutSecs data answers x = some (status, x', answers')) : Inv x' := by
  fun_induction PipeStream.writeLoop timeoutSecs data answers x with
  | case1 =>
    cases h
    exact hx
  | case2 => cases h
  | case3 _ _ _ _ _ _ _ _ hflush _ =>
    cases h
    exact (hx.take _).flush hflush
  | case4 _ _ _ _ _ _ _ _ hflush _ ih => exact ih ((hx.take _).flush hflush) h
  | case5 _ _ _ _ _ ih => exact ih (hx.take _) h

theorem Inv.call {c : Call} (hx : Inv x)
    (h : c.run answers x = some (status, x', answers')) : Inv x' := by
  cases c with
  | flush block timeoutSecs => exact hx.flush h
  | write data timeoutSecs =>
    rw [Call.run, PipeStream.write] at h
    split at h
    · cases h
    · next status1 x1 answers1 hloop =>
      have hx1 := hx.writeLoop hloop
      split at h
      · cases h
        exact hx1
      split at h
      · cases h
      · next hflush =>
        cases h
        exact hx1.flush hflush

theorem Inv.runAll : ∀ {cs : List Call} {answers : List Answer} {x : PipeStream}, Inv x →
    PipeStream.runAll cs answers x = some x' → Inv x'
  | [], _, _, hx, h => by
    cases h
    exact hx
  | c :: cs, answers, x, hx, h => by
    rw [PipeStream.runAll] at h
    split at h
    · cases h
    · next hcall => exact (hx.call hcall).runAll h

def new (size : Nat) (h : 0 < size) : PipeStream := { buf := PipeBuffer.new size h }

theorem inv_new (size : Nat) (h : 0 < size) : Inv (new size h) := ⟨rfl, fun _ => rfl⟩

theorem Inv.law_iff (h : Inv x) : x.accepted ++ x.buf.buffered = x.taken ↔ x.resent = 0 := by
  refine ⟨fun hlaw => ?_, h.joined⟩
  have hlen := congrArg List.length hlaw
  have hcount := h.count
  rw [length_append, length_buffered] at hlen
  omega

/-- **The law of the stream**: what the pipe has accepted followed by what is to be written is what was taken from the
callers, as long as no `Flush` has given up behind bytes that the pipe has accepted. -/
theorem stream_law {size : Nat} (hsize : 0 < size) {cs : List Call} {answers : List Answer} {x : PipeStream}
    (h : runAll cs answers (new size hsize) = some x) (hresent : x.resent = 0) :
    x.accepted ++ x.buf.buffered = x.taken :=
  ((inv_new size hsize).runAll h).law_iff.2 hresent

def interrupted : List Answer :=
    [⟨.ready, .wrote 3⟩, ⟨.ready, .failed ⟨PipeBuffer.EINTR, by decide⟩⟩, ⟨.ready, .wrote 1⟩,
  ⟨.ready, .wrote 1⟩, ⟨.ready, .failed ⟨PipeBuffer.EAGAIN, by decide⟩⟩]

theorem stream_law_interrupted : ∃ x, runAll [.write [1, 2, 3, 4, 5, 6] 60] interrupted (new 4 (by decide)) = some x ∧
    x.resent = 0 ∧ x.accepted = [1, 2, 3, 4, 5] ∧ x.accepted ++ x.buf.buffered = x.taken := by
  have hrun : (runAll [.write [1, 2, 3, 4, 5, 6] 60] interrupted (new 4 (by decide))).map
    (fun x => (x.resent, x.accepted)) =
      some (0, [1, 2, 3, 4, 5]) := by decide +kernel
  obtain ⟨x, hx, he⟩ := Option.map_eq_some_iff.1 hrun
  obtain ⟨hresent, haccepted⟩ := Prod.mk.inj he
  exact ⟨x, hx, hresent, haccepted, stream_law (by decide) hx hresent⟩

/-- **Bytes are repeated after a timeout**: the pipe accepts two of four bytes before the time is over, and the next
`Flush` writes them again. -/
theorem timeout_repeats :
    (runAll [.write [1, 2, 3, 4] 60] [⟨.ready, .wrote 2⟩, ⟨.expired, .wrote 0⟩] (new 4 (by decide))).map
        (fun x => (x.accepted, x.buf.buffered, x.taken)) = some ([1, 2], [1, 2, 3, 4], [1, 2, 3, 4]) ∧
      (runAll [.write [1, 2, 3, 4] 60, .flush true 60] [⟨.ready, .wrote 2⟩, ⟨.expired, .wrote 0⟩, ⟨.ready, .wrote 4⟩]
        (new 4 (by decide))).map (fun x => (x.accepted, x.taken)) = some ([1, 2, 1, 2, 3, 4], [1, 2, 3, 4]) := by
  decide +kernel

end PipeStream

end Rdm
