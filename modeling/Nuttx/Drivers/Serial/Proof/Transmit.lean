import Nuttx.Drivers.Serial.Transmit

/-!
# The transmit law

The bytes sent and those in the ring are what the output modes make of the bytes that were reported
as written and of those that the call under way has dealt with.
-/

open List

namespace Nuttx.Serial.Transmit

variable {oflag : BitVec 32} {s : State} {stream : List UInt8} {call : Call} {written : List UInt8}
  {put : Put}

def mapped (oflag : BitVec 32) (bytes : List UInt8) : List UInt8 := bytes.flatMap (posixOutput oflag)

theorem mapped_append (bytes bytes' : List UInt8) :
    mapped oflag (bytes ++ bytes') = mapped oflag bytes ++ mapped oflag bytes' := flatMap_append

def Put.all : Put → List UInt8
  | .first ch | .byte ch true => [cr, ch]
  | .byte ch false => [ch]

def Put.before : Put → List UInt8
  | .first _ | .byte _ false => []
  | .byte _ true => [cr]

theorem newline_mode_iff (oflag : BitVec 32) :
    oflag &&& (onlcr ||| onlret) ≠ 0 ↔ oflag &&& onlcr ≠ 0 ∨ oflag &&& onlret ≠ 0 := by
  have hparts : (onlcr ||| onlret) &&& onlcr = onlcr ∧ (onlcr ||| onlret) &&& onlret = onlret := by decide
  constructor
  · intro h
    by_contra hnot
    rw [not_or, not_not, not_not] at hnot
    refine h ?_
    rw [BitVec.and_or_distrib_left, hnot.1, hnot.2]
    exact BitVec.or_self
  · intro h hzero
    rcases h with h | h
    · refine h ?_
      rw [← hparts.1, ← BitVec.and_assoc, hzero]
      exact BitVec.zero_and
    · refine h ?_
      rw [← hparts.2, ← BitVec.and_assoc, hzero]
      exact BitVec.zero_and

theorem process_all (oflag : BitVec 32) (ch : UInt8) : (process oflag ch).all = posixOutput oflag ch := by
  unfold process posixOutput
  by_cases hopost : oflag &&& opost = 0
  · rw [if_neg (not_not.mpr hopost), if_pos hopost]
    rfl
  rw [if_pos hopost, if_neg hopost]
  generalize (if ch = cr ∧ oflag &&& ocrnl ≠ 0 then nl else ch) = ch'
  by_cases hnl : ch' = nl ∧ oflag &&& (onlcr ||| onlret) ≠ 0
  · rw [if_pos hnl, if_pos ⟨hnl.1, (newline_mode_iff oflag).mp hnl.2⟩, hnl.1]
    rfl
  · rw [if_neg hnl, if_neg fun h => hnl ⟨h.1, (newline_mode_iff oflag).mpr h.2⟩]
    rfl

theorem process_before (oflag : BitVec 32) (ch : UInt8) : (process oflag ch).before = [] := by
  unfold process
  dsimp only
  generalize (if ch = cr ∧ oflag &&& ocrnl ≠ 0 then nl else ch) = ch'
  split_ifs
  · rfl
  · rfl
  · rfl

def State.line (s : State) : List UInt8 := s.sent ++ s.xmit.contents

/-- The call under way: the bytes it has dealt with come before those it has still to deal with, and
`before` is what is in the ring of the current one. -/
def Under (oflag : BitVec 32) (s : State) (written : List UInt8) (call : Call) (before : List UInt8) : Prop :=
  ∃ done more, s.left = done ++ call.buffer ++ more ∧ done.length + call.buffer.length = call.nwritten ∧
    s.line = mapped oflag (written ++ done) ++ before

def Putting (oflag : BitVec 32) (s : State) (written : List UInt8) (call : Call) (put : Put) : Prop :=
  Under oflag s written call put.before ∧ ∃ ch rest, call.buffer = ch :: rest ∧ posixOutput oflag ch = put.all

def Facts (oflag : BitVec 32) (s : State) (written : List UInt8) : Prop :=
  match s.writer with
  | .idle => s.line = mapped oflag written
  | .loop call => Under oflag s written call []
  | .test call put | .locked call put | .waiting call put => Putting oflag s written call put
  | .ready call put => Putting oflag s written call put ∧ s.xmit.nexthead ≠ s.xmit.tail
  | .filled call put => Putting oflag s written call put ∧ s.xmit.nexthead ≠ s.xmit.tail ∧
      s.xmit.buffer s.xmit.head = put.ch

/-- **The stream** is what was reported as written and what is left. -/
def Inv (oflag : BitVec 32) (stream : List UInt8) (s : State) : Prop :=
  ∃ written, stream = written ++ s.left ∧ Facts oflag s written

structure Sends (s s' : State) : Prop where
  line : s'.line = s.line
  writer : s'.writer = s.writer
  left : s'.left = s.left
  buffer : s'.xmit.buffer = s.xmit.buffer
  head : s'.xmit.head = s.xmit.head
  room : s.xmit.nexthead ≠ s.xmit.tail → s'.xmit.nexthead ≠ s'.xmit.tail

theorem xmitchars_sends (s : State) (count : Nat) : Sends s (xmitchars s count) := by
  induction count generalizing s with
  | zero => exact ⟨rfl, rfl, rfl, rfl, rfl, id⟩
  | succ count ih =>
    rw [xmitchars]
    split_ifs with hsome
    · have htake := UartBuffer.contents_take hsome
      have hrest := ih { s with
        xmit := s.xmit.setTail s.xmit.tail
        sent := s.sent ++ [s.xmit.buffer s.xmit.tail] }
      refine ⟨hrest.line.trans ?_, hrest.writer, hrest.left, hrest.buffer, hrest.head,
        fun hroom => hrest.room fun hfull => hroom ?_⟩
      · unfold State.line
        rw [htake, append_assoc]
        rfl
      -- a byte fewer is in the ring, so that it was not full with it if it is full without it
      have hfewer : s.xmit.contents.length = (s.xmit.setTail s.xmit.tail).contents.length + 1 := by
        rw [htake]
        rfl
      have hzero := UartBuffer.room_eq_zero_iff.mpr hfull
      refine UartBuffer.room_eq_zero_iff.mp ?_
      unfold UartBuffer.room at hzero ⊢
      change s.xmit.size - 1 - (s.xmit.setTail s.xmit.tail).contents.length = 0 at hzero
      omega
    · exact ⟨rfl, rfl, rfl, rfl, rfl, id⟩

theorem Under.sends {s' : State} {written before : List UInt8} (h : Sends s s')
    (hunder : Under oflag s written call before) : Under oflag s' written call before := by
  obtain ⟨done, more, hleft, hcount, hline⟩ := hunder
  exact ⟨done, more, h.left.trans hleft, hcount, h.line.trans hline⟩

theorem Facts.sends {s' : State} (h : Sends s s') (hfacts : Facts oflag s written) :
    Facts oflag s' written := by
  unfold Facts at hfacts ⊢
  rw [h.writer]
  cases hwriter : s.writer with
  | idle =>
    rw [hwriter] at hfacts
    exact h.line.trans hfacts
  | loop call =>
    rw [hwriter] at hfacts
    exact Under.sends h hfacts
  | test call put | locked call put | waiting call put =>
    rw [hwriter] at hfacts
    exact ⟨hfacts.1.sends h, hfacts.2⟩
  | ready call put =>
    rw [hwriter] at hfacts
    exact ⟨⟨hfacts.1.1.sends h, hfacts.1.2⟩, h.room hfacts.2⟩
  | filled call put =>
    rw [hwriter] at hfacts
    refine ⟨⟨hfacts.1.1.sends h, hfacts.1.2⟩, h.room hfacts.2.1, ?_⟩
    rw [h.buffer, h.head]
    exact hfacts.2.2

theorem finish_inv {written done rest : List UInt8} (hstream : stream = written ++ s.left)
    (hleft : s.left = done ++ rest) (hline : s.line = mapped oflag (written ++ done)) :
    Inv oflag stream (s.finish done.length) := by
  refine ⟨written ++ done, ?_, hline⟩
  show stream = written ++ done ++ (if (0 : Int) ≤ done.length then s.left.drop (done.length : Int).toNat else s.left)
  rw [if_pos (Int.natCast_nonneg _), Int.toNat_natCast, hstream, hleft, drop_left, append_assoc]

theorem fail_inv {ret : Int} (hstream : stream = written ++ s.left)
    (hunder : Under oflag s written call []) (hret : ret < 0) : Inv oflag stream (s.fail call ret) := by
  obtain ⟨done, more, hleft, hcount, hline⟩ := hunder
  rw [append_nil] at hline
  unfold State.fail
  dsimp only
  split_ifs with hsome
  · rw [show (call.nwritten - call.buffer.length : Int) = done.length by omega]
    exact finish_inv hstream (hleft.trans (append_assoc _ _ _)) hline
  obtain rfl : done = [] := length_eq_zero_iff.mp (by omega)
  refine ⟨written, ?_, ?_⟩
  · show stream = written ++ (if 0 ≤ ret then s.left.drop ret.toNat else s.left)
    rw [if_neg (by omega)]
    exact hstream
  · rw [append_nil] at hline
    exact hline

theorem before_eq_nil (h : ∀ ch, put ≠ .byte ch true) : put.before = [] := by
  cases put with
  | first ch => rfl
  | byte ch paired =>
    cases paired with
    | false => rfl
    | true => exact absurd rfl (h ch)

/-- **A byte was put into the ring**: the carriage return of a pair is followed by the other byte of
it; otherwise the current byte is dealt with. -/
theorem filled_inv {xmit : UartBuffer} {left sent : List UInt8}
    (h : Inv oflag stream ⟨xmit, .filled call put, left, sent⟩) :
    Inv oflag stream ((State.mk xmit (.filled call put) left sent).step oflag) := by
  obtain ⟨written, hstream, ⟨⟨done, more, hleft, hcount, hline⟩, ch, rest, hbuffer, hall⟩, hroom, hslot⟩ := h
  change left = done ++ call.buffer ++ more at hleft
  have hgrow : ∀ writer, (State.mk xmit.advanceHead writer left sent).line =
      mapped oflag (written ++ done) ++ (put.before ++ [put.ch]) := by
    intro writer
    rw [← append_assoc, ← hline, ← hslot, State.line, State.line, UartBuffer.contents_advanceHead hroom,
      append_assoc]
  refine ⟨written, ?_⟩
  cases put with
  | first ch' =>
    exact ⟨hstream, ⟨done, more, hleft, hcount, hgrow _⟩, ch, rest, hbuffer, hall⟩
  | byte ch' paired =>
    have hput : (Put.byte ch' paired).before ++ [ch'] = posixOutput oflag ch := by
      rw [hall]
      cases paired with
      | false => rfl
      | true => rfl
    refine ⟨hstream, done ++ [ch], more, ?_, ?_, ?_⟩
    · show left = done ++ [ch] ++ call.buffer.tail ++ more
      rw [hleft, hbuffer]
      exact congrArg (· ++ more) (append_assoc done [ch] rest).symm
    · show (done ++ [ch]).length + call.buffer.tail.length = call.nwritten
      rw [← hcount, hbuffer, length_append, length_singleton, tail_cons, length_cons]
      omega
    · refine (hgrow _).trans ?_
      rw [← append_assoc written, mapped_append (written ++ done), append_nil]
      refine congrArg (mapped oflag (written ++ done) ++ ·) (hput.trans ?_)
      exact (flatMap_singleton _ _).symm

section

variable (h : Inv oflag stream s)
include h

theorem step_inv (hfit : Fit s .step) : Inv oflag stream (s.step oflag) := by
  obtain ⟨xmit, writer, left, sent⟩ := s
  cases writer with
  | idle => exact h
  | waiting call put => exact h
  | loop call =>
    obtain ⟨written, hstream, done, more, hleft, hcount, hline⟩ := h
    unfold State.step
    dsimp only
    cases hbuffer : call.buffer with
    | nil =>
      rw [hbuffer] at hleft hcount
      rw [show (call.nwritten : Int) = done.length by rw [← hcount]; rfl]
      refine finish_inv hstream (hleft.trans (append_assoc _ _ _)) ?_
      rw [hline, append_nil]
    | cons ch rest =>
      refine ⟨written, hstream, ⟨done, more, hleft, hcount, ?_⟩, ch, rest, hbuffer, (process_all oflag ch).symm⟩
      rw [process_before]
      exact hline
  | test call put =>
    obtain ⟨written, hstream, hputting⟩ := h
    unfold State.step
    dsimp only
    split_ifs with hroom hnonblock
    · exact ⟨written, hstream, hputting, hroom⟩
    · have hbefore : put.before = [] := before_eq_nil fun ch hput => by
        subst hput
        exact hroom (hfit hnonblock)
      refine fail_inv hstream ?_ (by decide)
      rw [← hbefore]
      exact hputting.1
    · exact ⟨written, hstream, hputting⟩
  | ready call put =>
    obtain ⟨written, hstream, ⟨⟨done, more, hleft, hcount, hline⟩, hbyte⟩, hroom⟩ := h
    refine ⟨written, hstream, ⟨⟨done, more, hleft, hcount, ?_⟩, hbyte⟩, hroom, Function.update_self _ _ _⟩
    rw [← hline]
    exact congrArg (sent ++ ·) (UartBuffer.contents_setSlot put.ch)
  | filled call put => exact filled_inv h
  | locked call put =>
    obtain ⟨written, hstream, hputting⟩ := h
    unfold State.step
    split_ifs
    all_goals exact ⟨written, hstream, hputting⟩

theorem wake_inv {signal : Bool} (hfit : Fit s (.wake signal)) :
    Inv oflag stream (s.wake signal) := by
  obtain ⟨xmit, writer, left, sent⟩ := s
  cases writer with
  | idle | loop _ | test _ _ | ready _ _ | filled _ _ | locked _ _ => exact h
  | waiting call put =>
    obtain ⟨written, hstream, hputting⟩ := h
    unfold State.wake
    split_ifs with hsignal
    · have hbefore : put.before = [] := before_eq_nil fun ch hput => by
        subst hput
        exact absurd hsignal (Bool.eq_false_iff.mp hfit)
      refine fail_inv hstream ?_ (by decide)
      rw [← hbefore]
      exact hputting.1
    · exact ⟨written, hstream, hputting⟩

theorem next_inv {event : Event} (hfit : Fit s event) : Inv oflag stream (next oflag s event) := by
  cases event with
  | interrupt count =>
    obtain ⟨written, hstream, hfacts⟩ := h
    have hsends := xmitchars_sends s count
    refine ⟨written, ?_, Facts.sends hsends hfacts⟩
    rw [hstream]
    exact congrArg (written ++ ·) hsends.left.symm
  | write buflen nonblock =>
    obtain ⟨xmit, writer, left, sent⟩ := s
    cases writer with
    | idle =>
      obtain ⟨written, hstream, hline⟩ := h
      refine ⟨written, hstream, [], left.drop buflen, ?_, Nat.zero_add _, ?_⟩
      · exact (take_append_drop buflen left).symm
      · rw [append_nil, append_nil]
        exact hline
    | loop _ | test _ _ | ready _ _ | filled _ _ | locked _ _ | waiting _ _ => exact h
  | step => exact step_inv h hfit
  | wake signal => exact wake_inv h hfit

theorem run_inv {events : List Event} (hfit : Runs.Along (next oflag) Fit s events) :
    Inv oflag stream (events.foldl (next oflag) s) := by
  induction events generalizing s with
  | nil => exact h
  | cons event events ih => exact ih (next_inv h hfit.1) hfit.2

end

theorem Put.before_begins (put : Put) : put.before <+: put.all := by
  cases put with
  | first ch => exact List.nil_prefix
  | byte ch paired =>
    cases paired with
    | false => exact List.nil_prefix
    | true => exact ⟨[ch], rfl⟩

theorem Under.line_begins {written before : List UInt8} (hstream : stream = written ++ s.left)
    (h : Under oflag s written call before) (hbefore : before <+: mapped oflag call.buffer) :
    s.line <+: mapped oflag stream := by
  obtain ⟨done, more, hleft, -, hline⟩ := h
  have hsplit : stream = written ++ done ++ (call.buffer ++ more) := by
    rw [hstream, hleft, append_assoc, append_assoc]
  rw [hline, hsplit, mapped_append (written ++ done), prefix_append_right_inj, mapped_append]
  exact hbefore.trans (prefix_append _ _)

theorem Putting.line_begins
    (hstream : stream = written ++ s.left) (h : Putting oflag s written call put) :
    s.line <+: mapped oflag stream := by
  obtain ⟨hunder, ch, rest, hbuffer, hall⟩ := h
  refine hunder.line_begins hstream (put.before_begins.trans ?_)
  rw [hbuffer, ← hall, mapped, flatMap_cons]
  exact prefix_append _ _

theorem Inv.line_begins (h : Inv oflag stream s) : s.line <+: mapped oflag stream := by
  obtain ⟨written, hstream, hfacts⟩ := h
  unfold Facts at hfacts
  split at hfacts
  · rw [hfacts, hstream, mapped_append]
    exact prefix_append _ _
  · exact hfacts.line_begins hstream List.nil_prefix
  · exact hfacts.line_begins hstream
  · exact hfacts.line_begins hstream
  · exact hfacts.line_begins hstream
  all_goals exact hfacts.1.line_begins hstream

/-- **The transmit law** for every run in which the second half of a pair is not given up: the bytes
sent are a beginning of the mapped stream, and between the calls, with those in the ring, they are what
the output modes make of the bytes that were reported as written. -/
theorem sent_eq_mapped (oflag : BitVec 32) (size : Nat) (hsize : 2 ≤ size ∧ size < 2 ^ 15)
    (buffer : Nat → UInt8) (stream : List UInt8) (events : List Event)
    (hfit : Runs.Along (next oflag) Fit (initial size hsize buffer stream) events) :
    (events.foldl (next oflag) (initial size hsize buffer stream)).sent <+: mapped oflag stream ∧
      ((events.foldl (next oflag) (initial size hsize buffer stream)).writer = .idle →
        ∃ written, stream = written ++ (events.foldl (next oflag) (initial size hsize buffer stream)).left ∧
          (events.foldl (next oflag) (initial size hsize buffer stream)).line = mapped oflag written) := by
  have hstart : Inv oflag stream (initial size hsize buffer stream) :=
    ⟨[], rfl, UartBuffer.contents_eq_nil_iff.mpr rfl⟩
  have hinv := run_inv hstart hfit
  refine ⟨(prefix_append _ _).trans hinv.line_begins, fun hidle => ?_⟩
  obtain ⟨written, hstream, hfacts⟩ := hinv
  unfold Facts at hfacts
  rw [hidle] at hfacts
  exact ⟨written, hstream, hfacts⟩

def writeOne : List Event :=
  [.write 1 true, .step, .step, .step, .step, .step, .step, .step, .step, .interrupt 2]

theorem sent_eq_mapped_writeOne :
    (writeOne.foldl (next (opost ||| onlcr)) (initial 3 (by decide) (fun _ => 0) [nl])).sent <+:
        mapped (opost ||| onlcr) [nl] ∧
      ((writeOne.foldl (next (opost ||| onlcr)) (initial 3 (by decide) (fun _ => 0) [nl])).writer = .idle →
        ∃ written, [nl] = written ++
            (writeOne.foldl (next (opost ||| onlcr)) (initial 3 (by decide) (fun _ => 0) [nl])).left ∧
          (writeOne.foldl (next (opost ||| onlcr)) (initial 3 (by decide) (fun _ => 0) [nl])).line =
            mapped (opost ||| onlcr) written) := by
  apply sent_eq_mapped
  exact ⟨trivial, trivial, trivial, trivial, trivial, fun _ => by decide, trivial, trivial, trivial, trivial,
    trivial⟩

/-- A new line is written twice without blocking, with room for one byte, and what is in the ring is
sent each time. -/
def writeTwice : List Event :=
  [.write 1 true, .step, .step, .step, .step, .step, .interrupt 1,
    .write 1 true, .step, .step, .step, .step, .step, .interrupt 1]

/-- **The carriage return is sent twice**, because it stays in the ring when the new line behind it
finds no room, and the new line is not reported as written. -/
theorem carriage_return_repeated :
    (writeTwice.foldl (next (opost ||| onlcr)) (initial 2 (by decide) (fun _ => 0) [nl])).sent = [cr, cr] ∧
      mapped (opost ||| onlcr) [nl] = [cr, nl] := by
  decide

end Nuttx.Serial.Transmit
