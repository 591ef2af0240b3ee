import Nuttx.Drivers.Serial.Receive

/-!
# The receive law

Every byte that arrives while there is room is in the ring or was taken out of it, in order, and the
reader has stored what the input processing makes of the bytes taken out.
-/

open List

namespace Nuttx.Serial.Receive

variable {cfg : Config} {s : State}

def Facts (cfg : Config) (s : State) (taken : List UInt8) : Prop :=
  match s.reader with
  | .idle => s.returned = taken.filterMap (process cfg.iflag)
  | .loop _ stored | .empty _ stored | .masked _ stored | .locked _ stored | .waiting _ stored =>
    s.returned ++ stored = taken.filterMap (process cfg.iflag)
  | .ready _ stored tail =>
    s.returned ++ stored = taken.filterMap (process cfg.iflag) ∧ tail = s.rxbuf.tail ∧ s.rxbuf.contents ≠ []
  | .fetched _ stored tail ch =>
    s.returned ++ stored = taken.filterMap (process cfg.iflag) ∧ tail = s.rxbuf.tail ∧
      s.rxbuf.contents.head? = some ch
  | .removed _ stored ch =>
    ∃ before, taken = before ++ [ch] ∧ s.returned ++ stored = before.filterMap (process cfg.iflag)

/-- **The bytes that arrived while there was room** were taken out or are in the ring. -/
def Inv (cfg : Config) (s : State) : Prop :=
  ∃ taken, s.accepted = taken ++ s.rxbuf.contents ∧ Facts cfg s taken

theorem arrive_spec (rxbuf : UartBuffer) (accepted : List UInt8) (ch : UInt8) :
    ∃ new, (arrive (rxbuf, accepted) ch).1.contents = rxbuf.contents ++ new ∧
      (arrive (rxbuf, accepted) ch).2 = accepted ++ new ∧ (arrive (rxbuf, accepted) ch).1.tail = rxbuf.tail := by
  unfold arrive recvchar
  dsimp only
  by_cases hfull : rxbuf.nexthead = rxbuf.tail
  · have hroom := UartBuffer.room_eq_zero_iff.mpr hfull
    rw [if_pos hfull, if_neg (by omega)]
    exact ⟨[], (append_nil _).symm, (append_nil _).symm, rfl⟩
  · have hroom := mt UartBuffer.room_eq_zero_iff.mp hfull
    rw [if_neg hfull, if_pos (by omega)]
    exact ⟨[ch], UartBuffer.contents_put hfull ch, rfl, rfl⟩

theorem foldl_arrive (bytes : List UInt8) (rxbuf : UartBuffer) (accepted : List UInt8) :
    ∃ new, (bytes.foldl arrive (rxbuf, accepted)).1.contents = rxbuf.contents ++ new ∧
      (bytes.foldl arrive (rxbuf, accepted)).2 = accepted ++ new ∧
      (bytes.foldl arrive (rxbuf, accepted)).1.tail = rxbuf.tail := by
  induction bytes generalizing rxbuf accepted with
  | nil => exact ⟨[], (append_nil _).symm, (append_nil _).symm, rfl⟩
  | cons ch bytes ih =>
    obtain ⟨first, hfirst, hfirst', htail⟩ := arrive_spec rxbuf accepted ch
    obtain ⟨rest, hrest, hrest', htail'⟩ := ih (arrive (rxbuf, accepted) ch).1 (arrive (rxbuf, accepted) ch).2
    refine ⟨first ++ rest, ?_, ?_, htail'.trans htail⟩
    · rw [foldl_cons, hrest, hfirst, append_assoc]
    · rw [foldl_cons, hrest', hfirst', append_assoc]

theorem Facts.grow {taken new accepted : List UInt8} {rxbuf : UartBuffer} (h : Facts cfg s taken)
    (hcontents : rxbuf.contents = s.rxbuf.contents ++ new) (htail : rxbuf.tail = s.rxbuf.tail) :
    Facts cfg { s with rxbuf := rxbuf, accepted := accepted } taken := by
  obtain ⟨old, reader, _, returned⟩ := s
  cases reader with
  | idle | loop _ _ | empty _ _ | masked _ _ | locked _ _ | waiting _ _ | removed _ _ _ => exact h
  | ready call stored tail =>
    obtain ⟨hstored, htails, hne⟩ := h
    refine ⟨hstored, htails.trans htail.symm, fun hnil => hne ?_⟩
    rw [hcontents] at hnil
    exact (append_eq_nil_iff.mp hnil).1
  | fetched call stored tail ch =>
    obtain ⟨hstored, htails, hhead⟩ := h
    refine ⟨hstored, htails.trans htail.symm, ?_⟩
    rw [hcontents, List.head?_append, hhead]
    rfl

theorem finish_inv {taken stored : List UInt8} {recvd : Int}
    (hring : s.accepted = taken ++ s.rxbuf.contents)
    (hstored : s.returned ++ stored = taken.filterMap (process cfg.iflag))
    (herror : recvd < 0 → stored = []) : Inv cfg (s.finish recvd stored) := by
  refine ⟨taken, hring, ?_⟩
  show (if 0 ≤ recvd then s.returned ++ stored else s.returned) = taken.filterMap (process cfg.iflag)
  split_ifs with hrecvd
  · exact hstored
  · rw [herror (by omega), append_nil] at hstored
    exact hstored

theorem step_inv (h : Inv cfg s) : Inv cfg (s.step cfg) := by
  obtain ⟨taken, hring, hfacts⟩ := h
  obtain ⟨rxbuf, reader, accepted, returned⟩ := s
  cases reader with
  | idle | waiting call stored => exact ⟨taken, hring, hfacts⟩
  | loop call stored =>
    unfold State.step
    dsimp only
    split_ifs with hmore hsome
    · exact ⟨taken, hring, hfacts, rfl, mt UartBuffer.contents_eq_nil_iff.mp hsome⟩
    · exact ⟨taken, hring, hfacts⟩
    · exact finish_inv hring hfacts fun hneg => absurd hneg (by omega)
  | ready call stored tail =>
    obtain ⟨hstored, htail, hne⟩ := hfacts
    obtain rfl : tail = rxbuf.tail := htail
    refine ⟨taken, hring, hstored, rfl, ?_⟩
    show rxbuf.contents.head? = some (rxbuf.buffer rxbuf.tail)
    rw [UartBuffer.contents_take (mt UartBuffer.contents_eq_nil_iff.mpr hne)]
    rfl
  | fetched call stored tail ch =>
    obtain ⟨hstored, htail, hhead⟩ := hfacts
    obtain rfl : tail = rxbuf.tail := htail
    have hne : rxbuf.head ≠ rxbuf.tail := by
      intro heq
      rw [UartBuffer.contents_eq_nil_iff.mpr heq] at hhead
      cases hhead
    have htake := UartBuffer.contents_take hne
    rw [htake] at hhead
    obtain rfl : rxbuf.buffer rxbuf.tail = ch := Option.some.inj hhead
    refine ⟨taken ++ [rxbuf.buffer rxbuf.tail], ?_, taken, rfl, hstored⟩
    change accepted = taken ++ rxbuf.contents at hring
    rw [hring, htake, append_assoc]
    rfl
  | removed call stored ch =>
    obtain ⟨before, rfl, hstored⟩ := hfacts
    unfold State.step
    dsimp only
    cases hprocess : process cfg.iflag ch with
    | none =>
      refine ⟨before ++ [ch], hring, ?_⟩
      show returned ++ stored = (before ++ [ch]).filterMap (process cfg.iflag)
      rw [filterMap_append, ← hstored, filterMap_cons_none hprocess, filterMap_nil, append_nil]
    | some ch' =>
      refine ⟨before ++ [ch], hring, ?_⟩
      show returned ++ (stored ++ [ch']) = (before ++ [ch]).filterMap (process cfg.iflag)
      rw [filterMap_append, ← hstored, filterMap_cons_some hprocess, filterMap_nil, append_assoc]
  | empty call stored =>
    unfold State.step
    dsimp only
    split_ifs with hblocks hnonblock hnone hsome hnonblock
    · exact finish_inv hring hfacts fun _ => length_eq_zero_iff.mp (by omega)
    · exact finish_inv hring hfacts fun hneg => absurd hneg (by omega)
    · exact ⟨taken, hring, hfacts⟩
    · exact finish_inv hring hfacts fun hneg => absurd hneg (by omega)
    · exact finish_inv hring hfacts fun _ => length_eq_zero_iff.mp (by omega)
    · exact ⟨taken, hring, hfacts⟩
  | masked call stored | locked call stored =>
    unfold State.step
    dsimp only
    split_ifs
    all_goals exact ⟨taken, hring, hfacts⟩

theorem wake_inv (h : Inv cfg s) (signal : Bool) : Inv cfg (s.wake signal) := by
  unfold State.wake
  split
  · rename_i call stored hreader
    obtain ⟨taken, hring, hfacts⟩ := h
    unfold Facts at hfacts
    rw [hreader] at hfacts
    split_ifs with hsignal hnone
    · exact finish_inv hring hfacts fun _ => length_eq_zero_iff.mp hnone
    · exact finish_inv hring hfacts fun hneg => absurd hneg (by omega)
    · exact ⟨taken, hring, hfacts⟩
  · exact h

theorem next_inv (h : Inv cfg s) (event : Event) : Inv cfg (next cfg s event) := by
  cases event with
  | interrupt bytes =>
    obtain ⟨taken, hring, hfacts⟩ := h
    obtain ⟨new, hcontents, haccepted, htail⟩ := foldl_arrive bytes s.rxbuf s.accepted
    refine ⟨taken, ?_, hfacts.grow hcontents htail⟩
    show (bytes.foldl arrive (s.rxbuf, s.accepted)).2 =
      taken ++ (bytes.foldl arrive (s.rxbuf, s.accepted)).1.contents
    rw [haccepted, hcontents, hring, append_assoc]
  | read call =>
    unfold next
    dsimp only
    split
    · rename_i hreader
      obtain ⟨taken, hring, hfacts⟩ := h
      unfold Facts at hfacts
      rw [hreader] at hfacts
      exact ⟨taken, hring, (append_nil _).trans hfacts⟩
    · exact h
  | step => exact step_inv h
  | wake signal => exact wake_inv h signal

theorem run_inv (h : Inv cfg s) (events : List Event) : Inv cfg (events.foldl (next cfg) s) := by
  induction events generalizing s with
  | nil => exact h
  | cons event events ih => exact ih (next_inv h event)

theorem discarded_eq_zero (iflag : BitVec 32) (ch : UInt8) : discarded iflag ch = 0 := by
  have hbits : (1 : BitVec 32) &&& igncr = 0#32 := by decide
  unfold discarded
  split_ifs
  · rw [← BitVec.and_assoc, BitVec.and_comm 1, BitVec.and_assoc, hbits, BitVec.and_zero]
    rfl
  · exact BitVec.zero_and

theorem mode_eq_zero {iflag mode : BitVec 32} (h : iflag &&& (inlcr ||| igncr ||| icrnl) = 0)
    (hmode : (inlcr ||| igncr ||| icrnl) &&& mode = mode) : iflag &&& mode = 0 := by
  rw [← hmode, ← BitVec.and_assoc, h]
  exact BitVec.zero_and

theorem process_eq (iflag : BitVec 32) (ch : UInt8) : process iflag ch = some (translate iflag ch) := by
  unfold process
  by_cases hany : iflag &&& (inlcr ||| igncr ||| icrnl) = 0
  · have hinlcr : iflag &&& inlcr = 0 := mode_eq_zero hany (by decide)
    have hicrnl : iflag &&& icrnl = 0 := mode_eq_zero hany (by decide)
    rw [if_neg (not_not.mpr hany), translate, if_neg fun h => h.2 hinlcr, if_neg fun h => h.2 hicrnl]
  · rw [if_pos hany]
    exact if_neg (not_not.mpr (discarded_eq_zero iflag _))

theorem posixInput_eq {iflag : BitVec 32} {ch : UInt8} (h : iflag &&& igncr = 0 ∨ ch ≠ cr) :
    posixInput iflag ch = some (translate iflag ch) := by
  unfold posixInput translate
  by_cases hcr : ch = cr
  · have hnl : ch ≠ nl := by
      rw [hcr]
      decide
    have higncr : iflag &&& igncr = 0 := h.resolve_right (not_not.mpr hcr)
    have hnot : ¬ (ch = nl ∧ iflag &&& inlcr ≠ 0) := fun hboth => hnl hboth.1
    rw [if_pos hcr, if_neg (not_not.mpr higncr), if_neg hnot]
    split_ifs with hicrnl hboth hboth
    · rfl
    · exact absurd ⟨hcr, hicrnl⟩ hboth
    · exact absurd hboth.2 hicrnl
    · rw [hcr]
  · rw [if_neg hcr]
    split_ifs with hnl hboth
    · rfl
    · exact absurd hboth.1 hcr
    · rfl

theorem filterMap_process_eq_iff (iflag : BitVec 32) (taken : List UInt8) :
    taken.filterMap (process iflag) = taken.filterMap (posixInput iflag) ↔
      iflag &&& igncr = 0 ∨ cr ∉ taken := by
  constructor
  · intro heq
    by_contra hnot
    rw [not_or, not_not] at hnot
    have hall : (taken.filterMap (process iflag)).length = taken.length := by
      rw [funext (process_eq iflag), filterMap_eq_map', length_map]
    have hless : (taken.filterMap (posixInput iflag)).length < taken.length := by
      refine length_filterMap_lt_length_iff_exists.mpr ⟨cr, hnot.2, ?_⟩
      rw [posixInput, if_pos rfl, if_pos hnot.1]
    rw [← heq, hall] at hless
    exact Nat.lt_irrefl _ hless
  · intro h
    refine filterMap_congr fun ch hch => (process_eq iflag ch).trans (posixInput_eq ?_).symm
    rcases h with hclear | hnone
    · exact .inl hclear
    · exact .inr fun heq => hnone (heq ▸ hch)

/-- **The receive law.** Between the calls of every run, the bytes accepted into the ring are those
taken out of it, in order, and those in it; and the bytes returned are what the input modes of POSIX
make of the bytes taken out, exactly if `IGNCR` is clear or no carriage return is among them. -/
theorem received_eq_posix_iff (cfg : Config) (size : Nat) (hsize : 2 ≤ size ∧ size < 2 ^ 15)
    (buffer : Nat → UInt8) (events : List Event)
    (hidle : (events.foldl (next cfg) (initial size hsize buffer)).reader = .idle) :
    ∃ taken, (events.foldl (next cfg) (initial size hsize buffer)).accepted =
        taken ++ (events.foldl (next cfg) (initial size hsize buffer)).rxbuf.contents ∧
      ((events.foldl (next cfg) (initial size hsize buffer)).returned =
          taken.filterMap (posixInput cfg.iflag) ↔ cfg.iflag &&& igncr = 0 ∨ cr ∉ taken) := by
  have hstart : Inv cfg (initial size hsize buffer) :=
    ⟨[], (UartBuffer.contents_eq_nil_iff.mpr rfl).symm, rfl⟩
  obtain ⟨taken, hring, hfacts⟩ := run_inv hstart events
  unfold Facts at hfacts
  rw [hidle] at hfacts
  refine ⟨taken, hring, ?_⟩
  rw [hfacts]
  exact filterMap_process_eq_iff cfg.iflag taken

def readOne : List Event :=
  [.interrupt [cr], .read ⟨1, true⟩, .step, .step, .step, .step, .step]

/-- Four bytes for a ring of three: the last one is lost, the read for four bytes takes three and waits, a
fifth byte wakes it up. -/
def readFour : List Event :=
  [.interrupt [65, cr, nl, 66], .read ⟨4, false⟩] ++ List.replicate 16 .step ++
    [.interrupt [67], .wake false] ++ List.replicate 5 .step

theorem received_eq_posix_iff_readFour :
    let final := readFour.foldl (next ⟨true, icrnl⟩) (initial 4 (by decide) fun _ => 0)
    final.returned = [65, nl, nl, 67] ∧
      ∃ taken, final.accepted = taken ++ final.rxbuf.contents ∧
        final.returned = taken.filterMap (posixInput icrnl) := by
  obtain ⟨taken, haccepted, hreturned⟩ := received_eq_posix_iff ⟨true, icrnl⟩ 4 (by decide) (fun _ => 0)
    readFour (by decide +kernel)
  exact ⟨by decide +kernel, taken, haccepted, hreturned.mpr (.inl (by decide))⟩

theorem carriage_return_not_ignored :
    (readOne.foldl (next ⟨false, igncr⟩) (initial 2 (by decide) fun _ => 0)).returned = [cr] ∧
      (readOne.foldl (next ⟨false, igncr⟩) (initial 2 (by decide) fun _ => 0)).accepted = [cr] ∧
      (readOne.foldl (next ⟨false, igncr⟩) (initial 2 (by decide) fun _ => 0)).rxbuf.contents = [] ∧
      [cr].filterMap (posixInput igncr) = [] := by
  decide

end Nuttx.Serial.Receive
