import Nuttx.Drivers.Serial.Semaphores

/-!
# The semaphores are given back

Every call gives back the semaphore that it has taken, except for a `uart_tcdrain` that times out.
-/

open Function

namespace Nuttx.Serial.Sems

variable {cfg : Receive.Config} {oflag : BitVec 32} {taken taken' : Sem → Bool} {sem : Sem} {wait ret : Int}

theorem exists_of_bind {α β : Type} {first : Task α} {rest : α → Task β} {result : β × (Sem → Bool)}
    (h : (first >>= rest) taken = some result) :
    ∃ a taken₁, first taken = some (a, taken₁) ∧ rest a taken₁ = some result := by
  obtain ⟨⟨a, taken₁⟩, hfirst, hrest⟩ := Option.bind_eq_some_iff.mp h
  exact ⟨a, taken₁, hfirst, hrest⟩

theorem eq_of_lift {α : Type} {value : Option α} {a : α}
    (h : (liftM value : Task α) taken = some (a, taken')) : value = some a ∧ taken' = taken := by
  obtain ⟨b, rfl, hb⟩ := Option.bind_eq_some_iff.mp h
  cases hb
  exact ⟨rfl, rfl⟩

/-- Behind the wait for a semaphore: it was interrupted, or the semaphore was free. -/
theorem exists_of_take {α : Type} {failed : Int → α} {body : Int → Task α} {result : α × (Sem → Bool)}
    (h : (uartTakesem sem wait >>= fun ret => if ret < 0 then pure (failed ret) else body ret) taken =
      some result) :
    result.2 = taken ∧ wait < 0 ∨
      0 ≤ wait ∧ taken sem = false ∧ body wait (update taken sem true) = some result := by
  obtain ⟨ret, taken₁, htake, h⟩ := exists_of_bind h
  rw [uartTakesem] at htake
  split_ifs at htake with hwait hheld <;> cases htake
  · rw [if_pos hwait] at h
    cases h
    exact .inl ⟨rfl, hwait⟩
  · rw [if_neg hwait] at h
    exact .inr ⟨not_lt.mp hwait, by simpa using hheld, h⟩

theorem update_give (hfree : taken sem = false) : update (update taken sem true) sem false = taken := by
  rw [update_idem, ← hfree, update_eq_self]

theorem taken_of_open {call : Open} {result : (Int × UInt8) × (Sem → Bool)}
    (h : uartOpen call taken = some result) : result.2 = taken := by
  obtain ⟨hkept, -⟩ | ⟨-, hfree, h⟩ := exists_of_take h
  · exact hkept
  cases h
  exact update_give hfree

theorem taken_of_read {call : Read} {result : Int × (Sem → Bool)}
    (h : uartRead cfg call taken = some result) : result.2 = taken := by
  obtain ⟨hkept, -⟩ | ⟨-, hfree, h⟩ := exists_of_take h
  · exact hkept
  obtain ⟨recvd, taken₁, hloop, h⟩ := exists_of_bind h
  obtain ⟨-, rfl⟩ := eq_of_lift hloop
  cases h
  exact update_give hfree

theorem taken_of_write {call : Write} {result : Int × (Sem → Bool)}
    (h : uartWrite oflag call taken = some result) : result.2 = taken := by
  rw [uartWrite] at h
  split_ifs at h
  · cases h
    rfl
  · cases h
    rfl
  · obtain ⟨hkept, -⟩ | ⟨-, hfree, h⟩ := exists_of_take h
    · exact hkept
    cases h
    exact update_give hfree
  · obtain ⟨hkept, -⟩ | ⟨-, hfree, h⟩ := exists_of_take h
    · exact hkept
    obtain ⟨nwritten, taken₁, hloop, h⟩ := exists_of_bind h
    obtain ⟨-, rfl⟩ := eq_of_lift hloop
    cases h
    exact update_give hfree

theorem drainLoop_nonneg (waits : List Int) :
    0 ≤ drainLoop ret waits ↔ 0 ≤ ret ∧ ∀ wait ∈ waits, 0 ≤ wait := by
  induction waits generalizing ret with
  | nil => simp [drainLoop]
  | cons wait waits ih =>
    rw [drainLoop, List.forall_mem_cons]
    split_ifs with hret
    · exact iff_of_false (not_le.mpr hret) fun h => not_lt.mpr h.1 hret
    · rw [ih, and_iff_right (not_lt.mp hret)]

/-- The polls end with a timeout exactly if none of them finds the FIFO empty before a sleep that ends
at the timeout or later. -/
theorem pollLoop_eq_false {timeout : Nat} {polls : List Poll} :
    pollLoop timeout polls = some false ↔ ∃ early last late, polls = early ++ last :: late ∧
      (∀ poll ∈ early ++ [last], poll.txempty = false) ∧ timeout ≤ last.elapsed := by
  induction polls with
  | nil => simp [pollLoop]
  | cons poll polls ih =>
    rw [pollLoop]
    split_ifs with hempty hlate
    · refine iff_of_false nofun ?_
      rintro ⟨early, last, late, heq, hall, -⟩
      have hfirst : poll ∈ early ++ [last] := by
        cases early <;> simp_all
      simp [hall poll hfirst] at hempty
    · exact iff_of_true rfl ⟨[], poll, polls, rfl, by simpa using hempty, hlate⟩
    · rw [ih]
      constructor
      · rintro ⟨early, last, late, rfl, hall, hlast⟩
        refine ⟨poll :: early, last, late, rfl, ?_, hlast⟩
        rw [List.cons_append, List.forall_mem_cons]
        exact ⟨by simpa using hempty, hall⟩
      · rintro ⟨early, last, late, heq, hall, hlast⟩
        cases early with
        | nil =>
          cases heq
          exact absurd hlast hlate
        | cons first early =>
          cases heq
          exact ⟨early, last, late, rfl, (List.forall_mem_cons.mp hall).2, hlast⟩

theorem Drain.poll_eq_false (call : Drain) : call.poll call.drained = some false ↔
    call.disconnected = false ∧ (∀ wait ∈ call.waits, 0 ≤ wait) ∧
      ∃ early last late, call.polls = early ++ last :: late ∧
        (∀ poll ∈ early ++ [last], poll.txempty = false) ∧ call.timeout ≤ last.elapsed := by
  have hdrained : 0 ≤ call.drained ↔ call.disconnected = false ∧ ∀ wait ∈ call.waits, 0 ≤ wait := by
    rw [drained]
    cases call.disconnected with
    | true => simp [enotconn]
    | false => simp [drainLoop_nonneg]
  rw [poll]
  split_ifs with hret
  · rw [← and_assoc, and_iff_right (hdrained.mp hret), pollLoop_eq_false]
  · exact iff_of_false nofun fun h => hret (hdrained.mpr ⟨h.1, h.2.1⟩)

theorem taken_of_tcdrain {call : Drain} {result : Int × (Sem → Bool)}
    (h : uartTcdrain call taken = some result) :
    call.TimesOut ∧ taken .xmit = false ∧ result.2 = update taken .xmit true ∨
      ¬ call.TimesOut ∧ result.2 = taken := by
  obtain ⟨hkept, hwait⟩ | ⟨hwait, hfree, h⟩ := exists_of_take h
  · exact .inr ⟨fun hlate => absurd hlate.1 (not_le.mpr hwait), hkept⟩
  obtain ⟨empty, taken₁, hpoll, h⟩ := exists_of_bind h
  obtain ⟨hempty, rfl⟩ := eq_of_lift hpoll
  cases empty with
  | false =>
    cases h
    exact .inl ⟨⟨hwait, call.poll_eq_false.mp hempty⟩, hfree, rfl⟩
  | true =>
    cases h
    refine .inr ⟨fun hlate => ?_, update_give hfree⟩
    cases hempty.symm.trans (call.poll_eq_false.mpr hlate.2)

theorem Call.taken_after {call : Call} (h : call.after cfg oflag taken = some taken') :
    call.TimesOut ∧ taken .xmit = false ∧ taken' .xmit = true ∨ ¬ call.TimesOut ∧ taken' = taken := by
  cases call with
  | openPort call =>
    obtain ⟨result, hresult, rfl⟩ := Option.map_eq_some_iff.mp h
    exact .inr ⟨id, taken_of_open hresult⟩
  | read call =>
    obtain ⟨result, hresult, rfl⟩ := Option.map_eq_some_iff.mp h
    exact .inr ⟨id, taken_of_read hresult⟩
  | write call =>
    obtain ⟨result, hresult, rfl⟩ := Option.map_eq_some_iff.mp h
    exact .inr ⟨id, taken_of_write hresult⟩
  | tcdrain call =>
    obtain ⟨result, hresult, rfl⟩ := Option.map_eq_some_iff.mp h
    refine (taken_of_tcdrain hresult).imp_left fun ⟨hlate, hfree, htaken⟩ => ⟨hlate, hfree, ?_⟩
    rw [htaken, update_self]

/-- By induction on the calls: once a call has timed out, `xmit.sem` stays taken. -/
theorem taken_after_calls {calls : List Call} (h : calls.foldlM (Call.after cfg oflag) taken = some taken') :
    (∃ call ∈ calls, call.TimesOut) ∧ taken .xmit = false ∧ taken' .xmit = true ∨
      (∀ call ∈ calls, ¬ call.TimesOut) ∧ taken' = taken := by
  induction calls generalizing taken with
  | nil =>
    cases h
    exact .inr ⟨fun _ h => absurd h List.not_mem_nil, rfl⟩
  | cons call calls ih =>
    rw [List.foldlM_cons] at h
    obtain ⟨taken₁, hcall, hcalls⟩ := Option.bind_eq_some_iff.mp h
    obtain ⟨hlate, hfree, htaken⟩ | ⟨hreturns, rfl⟩ := call.taken_after hcall
    · obtain ⟨-, hfree₁, -⟩ | ⟨-, rfl⟩ := ih hcalls
      · cases htaken.symm.trans hfree₁
      · exact .inl ⟨⟨call, List.mem_cons_self, hlate⟩, hfree, htaken⟩
    · refine (ih hcalls).imp (fun ⟨⟨late, hmem, hlate⟩, h⟩ => ?_) fun ⟨hall, h⟩ => ?_
      · exact ⟨⟨late, List.mem_cons_of_mem _ hmem, hlate⟩, h⟩
      · exact ⟨List.forall_mem_cons.mpr ⟨hreturns, hall⟩, h⟩

theorem putxmitchar_of_room {test : Test} (hroom : test.full = false) (oktoblock : Bool) (tests : List Test) :
    uartPutxmitchar oktoblock (test :: tests) = some (0, tests) :=
  if_pos hroom

theorem writeLoop_of_room (oktoblock : Bool) (nwritten : Nat) (buffer : List UInt8) {tests : List Test}
    (hroom : ∀ test ∈ tests, test.full = false) (henough : 2 * buffer.length ≤ tests.length) :
    writeLoop oflag oktoblock nwritten buffer tests = some (nwritten : Int) := by
  induction buffer generalizing tests with
  | nil => rfl
  | cons ch buffer ih =>
    obtain ⟨first, tests, rfl⟩ := List.exists_cons_of_length_pos (by simp at henough; omega : 0 < tests.length)
    obtain ⟨second, tests, rfl⟩ := List.exists_cons_of_length_pos (by simp at henough; omega : 0 < tests.length)
    simp only [List.forall_mem_cons] at hroom
    simp only [List.length_cons] at henough
    cases hput : Transmit.process oflag ch with
    | first ch =>
      simpa [writeLoop, hput, putxmitchar_of_room, hroom.1, hroom.2.1] using ih hroom.2.2 (by omega)
    | byte ch paired =>
      simpa [writeLoop, hput, putxmitchar_of_room, hroom.1] using
        ih (List.forall_mem_cons.mpr hroom.2) (by simp; omega)

/-- A write that the device accepts returns exactly if `xmit.sem` is free. -/
theorem Write.Accepted.returns_iff {call : Write} (h : call.Accepted) :
    (∃ after, uartWrite oflag call taken = some ((call.buffer.length : Int), after)) ↔
      taken .xmit = false := by
  have hloop : writeLoop oflag (!call.nonblock) _ _ _ = some _ :=
    writeLoop_of_room _ call.buffer.length call.buffer h.room h.enough
  cases htaken : taken .xmit with
  | true => simp [uartWrite, h.task, uartTakesem, not_lt.mpr h.wait, htaken, bind, StateT.bind]
  | false =>
    refine iff_of_true ⟨update (update taken .xmit true) .xmit false, ?_⟩ rfl
    have htake : uartTakesem .xmit call.wait taken = some (call.wait, update taken .xmit true) := by
      simp [uartTakesem, not_lt.mpr h.wait, htaken]
    simp only [uartWrite, h.task, h.connected, hloop, bind, StateT.bind, htake, Option.bind_some,
      not_lt.mpr h.wait, if_false, Bool.false_eq_true]
    rfl

/-- **The semaphores are free again** after the calls of one task, and another task can write, exactly if
none of the calls times out. -/
theorem free_after_iff (calls : List Call) (taken taken' : Sem → Bool)
    (hreturn : calls.foldlM (Call.after cfg oflag) taken = some taken') :
    ((∀ sem, taken' sem = true → taken sem = true) ↔ ∀ call ∈ calls, ¬ call.TimesOut) ∧
    (taken .xmit = false → ∀ call : Write, call.Accepted →
      ((∃ after, uartWrite oflag call taken' = some ((call.buffer.length : Int), after)) ↔
        ∀ call ∈ calls, ¬ call.TimesOut)) := by
  obtain ⟨⟨late, hmem, hlate⟩, hfree, htaken⟩ | ⟨hall, rfl⟩ := taken_after_calls hreturn
  · have hnot : ¬ ∀ call ∈ calls, ¬ call.TimesOut := fun hall => hall late hmem hlate
    refine ⟨iff_of_false (fun hkept => ?_) hnot, fun _ call haccepted => ?_⟩
    · cases hfree.symm.trans (hkept .xmit htaken)
    · rw [haccepted.returns_iff, htaken]
      exact iff_of_false nofun hnot
  · refine ⟨iff_of_true (fun _ h => h) hall, fun hfree call haccepted => ?_⟩
    rw [haccepted.returns_iff]
    exact iff_of_true hfree hall

def room : Test := ⟨false, false, false, 0, false⟩

/-- A port is opened for the first time, two bytes are written with a wait for room in between, the FIFO
is empty at the third poll, and a read is interrupted by a signal. -/
def session : List Call :=
  [.openPort ⟨0, false, 0, false, 0, 0⟩,
    .write ⟨false, 0, false, false, [97, nl], [room, room, ⟨true, true, false, 0, false⟩, room, room]⟩,
    .tcdrain ⟨0, false, [0, 0], [⟨false, 1⟩, ⟨false, 2⟩, ⟨true, 3⟩], 400⟩,
    .read ⟨0, 8, false, [⟨false, some 65, false, false, false, 0, false⟩,
      ⟨false, none, false, true, false, 0, false⟩, ⟨false, none, false, false, false, -4, false⟩]⟩]

theorem free_after_iff_session :
    ∃ taken, session.foldlM (Call.after ⟨true, Receive.icrnl⟩ (Transmit.opost ||| Transmit.onlcr))
        (fun _ => false) = some taken ∧
      (∀ call ∈ session, ¬ call.TimesOut) ∧
      ∃ after, uartWrite (Transmit.opost ||| Transmit.onlcr) ⟨false, 0, false, false, [97], [room, room]⟩
        taken = some (1, after) := by
  have hreturn : session.foldlM (Call.after ⟨true, Receive.icrnl⟩ (Transmit.opost ||| Transmit.onlcr))
      (fun _ => false) = some _ := rfl
  obtain ⟨hfree, hwrite⟩ := free_after_iff session (fun _ => false) _ hreturn
  refine ⟨_, hreturn, ?_⟩
  have hall := hfree.mp fun sem htaken => by cases sem <;> exact htaken
  exact ⟨hall, (hwrite rfl _ ⟨rfl, le_rfl, rfl, by decide, by decide⟩).mpr hall⟩

/-- **A write waits for ever** after a `uart_tcdrain` of 400 ticks whose FIFO is not empty before the
sleep from tick 399 to tick 400. -/
theorem write_after_timeout :
    ∃ taken, [Call.tcdrain ⟨0, false, [], [⟨false, 399⟩, ⟨false, 400⟩, ⟨true, 401⟩], 400⟩].foldlM
        (Call.after ⟨true, 0⟩ 0) (fun _ => false) = some taken ∧ taken .xmit = true ∧
      uartWrite 0 ⟨false, 0, false, false, [97], [room, room]⟩ taken = none :=
  ⟨_, rfl, rfl, rfl⟩

end Nuttx.Serial.Sems
