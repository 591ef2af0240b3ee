import Nuttx.Drivers.Pipes.Proof.Effects
import Nuttx.Library.Runs

/-!
# The stream through a pipe

What was stored is what was removed followed by what is in the buffer. One invariant carries this
over every step.
-/

open List Function

namespace Nuttx.Pipe

variable {T : Type} {start : Dev} {pc : Pc}

def bytesOf [DecidableEq T] (call : T × Nat) (log : List ((T × Nat) × UInt8)) : List UInt8 :=
  (log.filter fun entry => entry.1 = call).map Prod.snd

structure Parks (sem : WaitSem T) (place : Pc → Bool) (pc : T → Pc) : Prop where
  valid : sem.Valid
  at_place : ∀ t ∈ sem.waiters, place (pc t) = true

/-- What the `k`th call of a thread has moved: the calls before have returned, the one after them is
where `pc` says. -/
def movedBy (returned : Return → List UInt8) (going : Pc → List UInt8) (calls : List Return) (pc : Pc)
    (k : Nat) : List UInt8 :=
  (calls[k]?.map returned).getD (if k = calls.length then going pc else [])

def Sys.moved (s : Sys T) (returned : Return → List UInt8) (going : Pc → List UInt8) (t : T) (k : Nat) :
    List UInt8 :=
  movedBy returned going (s.returned t) (s.pc t) k

variable [DecidableEq T]

structure Inv (start : Dev) (s : Sys T) : Prop where
  bufsize : s.dev.bufsize = start.bufsize
  valid : s.dev.Valid
  mutex : s.bfsem.Mutex fun t => (s.pc t).inside = true
  entering : Parks s.bfsem Pc.enters s.pc
  parked : ∀ sem, Parks (s.waitsem sem) (Pc.sleeps sem) s.pc
  stream : start.contents ++ s.stored.map Prod.snd = s.removed.map Prod.snd ++ s.dev.contents
  asleep : ∀ sem, (s.waitsem sem).waiters ≠ [] → sem.Quiet s.dev ∨ ∃ t, (s.pc t).wakes sem = true
  full : ∀ t, (s.pc t).full = true → s.dev.Full
  gives : ∀ t sem, (s.pc t).gives sem = true → sem.Quiet s.dev
  stored : ∀ t k, bytesOf (t, k) s.stored = s.moved Return.stored Pc.stored t k
  removed : ∀ t k, bytesOf (t, k) s.removed = s.moved Return.removed Pc.removed t k
  right : ∀ t, ∀ r ∈ s.returned t, r.Right

variable {sem : WaitSem T} {t w : T} {op : SemOp} {s : Sys T} {e : Effect}

theorem Parks.perform {place : Pc → Bool} {pc : T → Pc} (h : Parks sem place pc)
    {pc' : Pc} (hmem : t ∈ sem.waiters ↔ op = .cancel) (hwait : op = .wait → place pc' = true) :
    Parks (op.perform t w sem) place (update pc t pc') := by
  -- a thread that waited before and is not the one that acts
  have hkeep : ∀ u ∈ sem.waiters, u ≠ t → place (update pc t pc' u) = true := by
    intro u hu hne
    rw [update_of_ne hne]
    exact h.at_place u hu
  cases op with
  | none =>
    have hnot : t ∉ sem.waiters := fun hmem' => absurd (hmem.mp hmem') SemOp.noConfusion
    exact ⟨h.valid, fun u hu => hkeep u hu fun heq => hnot (heq ▸ hu)⟩
  | wait =>
    have hnot : t ∉ sem.waiters := fun hmem' => absurd (hmem.mp hmem') SemOp.noConfusion
    refine ⟨h.valid.wait hnot, fun u hu => ?_⟩
    by_cases heq : u = t
    · rw [heq, update_self]
      exact hwait rfl
    · exact hkeep u ((WaitSem.mem_of_mem_wait hu).resolve_right heq) heq
  | post =>
    have hnot : t ∉ sem.waiters := fun hmem' => absurd (hmem.mp hmem') SemOp.noConfusion
    refine ⟨h.valid.post w, fun u hu => ?_⟩
    have hu' := h.valid.mem_of_mem_post hu
    exact hkeep u hu' fun heq => hnot (heq ▸ hu')
  | cancel =>
    refine ⟨h.valid.cancel (hmem.mpr rfl), fun u hu => ?_⟩
    refine hkeep u (mem_of_mem_erase hu) ?_
    rintro rfl
    exact h.valid.nodup.not_mem_erase hu

theorem mutex_perform {pc : T → Pc} (h : sem.Mutex fun t => (pc t).inside = true)
    {pc' : Pc} (hmem : t ∈ sem.waiters ↔ op = .cancel)
    (hcrossing : Crossing op (pc t).inside pc'.inside) :
    (op.perform t w sem).Mutex fun u => (update pc t pc' u).inside = true := by
  have hupdate : ∀ u, (update pc t pc' u).inside = true ↔
      (u = t ∧ pc'.inside = true) ∨ u ≠ t ∧ (pc u).inside = true := by
    intro u
    by_cases heq : u = t
    · rw [heq, update_self]
      simp
    · rw [update_of_ne heq]
      simp [heq]
  generalize hb : (pc t).inside = b at hcrossing
  generalize hb' : pc'.inside = b' at hcrossing hupdate
  cases hcrossing with
  | stay b =>
    refine h.congr fun u => (hupdate u).trans ?_
    by_cases heq : u = t
    · simp [heq, hb]
    · simp [heq]
  | wait =>
    refine h.wait (by rw [hb]; exact Bool.false_ne_true) fun u => (hupdate u).trans ?_
    by_cases heq : u = t
    · simp [heq]
    · simp [heq]
  | post =>
    have hnot : t ∉ sem.waiters := fun hmem' => absurd (hmem.mp hmem') SemOp.noConfusion
    refine h.post ⟨hb, hnot⟩ (fun u => (hupdate u).trans ?_) w
    simp
  | cancel =>
    refine h.cancel (hmem.mpr rfl) fun u => (hupdate u).trans ?_
    simp

theorem bytesOf_append (call current : T × Nat) (log : List ((T × Nat) × UInt8)) (bytes : List UInt8) :
    bytesOf call (log ++ bytes.map fun b => (current, b)) =
      bytesOf call log ++ if call = current then bytes else [] := by
  unfold bytesOf
  rw [filter_append, map_append]
  congr 1
  by_cases heq : call = current
  · rw [if_pos heq, filter_eq_self.mpr, map_map]
    · exact map_id _
    · intro entry hentry
      obtain ⟨b, _, rfl⟩ := mem_map.mp hentry
      exact decide_eq_true heq.symm
  · rw [if_neg heq, filter_eq_nil_iff.mpr]
    · rfl
    · intro entry hentry
      obtain ⟨b, _, rfl⟩ := mem_map.mp hentry
      exact fun h => heq (of_decide_eq_true h).symm

section

variable {returned : Return → List UInt8} {going : Pc → List UInt8}

omit [DecidableEq T] in
theorem moved_current (s : Sys T) (t : T) (returned : Return → List UInt8) (going : Pc → List UInt8) :
    s.moved returned going t (s.returned t).length = going (s.pc t) := by
  unfold Sys.moved movedBy
  rw [List.getElem?_eq_none le_rfl, if_pos rfl]
  rfl

theorem movedBy_step {e : Effect} (hidle : going .idle = []) (hreturned : e.returned ≠ none → e.pc = .idle)
    (calls : List Return) (pc : Pc) (k : Nat) :
    movedBy returned going (calls ++ e.returned.toList) e.pc k =
      if k = calls.length then e.outcome returned going else movedBy returned going calls pc k := by
  unfold movedBy Effect.outcome
  cases hr : e.returned with
  | none =>
    rw [Option.toList_none, append_nil]
    by_cases hk : k = calls.length
    · rw [if_pos hk, if_pos hk, hk, List.getElem?_eq_none le_rfl]
    · rw [if_neg hk, if_neg hk, if_neg hk]
  | some r =>
    rw [Option.toList_some, hreturned (by rw [hr]; exact Option.some_ne_none r), hidle, ite_self]
    by_cases hk : k = calls.length
    · rw [if_pos hk, hk, List.getElem?_concat_length]
    rw [if_neg hk, if_neg hk]
    rcases Nat.lt_or_gt_of_ne hk with hlt | hgt
    · rw [List.getElem?_append_left hlt]
    · rw [List.getElem?_eq_none (by rw [length_append, length_singleton]; omega),
        List.getElem?_eq_none (by omega)]

variable {s : Sys T} {t w : T} {e : Effect}

theorem moved_perform (hidle : going .idle = []) (hreturned : e.returned ≠ none → e.pc = .idle) (u : T) (k : Nat) :
    (s.perform t w e).moved returned going u k =
      if (u, k) = s.current t then e.outcome returned going else s.moved returned going u k := by
  have hmoved : (s.perform t w e).moved returned going u k =
      movedBy returned going (update s.returned t (s.returned t ++ e.returned.toList) u)
        (update s.pc t e.pc u) k := rfl
  unfold Sys.moved at *
  rw [hmoved]
  by_cases heq : u = t
  · have hcurrent : (u, k) = s.current t ↔ k = (s.returned t).length := by
      rw [heq]
      exact ⟨fun h => (Prod.mk.inj h).2, fun h => by rw [h]; rfl⟩
    rw [heq, update_self, update_self, movedBy_step hidle hreturned _ (s.pc t)]
    simp only [← hcurrent, heq]
  · have hcurrent : ¬ (u, k) = s.current t := fun h => heq (Prod.mk.inj h).1
    rw [update_of_ne heq, update_of_ne heq, if_neg hcurrent]

theorem record_perform {log : List ((T × Nat) × UInt8)} {bytes : List UInt8} (hidle : going .idle = [])
    (hreturned : e.returned ≠ none → e.pc = .idle)
    (hlog : ∀ u k, bytesOf (u, k) log = s.moved returned going u k)
    (hbytes : going (s.pc t) ++ bytes = e.outcome returned going) (u : T) (k : Nat) :
    bytesOf (u, k) (log ++ bytes.map fun b => (s.current t, b)) =
      (s.perform t w e).moved returned going u k := by
  rw [bytesOf_append, moved_perform hidle hreturned, hlog]
  by_cases hcurrent : (u, k) = s.current t
  · obtain ⟨rfl, rfl⟩ := Prod.mk.inj hcurrent
    rw [if_pos hcurrent, if_pos hcurrent, moved_current, hbytes]
  · rw [if_neg hcurrent, if_neg hcurrent, append_nil]

end

theorem pc_perform_self (s : Sys T) (t w : T) (e : Effect) : (s.perform t w e).pc t = e.pc :=
  update_self _ _ _

theorem pc_perform_of_ne {u : T} (h : u ≠ t) :
    (s.perform t w e).pc u = s.pc u := update_of_ne h _ _

theorem mem_of_mem_perform {u : T} (h : sem.Valid) (hop : op ≠ .wait)
    (hu : u ∈ (op.perform t w sem).waiters) : u ∈ sem.waiters := by
  cases op with
  | none => exact hu
  | wait => exact absurd rfl hop
  | post => exact h.mem_of_mem_post hu
  | cancel => exact mem_of_mem_erase hu

theorem inside_of_full (h : pc.full = true) : pc.inside = true ∧ pc.enters = false := by
  cases pc with
  | check sem after | post sem after | finish after => exact ⟨rfl, rfl⟩
  | _ => cases h

theorem gave_of_gives {sem : Which} (h : pc.gives sem = true) : pc.gave? = true := by
  cases pc with
  | gave other sec => rfl
  | _ => cases h

theorem Inv.perform (h : Inv start s) (w : T) {waiting : Bool}
    (hwaiting : waiting = true ↔ s.Waits t)
    (hfirst : waiting = true ∨ ∀ u, (s.pc u).gave? = true → u = t)
    (he : Allowed waiting s.dev (fun sem => (s.waitsem sem).count) (s.pc t) e) :
    Inv start (s.perform t w e) := by
  -- where the thread is says what it waits for
  have hmutex : t ∈ s.bfsem.waiters ↔ e.bfsem = .cancel := by
    rw [he.cancelMutex, hwaiting]
    constructor
    · intro hmem
      exact ⟨.inl hmem, h.entering.at_place t hmem⟩
    rintro ⟨hmem | hmem | hmem, henters⟩
    · exact hmem
    · obtain ⟨sec, hpc⟩ := sleeps_iff.mp ((h.parked .rd).at_place t hmem)
      rw [hpc] at henters
      cases henters
    · obtain ⟨sec, hpc⟩ := sleeps_iff.mp ((h.parked .wr).at_place t hmem)
      rw [hpc] at henters
      cases henters
  have hsem : ∀ sem, t ∈ (s.waitsem sem).waiters ↔ e.waitsem sem = .cancel := by
    intro sem
    rw [he.cancel, hwaiting]
    constructor
    · intro hmem
      refine ⟨?_, (h.parked sem).at_place t hmem⟩
      cases sem with
      | rd => exact .inr (.inl hmem)
      | wr => exact .inr (.inr hmem)
    rintro ⟨hmem, hsleeps⟩
    obtain ⟨sec, hpc⟩ := sleeps_iff.mp hsleeps
    have hother : ∀ other, t ∈ (s.waitsem other).waiters → t ∈ (s.waitsem sem).waiters := by
      intro other hother
      obtain ⟨sec', hpc'⟩ := sleeps_iff.mp ((h.parked other).at_place t hother)
      have heq : sem = other := (Pc.sleep.inj (hpc.symm.trans hpc')).1
      rw [heq]
      exact hother
    rcases hmem with hmem | hmem | hmem
    · have henters := h.entering.at_place t hmem
      rw [hpc] at henters
      cases henters
    · exact hother _ hmem
    · exact hother _ hmem
  -- another thread that is in its section keeps this one from changing the device
  have halone : ∀ u, u ≠ t → (s.pc u).inside = true → (s.pc u).enters = false → e.dev = s.dev := by
    intro u hne hinside henters
    refine he.outside ?_
    by_contra hout
    obtain ⟨hin, hnot⟩ := not_or.mp hout
    have hnotbf : t ∉ s.bfsem.waiters := fun hmem => hnot (hwaiting.mpr (.inl hmem))
    refine hne (h.mutex.unique u t ⟨hinside, fun hmem => ?_⟩ ⟨Bool.eq_true_of_not_eq_false hin, hnotbf⟩)
    exact absurd (henters.symm.trans (h.entering.at_place u hmem)) Bool.false_ne_true
  have hreturned : e.returned ≠ none → e.pc = .idle := by
    intro hne
    obtain ⟨r, hr⟩ := Option.ne_none_iff_exists'.mp hne
    exact (he.returned r hr).1
  constructor
  case bufsize => exact (he.bufsize h.valid).trans h.bufsize
  case valid => exact he.valid h.valid
  case mutex => exact mutex_perform h.mutex hmutex he.crossing
  case entering => exact h.entering.perform hmutex he.enters
  case parked =>
    exact fun sem => (h.parked sem).perform (hsem sem) fun hwait => (he.sleeps sem hwait (h.gives t sem)).1
  case stream =>
    have hmap : ∀ (log : List ((T × Nat) × UInt8)) (bytes : List UInt8),
        (log ++ bytes.map fun b => (s.current t, b)).map Prod.snd = log.map Prod.snd ++ bytes := by
      intro log bytes
      rw [map_append, map_map]
      congr 1
      exact map_id _
    unfold Sys.perform
    rw [hmap, hmap, ← append_assoc, h.stream, append_assoc, append_assoc, he.stream h.valid]
  case asleep =>
    intro sem hne
    by_cases hwait : e.waitsem sem = .wait
    · exact .inl (he.sleeps sem hwait (h.gives t sem)).2
    have hbefore : (s.waitsem sem).waiters ≠ [] := by
      obtain ⟨u, hu⟩ := exists_mem_of_ne_nil _ hne
      exact ne_nil_of_mem (mem_of_mem_perform (h.parked sem).valid hwait hu)
    rcases h.asleep sem hbefore with hquiet | ⟨u, hu⟩
    · refine (he.quiet sem h.valid hquiet).imp_right fun hwakes => ⟨t, ?_⟩
      rw [pc_perform_self]
      exact hwakes
    by_cases heq : u = t
    · rw [heq] at hu
      rcases he.wakes sem hu with hwakes | hcount
      · refine .inr ⟨t, ?_⟩
        rw [pc_perform_self]
        exact hwakes
      · exact absurd ((h.parked sem).valid.waiters_eq_nil hcount) hbefore
    · refine .inr ⟨u, ?_⟩
      rw [pc_perform_of_ne heq]
      exact hu
  case full =>
    intro u hu
    by_cases heq : u = t
    · rw [heq, pc_perform_self] at hu
      exact he.full h.valid (h.full t) hu
    rw [pc_perform_of_ne heq] at hu
    have hsame : (s.perform t w e).dev = s.dev := halone u heq (inside_of_full hu).1 (inside_of_full hu).2
    rw [hsame]
    exact h.full u hu
  case gives =>
    intro u sem hu
    by_cases heq : u = t
    · rw [heq, pc_perform_self] at hu
      exact he.gives sem hu (h.full t)
    rw [pc_perform_of_ne heq] at hu
    have hsame : (s.perform t w e).dev = s.dev :=
      he.outside (.inr (hfirst.resolve_right fun hall => heq (hall u (gave_of_gives hu))))
    rw [hsame]
    exact h.gives u sem hu
  case stored => exact record_perform rfl hreturned h.stored he.stored
  case removed => exact record_perform rfl hreturned h.removed he.removed
  case right =>
    intro u r hr
    by_cases heq : u = t
    · rw [heq, show (s.perform t w e).returned t = _ from update_self ..] at hr
      rcases mem_append.mp hr with hr | hr
      · exact h.right t r hr
      · exact (he.returned r (Option.mem_toList.mp hr)).2
    · rw [show (s.perform t w e).returned u = _ from update_of_ne heq ..] at hr
      exact h.right u r hr

theorem Inv.place (h : Inv start s) (hwaits : s.Waits t) :
    (s.pc t).enters = true ∨ ∃ sem, (s.pc t).sleeps sem = true := by
  rcases hwaits with hmem | hmem | hmem
  · exact .inl (h.entering.at_place t hmem)
  · exact .inr ⟨.rd, (h.parked .rd).at_place t hmem⟩
  · exact .inr ⟨.wr, (h.parked .wr).at_place t hmem⟩

theorem Inv.step (h : Inv start s) {event : Event T} (halone : s.Alone event) :
    Inv start (s.step event) := by
  have hcrefs : 1 < s.crefs := Nat.lt_add_of_pos_left (Nat.succ_pos _)
  cases event with
  | call t call =>
    unfold Sys.step
    dsimp only
    split_ifs with hidle
    · have hnot : ¬ s.Waits t := by
        intro hwaits
        have hplace := h.place hwaits
        rw [hidle.1] at hplace
        rcases hplace with henters | ⟨sem, hsleeps⟩
        · cases henters
        · cases hsleeps
      refine h.perform t (iff_of_false Bool.false_ne_true hnot) (.inr halone) ?_
      rw [hidle.1]
      exact allowed_entry _ _ call
    · exact h
  | run t w =>
    unfold Sys.step
    dsimp only
    split_ifs with hwaits
    · exact h
    · exact h.perform w (iff_of_false Bool.false_ne_true hwaits) (.inr halone)
        (allowed_effect _ hcrefs _ _)
  | interrupt t canceled =>
    by_cases hwaits : s.Waits t
    · have hstep : s.step (.interrupt t canceled) =
          s.perform t t (interrupted s.dev (if canceled then .ecanceled else .eintr) (s.pc t)) :=
        if_pos hwaits
      rw [hstep]
      exact h.perform t (iff_of_true rfl hwaits) (.inl rfl) (allowed_interrupted _ _ _ (h.place hwaits))
    · have hstep : s.step (.interrupt t canceled) = s := if_neg hwaits
      rw [hstep]
      exact h

theorem Inv.run (h : Inv start s) {events : List (Event T)}
    (halone : Runs.Along Sys.step Sys.Alone s events) : Inv start (s.run events) := by
  induction events generalizing s with
  | nil => exact h
  | cons event events ih => exact ih (h.step halone.1) halone.2

/-- A pipe with a handle for reading and one for writing, and no thread in a call. It may hold bytes:
under policy 1 they are kept when no handle is open. -/
structure Start where
  dev : Dev
  size : 2 ≤ dev.bufsize
  valid : dev.Valid

def Start.sys (start : Start) (T : Type) : Sys T where
  dev := start.dev
  bfsem := ⟨1, []⟩
  waitsem := fun _ => ⟨0, []⟩
  pc := fun _ => .idle
  handles := 0
  returned := fun _ => []
  stored := []
  removed := []

theorem Inv.init (start : Start) : Inv start.dev (start.sys T) where
  bufsize := rfl
  valid := start.valid
  mutex := WaitSem.Mutex.init.congr fun _ => iff_of_false Bool.false_ne_true id
  entering := ⟨⟨rfl, nodup_nil⟩, fun _ h => absurd h not_mem_nil⟩
  parked := fun _ => ⟨⟨rfl, nodup_nil⟩, fun _ h => absurd h not_mem_nil⟩
  stream := append_nil _
  asleep := fun _ h => absurd rfl h
  full := fun _ h => absurd h Bool.false_ne_true
  gives := fun _ _ h => absurd h Bool.false_ne_true
  stored := fun _ _ => (ite_self _).symm
  removed := fun _ _ => (ite_self _).symm
  right := fun _ _ h => absurd h not_mem_nil

def Sys.InSection (s : Sys T) (t : T) : Prop := s.bfsem.Holds (fun u => (s.pc u).inside = true) t

/-- What a pipe promises in a state.

* What was in the buffer at the start and what was stored since is what was removed, followed by what
  is in the buffer.
* One slot of the buffer stays empty.
* A call that returned says how many bytes it moved, and these are its bytes in the records.
* A removed byte belongs to a call that returned it, or that has it and is about to leave its critical
  section.
* While a thread waits for `d_rdsem`, the buffer is empty, or the thread that is in its critical
  section is waking the waiting ones. -/
structure StreamLaw (start : Start) (s : Sys T) : Prop where
  order : start.dev.contents ++ s.stored.map Prod.snd = s.removed.map Prod.snd ++ s.dev.contents
  room : s.dev.contents.length ≤ start.dev.bufsize - 1
  returned : ∀ t k r, (s.returned t)[k]? = some r →
    r.Right ∧ bytesOf (t, k) s.stored = r.stored ∧ bytesOf (t, k) s.removed = r.removed
  delivered : ∀ call byte, (call, byte) ∈ s.removed →
    call.2 < (s.returned call.1).length ∨ call = s.current call.1 ∧ s.InSection call.1
  waking : ∀ t ∈ (s.waitsem .rd).waiters, s.dev.contents = [] ∨
    ∃ u, s.InSection u ∧ (s.pc u).wakes .rd = true
  asleep : (∀ u, ¬ s.InSection u) → ∀ t ∈ (s.waitsem .rd).waiters, s.dev.contents = []

theorem Inv.inSection (h : Inv start s) (hin : (s.pc t).inside = true)
    (henters : (s.pc t).enters = false) : s.InSection t :=
  ⟨hin, fun hmem => absurd (henters.symm.trans (h.entering.at_place t hmem)) Bool.false_ne_true⟩

theorem inside_of_wakes {sem : Which} (h : pc.wakes sem = true) :
    pc.inside = true ∧ pc.enters = false := by
  cases pc with
  | check other after | post other after => exact ⟨rfl, rfl⟩
  | _ => cases h

theorem inside_of_removed (h : pc.removed ≠ []) : pc.inside = true ∧ pc.enters = false := by
  cases pc with
  | check sem after | post sem after | finish after => exact ⟨rfl, rfl⟩
  | _ => exact absurd rfl h

/-- **The stream law** holds in every state of every run in which no other thread makes a step between
the post and the wait of a thread: for any number of threads, in any other order of their steps, with
waits ended by signals at any time. -/
theorem pipe_stream_law (start : Start) {events : List (Event T)}
    (halone : Runs.Along Sys.step Sys.Alone (start.sys T) events) :
    StreamLaw start ((start.sys T).run events) := by
  have h := (Inv.init start : Inv start.dev (start.sys T)).run halone
  generalize (start.sys T).run events = s at h
  have hwaking : ∀ t ∈ (s.waitsem .rd).waiters, s.dev.contents = [] ∨
      ∃ u, s.InSection u ∧ (s.pc u).wakes .rd = true := by
    intro t ht
    rcases h.asleep .rd (ne_nil_of_mem ht) with hquiet | ⟨u, hu⟩
    · exact .inl ((Dev.contents_eq_nil_iff h.valid).mpr hquiet)
    · exact .inr ⟨u, h.inSection (inside_of_wakes hu).1 (inside_of_wakes hu).2, hu⟩
  constructor
  case order => exact h.stream
  case room =>
    have hlt := SlotRing.used_lt h.valid.rdndx h.valid.wrndx
    unfold Dev.contents
    rw [SlotRing.length_contents, ← h.bufsize]
    omega
  case returned =>
    intro t k r hr
    refine ⟨h.right t r (mem_of_getElem? hr), ?_, ?_⟩
    · rw [h.stored, Sys.moved, movedBy, hr]
      rfl
    · rw [h.removed, Sys.moved, movedBy, hr]
      rfl
  case delivered =>
    rintro ⟨t, k⟩ byte hmem
    have hbytes : bytesOf (t, k) s.removed ≠ [] := by
      refine ne_nil_of_mem (a := byte) (mem_map.mpr ⟨((t, k), byte), ?_, rfl⟩)
      exact mem_filter.mpr ⟨hmem, decide_eq_true rfl⟩
    rw [h.removed] at hbytes
    rcases Nat.lt_trichotomy k (s.returned t).length with hlt | heq | hgt
    · exact .inl hlt
    · rw [heq, moved_current] at hbytes
      have hin := inside_of_removed hbytes
      exact .inr ⟨by rw [heq]; rfl, h.inSection hin.1 hin.2⟩
    · refine absurd ?_ hbytes
      rw [Sys.moved, movedBy, List.getElem?_eq_none (by omega), if_neg (by omega)]
      rfl
  case waking => exact hwaking
  case asleep =>
    intro hnone t ht
    refine (hwaking t ht).resolve_right ?_
    rintro ⟨u, hu, _⟩
    exact hnone u hu

def emptyPipe : Start := ⟨⟨0, 0, 2, 1, 1, false, false, fun _ => 0, true⟩, by decide, by constructor <;> decide⟩

def blocking : Oflags := ⟨true, true, false⟩

/-- The reader `false` waits; the writer `true` stores a byte, wakes it and waits to store another one. -/
def pingPong : List (Event Bool) :=
  [.call false (.read blocking 1), .run false true, .run false true, .run false true,
    .call true (.write blocking [65, 66]), .run true false, .run true false, .run true false,
    .run true false, .run true false, .run true false, .run true false,
    .run false true, .run false true, .run false true, .run false true, .run false true,
    .run false true, .run false true]

theorem pingPong_alone : Runs.Along Sys.step Sys.Alone (emptyPipe.sys Bool) pingPong := by
  decide

theorem pipe_stream_law_pingPong : Runs.Along Sys.step Sys.Alone (emptyPipe.sys Bool) pingPong ∧
    StreamLaw emptyPipe ((emptyPipe.sys Bool).run pingPong) :=
  ⟨pingPong_alone, pipe_stream_law emptyPipe pingPong_alone⟩

/-- The reader has posted `d_bfsem`; on another CPU the writer stores a byte and sees no waiting thread;
the reader waits. -/
def lostWakeup : List (Event Bool) :=
  [.call false (.read blocking 1), .run false true, .run false true,
    .call true (.write blocking [65]), .run true false, .run true false, .run true false,
    .run true false, .run false true]

theorem reader_sleeps_on_byte : ¬ StreamLaw emptyPipe ((emptyPipe.sys Bool).run lostWakeup) := by
  intro hlaw
  have hwaits : false ∈ (((emptyPipe.sys Bool).run lostWakeup).waitsem .rd).waiters := by decide
  have hbyte : ((emptyPipe.sys Bool).run lostWakeup).dev.contents = [65] := by decide
  have hnobody : ∀ u, (((emptyPipe.sys Bool).run lostWakeup).pc u).inside = false := by decide
  have hempty := hlaw.asleep (fun u hu => absurd ((hnobody u).symm.trans hu.1) Bool.false_ne_true) _ hwaits
  rw [hbyte] at hempty
  cases hempty

end Nuttx.Pipe
