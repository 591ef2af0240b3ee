import Nuttx.Drivers.Pipes.System

/-!
# What one step can do

Each lemma says of every effect what one part of the invariant needs.
-/

open List Option

namespace Nuttx.Pipe

namespace Dev

structure Valid (dev : Dev) : Prop where
  wrndx : dev.wrndx < dev.bufsize
  rdndx : dev.rdndx < dev.bufsize

def Full (dev : Dev) : Prop := SlotRing.next dev.bufsize dev.wrndx = dev.rdndx

variable {dev : Dev} {sec : Section} {crefs : Nat} {pc' : Pc}

theorem contents_eq_nil_iff (h : dev.Valid) : dev.contents = [] ↔ dev.wrndx = dev.rdndx :=
  SlotRing.contents_eq_nil_iff h.rdndx

theorem readLoop_spec (len : Nat) (h : dev.Valid) :
    (dev.readLoop len).2.Valid ∧ (dev.readLoop len).2.bufsize = dev.bufsize ∧
      dev.contents = (dev.readLoop len).1 ++ (dev.readLoop len).2.contents := by
  induction len generalizing dev with
  | zero => exact ⟨h, rfl, rfl⟩
  | succ len ih =>
    rw [readLoop]
    split_ifs with hsome
    · have hnext : ({ dev with rdndx := SlotRing.next dev.bufsize dev.rdndx } : Dev).Valid :=
        ⟨h.wrndx, SlotRing.next_lt (by have := h.wrndx; omega) _⟩
      obtain ⟨hvalid, hsize, hcontents⟩ := ih hnext
      refine ⟨hvalid, hsize, ?_⟩
      rw [cons_append, ← hcontents]
      exact SlotRing.contents_pop h.rdndx h.wrndx hsome
    · exact ⟨h, rfl, rfl⟩

theorem writeLoop_spec (bytes : List UInt8) (h : dev.Valid) :
    (dev.writeLoop bytes).2.Valid ∧ (dev.writeLoop bytes).2.bufsize = dev.bufsize ∧
      dev.contents ++ bytes.take (dev.writeLoop bytes).1 = (dev.writeLoop bytes).2.contents ∧
      (bytes.drop (dev.writeLoop bytes).1 ≠ [] → (dev.writeLoop bytes).2.Full) ∧
      ((dev.writeLoop bytes).1 = 0 → (dev.writeLoop bytes).2 = dev) := by
  induction bytes generalizing dev with
  | nil => exact ⟨h, rfl, append_nil _, fun hne => absurd rfl hne, fun _ => rfl⟩
  | cons b bytes ih =>
    rw [writeLoop]
    split_ifs with hroom
    · have hnext : ({ dev with
          buffer := Function.update dev.buffer dev.wrndx b
          wrndx := SlotRing.next dev.bufsize dev.wrndx } : Dev).Valid :=
        ⟨SlotRing.next_lt (by have := h.wrndx; omega) _, h.rdndx⟩
      obtain ⟨hvalid, hsize, hcontents, hfull, _⟩ := ih hnext
      refine ⟨hvalid, hsize, ?_, hfull, False.elim⟩
      rw [← hcontents, take_succ_cons, append_cons]
      congr 1
      exact (SlotRing.contents_push h.rdndx h.wrndx hroom b).symm
    · exact ⟨h, rfl, append_nil _, fun _ => not_not.mp hroom, fun _ => rfl⟩

theorem writeLoop_of_full (h : dev.Full) (bytes : List UInt8) : (dev.writeLoop bytes).1 = 0 := by
  cases bytes with
  | nil => rfl
  | cons b bytes =>
    have hfull : ¬ SlotRing.next dev.bufsize dev.wrndx ≠ dev.rdndx := not_not.mpr h
    rw [writeLoop, if_neg hfull]

end Dev

def Pc.inside : Pc → Bool
  | .enter _ | .check _ _ | .post _ _ | .finish _ => true
  | _ => false

def Pc.enters : Pc → Bool
  | .enter _ => true
  | _ => false

def Pc.sleeps (sem : Which) : Pc → Bool
  | .sleep other _ => other = sem
  | _ => false

/-- The thread is about to wait as it found the buffer; an open has yet to look. -/
def Pc.gives (sem : Which) : Pc → Bool
  | .gave _ (.openFile _ _) => false
  | .gave other _ => other = sem
  | _ => false

def Pc.wakes (sem : Which) : Pc → Bool
  | .check other _ | .post other _ => other = sem
  | _ => false

inductive Crossing : SemOp → Bool → Bool → Prop
  | stay (b : Bool) : Crossing .none b b
  | wait : Crossing .wait false true
  | post : Crossing .post true false
  | cancel : Crossing .cancel true false

def Pc.full : Pc → Bool
  | .check _ (.full _ _ _ _) | .post _ (.full _ _ _ _) | .finish (.full _ _ _ _) => true
  | _ => false

def Which.Quiet (dev : Dev) : Which → Prop
  | .rd => dev.wrndx = dev.rdndx
  | .wr => dev.Full

def Section.stored : Section → List UInt8
  | .write _ sent _ _ => sent
  | _ => []

def After.stored : After → List UInt8
  | .written data => data
  | .full _ sent _ _ => sent
  | _ => []

def After.removed : After → List UInt8
  | .readDone out => out
  | _ => []

def Pc.stored : Pc → List UInt8
  | .idle => []
  | .take sec | .enter sec | .gave _ sec | .sleep _ sec => sec.stored
  | .check _ after | .post _ after | .finish after => after.stored

def Pc.removed : Pc → List UInt8
  | .check _ after | .post _ after | .finish after => after.removed
  | _ => []

def Return.stored : Return → List UInt8
  | .write _ stored _ => stored
  | _ => []

def Return.removed : Return → List UInt8
  | .read out _ => out
  | _ => []

def Ret.Counts (ret : Ret) (moved : List UInt8) : Prop :=
  ret = .ok moved.length ∨ moved = [] ∧ ∃ errno, ret = .error errno

/-- **A call returns the number of bytes it moved.** Those of a write are the first ones it was
given. -/
def Return.Right : Return → Prop
  | .read out ret => ret.Counts out
  | .write data stored ret => stored <+: data ∧ ret.Counts stored
  | .other _ => True

def Effect.outcome (e : Effect) (returned : Return → List UInt8) (going : Pc → List UInt8) : List UInt8 :=
  (e.returned.map returned).getD (going e.pc)

structure Allowed (waiting : Bool) (dev : Dev) (count : Which → Int) (pc : Pc) (e : Effect) : Prop where
  crossing : Crossing e.bfsem pc.inside e.pc.inside
  enters : e.bfsem = .wait → e.pc.enters = true
  cancelMutex : e.bfsem = .cancel ↔ waiting = true ∧ pc.enters = true
  cancel : ∀ sem, e.waitsem sem = .cancel ↔ waiting = true ∧ pc.sleeps sem = true
  outside : pc.inside = false ∨ waiting = true → e.dev = dev
  bufsize : dev.Valid → e.dev.bufsize = dev.bufsize
  valid : dev.Valid → e.dev.Valid
  stream : dev.Valid → dev.contents ++ e.stored = e.removed ++ e.dev.contents
  quiet : ∀ sem : Which, dev.Valid → sem.Quiet dev → sem.Quiet e.dev ∨ e.pc.wakes sem = true
  wakes : ∀ sem, pc.wakes sem = true → e.pc.wakes sem = true ∨ 0 ≤ count sem
  full : dev.Valid → (pc.full = true → dev.Full) → e.pc.full = true → e.dev.Full
  gives : ∀ sem, e.pc.gives sem = true → (pc.full = true → dev.Full) → sem.Quiet e.dev
  sleeps : ∀ sem, e.waitsem sem = .wait → (pc.gives sem = true → sem.Quiet dev) →
    e.pc.sleeps sem = true ∧ sem.Quiet e.dev
  stored : pc.stored ++ e.stored = e.outcome Return.stored Pc.stored
  removed : pc.removed ++ e.removed = e.outcome Return.removed Pc.removed
  returned : ∀ r, e.returned = some r → e.pc = .idle ∧ r.Right

structure Dev.SameBytes (dev' dev : Dev) : Prop where
  wrndx : dev'.wrndx = dev.wrndx
  rdndx : dev'.rdndx = dev.rdndx
  bufsize : dev'.bufsize = dev.bufsize
  buffer : dev'.buffer = dev.buffer

namespace Dev.SameBytes

variable {dev' dev : Dev}

theorem refl (dev : Dev) : dev.SameBytes dev := ⟨rfl, rfl, rfl, rfl⟩

theorem trans {dev'' : Dev} (h : dev''.SameBytes dev') (h' : dev'.SameBytes dev) : dev''.SameBytes dev :=
  ⟨h.wrndx.trans h'.wrndx, h.rdndx.trans h'.rdndx, h.bufsize.trans h'.bufsize, h.buffer.trans h'.buffer⟩

theorem openAlloc {memory : Bool} (h : dev.openAlloc crefs memory = some dev') :
    dev'.SameBytes dev := by
  unfold Dev.openAlloc at h
  split_ifs at h
  · cases h
    exact ⟨rfl, rfl, rfl, rfl⟩
  · cases h
    exact refl _

theorem openWriter (oflags : Oflags) (dev : Dev) : (dev.openWriter oflags).SameBytes dev := by
  unfold Dev.openWriter
  split_ifs
  exacts [⟨rfl, rfl, rfl, rfl⟩, refl dev]

theorem openReader (oflags : Oflags) (dev : Dev) : (dev.openReader oflags).SameBytes dev := by
  unfold Dev.openReader
  split_ifs
  exacts [⟨rfl, rfl, rfl, rfl⟩, refl dev]

theorem closeWriter (oflags : Oflags) (dev : Dev) : (dev.closeWriter oflags).SameBytes dev := by
  unfold Dev.closeWriter
  split_ifs
  exacts [⟨rfl, rfl, rfl, rfl⟩, refl dev]

theorem closeReader (oflags : Oflags) (dev : Dev) : (dev.closeReader oflags).SameBytes dev := by
  unfold Dev.closeReader
  split_ifs
  exacts [⟨rfl, rfl, rfl, rfl⟩, refl dev]

variable (h : dev'.SameBytes dev)
include h

theorem valid (hvalid : dev.Valid) : dev'.Valid :=
  ⟨by rw [h.wrndx, h.bufsize]; exact hvalid.wrndx, by rw [h.rdndx, h.bufsize]; exact hvalid.rdndx⟩

theorem contents : dev'.contents = dev.contents := by
  unfold Dev.contents
  rw [h.buffer, h.bufsize, h.rdndx, h.wrndx]

theorem full_iff : dev'.Full ↔ dev.Full := by
  unfold Dev.Full
  rw [h.bufsize, h.rdndx, h.wrndx]

theorem quiet_iff (sem : Which) : sem.Quiet dev' ↔ sem.Quiet dev := by
  cases sem with
  | rd =>
    unfold Which.Quiet
    rw [h.rdndx, h.wrndx]
  | wr => exact h.full_iff

end Dev.SameBytes

section

variable {waiting : Bool} {dev dev' : Dev} {count : Which → Int} {pc : Pc} {e : Effect}

theorem Allowed.control (hsame : e.dev.SameBytes dev) (hstored : e.stored = []) (hremoved : e.removed = [])
    (hcrossing : Crossing e.bfsem pc.inside e.pc.inside) (henters : e.bfsem = .wait → e.pc.enters = true)
    (hmutex : e.bfsem = .cancel ↔ waiting = true ∧ pc.enters = true)
    (hcancel : ∀ sem, e.waitsem sem = .cancel ↔ waiting = true ∧ pc.sleeps sem = true)
    (houtside : pc.inside = false ∨ waiting = true → e.dev = dev)
    (hwakes : ∀ sem, pc.wakes sem = true → e.pc.wakes sem = true ∨ 0 ≤ count sem)
    (hfull : e.pc.full = true → pc.full = true)
    (hgives : ∀ sem, e.pc.gives sem = true → (pc.full = true → dev.Full) → sem.Quiet dev)
    (hsleeps : ∀ sem, e.waitsem sem = .wait → (pc.gives sem = true → sem.Quiet dev) →
      e.pc.sleeps sem = true ∧ sem.Quiet dev)
    (hstored' : pc.stored = e.outcome Return.stored Pc.stored)
    (hremoved' : pc.removed = e.outcome Return.removed Pc.removed)
    (hreturned : ∀ r, e.returned = some r → e.pc = .idle ∧ r.Right) :
    Allowed waiting dev count pc e where
  crossing := hcrossing
  enters := henters
  cancelMutex := hmutex
  cancel := hcancel
  outside := houtside
  bufsize := fun _ => hsame.bufsize
  valid := hsame.valid
  stream := fun _ => by rw [hstored, hremoved, List.append_nil, List.nil_append, hsame.contents]
  quiet := fun sem _ hquiet => .inl ((hsame.quiet_iff sem).mpr hquiet)
  wakes := hwakes
  full := fun _ hbefore hafter => hsame.full_iff.mpr (hbefore (hfull hafter))
  gives := fun sem hafter hbefore => (hsame.quiet_iff sem).mpr (hgives sem hafter hbefore)
  sleeps := fun sem hwait hbefore =>
    (hsleeps sem hwait hbefore).imp_right (hsame.quiet_iff sem).mpr
  stored := by rw [hstored, append_nil, hstored']
  removed := by rw [hremoved, append_nil, hremoved']
  returned := hreturned

theorem Allowed.handles (h : Allowed waiting dev count pc e) (acquired released : Nat) :
    Allowed waiting dev count pc { e with acquired := acquired, released := released } :=
  ⟨h.crossing, h.enters, h.cancelMutex, h.cancel, h.outside, h.bufsize, h.valid, h.stream, h.quiet,
    h.wakes, h.full, h.gives, h.sleeps, h.stored, h.removed, h.returned⟩

theorem never_cancel {op : SemOp} {p : Prop} (h : op ≠ .cancel) : op = .cancel ↔ false = true ∧ p :=
  ⟨fun heq => absurd heq h, fun hp => absurd hp.1 Bool.false_ne_true⟩

structure Pc.Acts (pc : Pc) : Prop where
  inside : pc.inside = true
  wakes : ∀ sem, pc.wakes sem = false

theorem Pc.Acts.not_outside (hpc : pc.Acts) : pc.inside = false ∨ false = true → dev' = dev := by
  rw [hpc.inside]
  rintro (houtside | hwaiting)
  · cases houtside
  · cases hwaiting

theorem acts_enter (sec : Section) : (Pc.enter sec).Acts := ⟨rfl, fun _ => rfl⟩

theorem acts_finish (after : After) : (Pc.finish after).Acts := ⟨rfl, fun _ => rfl⟩

theorem allowed_leave (hpc : pc.Acts) (hsame : dev'.SameBytes dev) {ret : Return}
    (hstored : pc.stored = ret.stored) (hremoved : pc.removed = ret.removed) (hright : ret.Right) :
    Allowed false dev count pc (.leave dev' ret) := by
  refine Allowed.control hsame rfl rfl ?_ (fun h => by cases h) ?_ ?_ ?_ ?_ (fun h => by cases h)
    (fun _ h => by cases h) ?_ hstored hremoved ?_
  · rw [hpc.inside]
    exact .post
  · exact never_cancel SemOp.noConfusion
  · exact fun sem => never_cancel SemOp.noConfusion
  · exact hpc.not_outside
  · intro sem hwakes
    rw [hpc.wakes] at hwakes
    cases hwakes
  · intro sem hwait
    cases hwait
  · intro r hr
    cases hr
    exact ⟨rfl, hright⟩

theorem only_eq {sem other : Which} {op op' : SemOp} (h : only sem op other = op') :
    op' = .none ∨ op' = op ∧ other = sem := by
  unfold only at h
  split_ifs at h with heq
  · exact .inr ⟨h.symm, heq⟩
  · exact .inl h.symm

theorem allowed_rest (hpc : pc.Acts) (hsame : dev'.SameBytes dev) {sem : Which}
    (hquiet : (Pc.gave sem sec).gives sem = true → (pc.full = true → dev.Full) → sem.Quiet dev)
    (hstored : pc.stored = sec.stored)
    (hremoved : pc.removed = []) : Allowed false dev count pc (.rest dev' sem sec) := by
  refine Allowed.control hsame rfl rfl ?_ (fun h => by cases h) ?_ ?_ ?_ ?_ (fun h => by cases h) ?_
    (fun _ h => absurd h SemOp.noConfusion) hstored hremoved (fun r hr => by cases hr)
  · rw [hpc.inside]
    exact .post
  · exact never_cancel SemOp.noConfusion
  · exact fun other => never_cancel SemOp.noConfusion
  · exact hpc.not_outside
  · intro other hwakes
    rw [hpc.wakes] at hwakes
    cases hwakes
  · intro other hgives hfull
    cases sec with
    | openFile oflags memory => cases hgives
    | _ => exact of_decide_eq_true hgives ▸ hquiet (of_decide_eq_true hgives ▸ hgives) hfull

omit dev' in
theorem not_gives {sem : Which} (h : pc.inside = true) : ¬ pc.gives sem = true := by
  cases pc with
  | gave other sec => cases h
  | _ => exact Bool.false_ne_true

theorem allowed_stay (hin : pc.inside = true) (hin' : pc'.inside = true)
    (hsame : dev'.SameBytes dev) (hwakes : ∀ sem, pc.wakes sem = true → pc'.wakes sem = true ∨ 0 ≤ count sem)
    (hfull : pc'.full = true → pc.full = true) (hstored : pc.stored = pc'.stored)
    (hremoved : pc.removed = pc'.removed) :
    Allowed false dev count pc { dev := dev', pc := pc' } := by
  refine Allowed.control hsame rfl rfl ?_ (fun h => absurd h SemOp.noConfusion)
    (never_cancel SemOp.noConfusion) (fun _ => never_cancel SemOp.noConfusion) ?_ hwakes hfull
    (fun _ h => absurd h (not_gives hin')) (fun _ h => absurd h SemOp.noConfusion) hstored hremoved
    (fun _ h => absurd h.symm (some_ne_none _))
  · rw [hin, hin']
    exact .stay true
  rw [hin]
  rintro (houtside | hwaiting)
  · cases houtside
  · cases hwaiting

theorem allowed_copy {stored removed : List UInt8} (hin : pc'.inside = true)
    (hvalid : dev.Valid → dev'.Valid ∧ dev'.bufsize = dev.bufsize ∧
      dev.contents ++ stored = removed ++ dev'.contents)
    (hquiet : ∀ sem : Which, dev.Valid → sem.Quiet dev → sem.Quiet dev' ∨ pc'.wakes sem = true)
    (hfull : dev.Valid → pc'.full = true → dev'.Full) (hstored : sec.stored ++ stored = pc'.stored)
    (hremoved : removed = pc'.removed) :
    Allowed false dev count (.enter sec) { dev := dev', pc := pc', stored := stored, removed := removed } where
  crossing := by
    rw [hin]
    exact .stay true
  enters := fun h => absurd h SemOp.noConfusion
  cancelMutex := never_cancel SemOp.noConfusion
  cancel := fun _ => never_cancel SemOp.noConfusion
  outside := (acts_enter sec).not_outside
  bufsize := fun h => (hvalid h).2.1
  valid := fun h => (hvalid h).1
  stream := fun h => (hvalid h).2.2
  quiet := hquiet
  wakes := fun _ h => absurd h Bool.false_ne_true
  full := fun h _ => hfull h
  gives := fun _ h => absurd h (not_gives hin)
  sleeps := fun _ h => absurd h SemOp.noConfusion
  stored := hstored
  removed := hremoved
  returned := fun _ h => absurd h.symm (some_ne_none _)

theorem allowed_read (oflags : Oflags) (len : Nat) :
    Allowed false dev count (.enter (.read oflags len)) (pipecommonRead oflags len dev) := by
  unfold pipecommonRead
  split_ifs with hempty
  · exact allowed_leave (acts_enter _) (.refl dev) rfl rfl (.inl rfl)
  · exact allowed_leave (acts_enter _) (.refl dev) rfl rfl (.inr ⟨rfl, _, rfl⟩)
  · exact allowed_rest (acts_enter _) (.refl dev) (fun _ _ => hempty) rfl rfl
  refine allowed_copy rfl ?_ ?_ (fun _ h => absurd h Bool.false_ne_true) rfl rfl
  · intro hvalid
    obtain ⟨hvalid', hsize, hcontents⟩ := Dev.readLoop_spec len hvalid
    exact ⟨hvalid', hsize, (append_nil _).trans hcontents⟩
  · intro sem _ hquiet
    cases sem with
    | rd => exact absurd hquiet hempty
    | wr => exact .inr rfl

theorem allowed_write (oflags : Oflags) (sent : List UInt8) (byte : UInt8) (more : List UInt8) :
    Allowed false dev count (.enter (.write oflags sent byte more))
      (pipecommonWrite oflags sent byte more dev) := by
  have hspec := fun h : dev.Valid => Dev.writeLoop_spec (byte :: more) h
  have hnone : dev.Full → (dev.writeLoop (byte :: more)).1 = 0 := fun h => Dev.writeLoop_of_full h _
  unfold pipecommonWrite
  dsimp only
  generalize dev.writeLoop (byte :: more) = copied at hspec hnone
  have hvalid : dev.Valid → copied.2.Valid ∧ copied.2.bufsize = dev.bufsize ∧
      dev.contents ++ (byte :: more).take copied.1 = [] ++ copied.2.contents := fun h =>
    ⟨(hspec h).1, (hspec h).2.1, (hspec h).2.2.1⟩
  -- a byte was stored, or nothing changed
  have hquiet : ∀ sem : Which, dev.Valid → sem.Quiet dev →
      sem.Quiet copied.2 ∨ 0 < copied.1 ∧ sem = .rd := by
    intro sem h hbefore
    by_cases hzero : copied.1 = 0
    · rw [(hspec h).2.2.2.2 hzero]
      exact .inl hbefore
    · cases sem with
      | rd => exact .inr ⟨Nat.pos_of_ne_zero hzero, rfl⟩
      | wr => exact absurd (hnone hbefore) hzero
  cases hrest : (byte :: more).drop copied.1 with
  | nil =>
    refine allowed_copy rfl hvalid ?_ (fun _ h => absurd h Bool.false_ne_true) rfl rfl
    intro sem h hbefore
    refine (hquiet sem h hbefore).imp_right ?_
    rintro ⟨_, rfl⟩
    rfl
  | cons byte' more' =>
    have hfull : dev.Valid → copied.2.Full := fun h =>
      (hspec h).2.2.2.1 (by rw [hrest]; exact cons_ne_nil _ _)
    split_ifs with hpos
    · refine allowed_copy rfl hvalid ?_ (fun h _ => hfull h) rfl rfl
      intro sem h hbefore
      refine (hquiet sem h hbefore).imp_right ?_
      rintro ⟨_, rfl⟩
      rfl
    · refine allowed_copy rfl hvalid ?_ (fun h _ => hfull h) rfl rfl
      intro sem h hbefore
      exact (hquiet sem h hbefore).imp_right fun hstored => absurd hstored.1 hpos

theorem shortWrite_counts (sent : List UInt8) (errno : Errno) : (shortWrite sent errno).Counts sent := by
  unfold shortWrite
  split_ifs with hnone
  · exact .inr ⟨eq_nil_of_length_eq_zero hnone, errno, rfl⟩
  · exact .inl rfl

theorem allowed_pass {after : After} {wakes : Bool} (hpc : pc.Acts) (hsame : dev'.SameBytes dev)
    (hfull : (Pc.finish after).full = false) (hstored : pc.stored = after.stored)
    (hremoved : pc.removed = after.removed) :
    Allowed false dev count pc
      { dev := dev', pc := if wakes then .check .rd after else .finish after } := by
  have hnowakes : ∀ {sem : Which} {pc' : Pc}, pc.wakes sem = true → pc'.wakes sem = true ∨ 0 ≤ count sem := by
    intro sem pc' h
    rw [hpc.wakes] at h
    cases h
  have hcheck : (Pc.check .rd after).full = (Pc.finish after).full := by cases after <;> rfl
  split_ifs
  · refine allowed_stay hpc.inside rfl hsame (fun _ => hnowakes) (fun h => ?_) hstored hremoved
    rw [hcheck, hfull] at h
    cases h
  · refine allowed_stay hpc.inside rfl hsame (fun _ => hnowakes) (fun h => ?_) hstored hremoved
    rw [hfull] at h
    cases h

theorem allowed_open (crefs : Nat) (oflags : Oflags) (memory : Bool) :
    Allowed false dev count (.enter (.openFile oflags memory)) (pipecommonOpen crefs oflags memory dev) := by
  unfold pipecommonOpen
  cases halloc : dev.openAlloc crefs memory with
  | none =>
    have hleave : Allowed false dev count (.enter (.openFile oflags memory))
        (.leave dev (.other (.error .enomem))) := allowed_leave (acts_enter _) (.refl dev) rfl rfl trivial
    exact hleave.handles 0 1
  | some dev' =>
    exact allowed_pass (acts_enter _) ((Dev.SameBytes.openWriter oflags dev').trans (.openAlloc halloc))
      rfl rfl rfl

theorem allowed_opened (oflags : Oflags) :
    Allowed false dev count (.finish (.opened oflags)) (pipecommonOpened oflags dev) := by
  exact allowed_rest (acts_finish _) (.openReader oflags dev) (fun h => absurd h Bool.false_ne_true) rfl rfl

theorem allowed_outside {returned : Option Return} (hout : pc.inside = false)
    (hout' : pc'.inside = false) (hwakes : ∀ sem, pc.wakes sem = false)
    (hstored : pc.stored = (returned.map Return.stored).getD pc'.stored)
    (hremoved : pc.removed = (returned.map Return.removed).getD pc'.removed)
    (hreturned : ∀ r, returned = some r → pc' = .idle ∧ r.Right) (hgives : ∀ sem, pc'.gives sem = false) :
    Allowed false dev count pc { dev := dev, pc := pc', returned := returned } := by
  refine Allowed.control (.refl dev) rfl rfl ?_ (fun h => absurd h SemOp.noConfusion)
    (never_cancel SemOp.noConfusion) (fun _ => never_cancel SemOp.noConfusion) (fun _ => rfl) ?_ ?_
    (fun sem h => absurd ((hgives sem).symm.trans h) Bool.false_ne_true)
    (fun _ h => absurd h SemOp.noConfusion) hstored hremoved hreturned
  · rw [hout, hout']
    exact .stay false
  · intro sem h
    rw [hwakes] at h
    cases h
  intro h
  cases pc' with
  | idle => cases h
  | take sec => cases h
  | gave sem sec | sleep sem sec => cases h
  | _ => cases hout'

theorem allowed_check (sem : Which) (after : After) :
    Allowed false dev count (.check sem after)
      { dev := dev, pc := if count sem < 0 then .post sem after else .finish after } := by
  have hfull : ∀ pc', pc' = Pc.post sem after ∨ pc' = Pc.finish after →
      pc'.full = true → (Pc.check sem after).full = true := by
    rintro pc' (rfl | rfl) h
    · cases after <;> exact h
    · cases after <;> exact h
  split_ifs with hcount
  · exact allowed_stay rfl rfl (.refl dev) (fun _ => .inl) (hfull _ (.inl rfl)) rfl rfl
  refine allowed_stay rfl rfl (.refl dev) (fun other hwakes => .inr ?_) (hfull _ (.inr rfl)) rfl rfl
  have heq : sem = other := of_decide_eq_true hwakes
  rw [← heq]
  exact Int.not_lt.mp hcount

theorem allowed_post (sem : Which) (after : After) :
    Allowed false dev count (.post sem after)
      { dev := dev, waitsem := only sem .post, pc := .check sem after } := by
  refine Allowed.control (.refl dev) rfl rfl (.stay true) (fun h => absurd h SemOp.noConfusion)
    (never_cancel SemOp.noConfusion) (fun other => never_cancel fun h => ?_)
    (fun _ => rfl) (fun _ => .inl) (fun h => ?_) (fun _ h => absurd h Bool.false_ne_true)
    (fun other h => ?_) rfl rfl (fun _ h => absurd h.symm (some_ne_none _))
  · rcases only_eq h with hnone | ⟨hpost, _⟩
    · cases hnone
    · cases hpost
  · cases after <;> exact h
  · rcases only_eq h with hnone | ⟨hpost, _⟩
    · cases hnone
    · cases hpost

theorem allowed_take (sec : Section) :
    Allowed false dev count (.take sec) { dev := dev, bfsem := .wait, pc := .enter sec } :=
  Allowed.control (.refl dev) rfl rfl .wait (fun _ => rfl) (never_cancel SemOp.noConfusion)
    (fun _ => never_cancel SemOp.noConfusion) (fun _ => rfl) (fun _ h => absurd h Bool.false_ne_true)
    (fun h => absurd h Bool.false_ne_true) (fun _ h => absurd h Bool.false_ne_true)
    (fun _ h => absurd h SemOp.noConfusion) rfl rfl (fun _ h => absurd h.symm (some_ne_none _))

theorem allowed_sleep {sem other : Which} (hquiet : (Pc.gave other sec).gives sem = true ∨ sem.Quiet dev) :
    Allowed false dev count (.gave other sec) (.sleep dev sem sec) := by
  refine Allowed.control (.refl dev) rfl rfl (.stay false) (fun h => absurd h SemOp.noConfusion)
    (never_cancel SemOp.noConfusion) (fun sem' => never_cancel fun h => ?_) (fun _ => rfl)
    (fun _ h => absurd h Bool.false_ne_true) (fun h => absurd h Bool.false_ne_true)
    (fun _ h => absurd h Bool.false_ne_true) (fun sem' h hgives => ?_) rfl rfl
    (fun _ h => absurd h.symm (some_ne_none _))
  · rcases only_eq h with hnone | ⟨hwait, _⟩
    · cases hnone
    · cases hwait
  · rcases only_eq h with hnone | ⟨_, rfl⟩
    · cases hnone
    · exact ⟨decide_eq_true rfl, hquiet.elim hgives id⟩

theorem allowed_wait (sem : Which) (sec : Section) :
    Allowed false dev count (.gave sem sec) (pipecommonWait dev sem sec) := by
  cases sec with
  | openFile oflags memory =>
    rw [pipecommonWait]
    split_ifs with hwaits
    · have hempty : dev.wrndx = dev.rdndx := of_decide_eq_true (Bool.and_eq_true_iff.mp hwaits).2
      exact allowed_sleep (.inr hempty)
    · refine allowed_outside rfl rfl (fun _ => rfl) rfl rfl (fun r hr => ?_) fun _ => rfl
      cases hr
      exact ⟨rfl, trivial⟩
  | _ => exact allowed_sleep (.inl (decide_eq_true rfl))

end

theorem allowed_effect (dev : Dev) (hcrefs : 1 < crefs) (count : Which → Int) (pc : Pc) :
    Allowed false dev count pc (effect dev crefs count pc) := by
  have hnone : ∀ {r : Return} {pc : Pc}, (none : Option Return) = some r → pc = .idle ∧ r.Right :=
    fun h => absurd h.symm (some_ne_none _)
  cases pc with
  | idle => exact allowed_outside rfl rfl (fun _ => rfl) rfl rfl (fun _ => hnone) fun _ => rfl
  | take sec => exact allowed_take sec
  | enter sec =>
    cases sec with
    | read oflags len => exact allowed_read oflags len
    | write oflags sent byte more => exact allowed_write oflags sent byte more
    | openFile oflags memory => exact allowed_open crefs oflags memory
    | closeFile oflags ret =>
      rw [effect, pipecommonClose, if_pos hcrefs]
      exact allowed_pass (acts_enter _) (.closeWriter oflags dev) rfl rfl rfl
  | check sem after => exact allowed_check sem after
  | post sem after => exact allowed_post sem after
  | finish after =>
    cases after with
    | readDone out => exact allowed_leave (acts_finish _) (.refl dev) rfl rfl (.inl rfl)
    | written data =>
      exact allowed_leave (acts_finish _) (.refl dev) rfl rfl ⟨prefix_refl _, .inl rfl⟩
    | full oflags sent byte more =>
      rw [effect, pipecommonWriteFull]
      split_ifs
      · exact allowed_leave (acts_finish _) (.refl dev) rfl rfl ⟨prefix_append _ _, shortWrite_counts _ _⟩
      · exact allowed_rest (acts_finish _) (.refl dev) (fun _ hfull => hfull rfl) rfl rfl
    | opened oflags => exact allowed_opened oflags
    | closed oflags ret =>
      have hleave : Allowed false dev count (.finish (.closed oflags ret))
          (.leave (dev.closeReader oflags) (.other ret)) :=
        allowed_leave (acts_finish _) (.closeReader oflags dev) rfl rfl trivial
      exact hleave.handles 0 1
  | gave sem sec => exact allowed_wait sem sec
  | sleep sem sec =>
    cases sec with
    | openFile oflags memory =>
      refine allowed_outside rfl rfl (fun _ => rfl) rfl rfl (fun r hr => ?_) fun _ => rfl
      cases hr
      exact ⟨rfl, trivial⟩
    | _ => exact allowed_outside rfl rfl (fun _ => rfl) rfl rfl (fun _ => hnone) fun _ => rfl

theorem allowed_entry (dev : Dev) (count : Which → Int) (call : Call) :
    Allowed false dev count .idle (entry dev call) := by
  have hnone : ∀ {r : Return} {pc : Pc}, (none : Option Return) = some r → pc = .idle ∧ r.Right :=
    fun h => absurd h.symm (some_ne_none _)
  have hgo : ∀ sec : Section, sec.stored = [] → Allowed false dev count .idle { dev := dev, pc := .take sec } :=
    fun sec hsec => allowed_outside rfl rfl (fun _ => rfl) hsec.symm rfl (fun _ => hnone) fun _ => rfl
  have hback : ∀ r : Return, r.stored = [] → r.removed = [] → r.Right →
      Allowed false dev count .idle { dev := dev, pc := .idle, returned := some r } := by
    intro r hstored hremoved hright
    refine allowed_outside rfl rfl (fun _ => rfl) hstored.symm hremoved.symm (fun r' hr' => ?_) fun _ => rfl
    cases hr'
    exact ⟨rfl, hright⟩
  cases call with
  | read oflags len =>
    unfold entry
    dsimp only
    split_ifs
    · exact hback _ rfl rfl (.inl rfl)
    · exact hgo _ rfl
  | write oflags data =>
    cases data with
    | nil => exact hback _ rfl rfl ⟨prefix_refl _, .inl rfl⟩
    | cons byte more =>
      unfold entry
      split_ifs
      · exact hback _ rfl rfl ⟨List.nil_prefix, .inr ⟨rfl, _, rfl⟩⟩
      · exact hgo _ rfl
  | openFile oflags memory => exact (hgo (.openFile oflags memory) rfl).handles 1 0
  | closeFile oflags => exact hgo _ rfl

structure Fails (dev : Dev) (sec : Section) (e : Effect) : Prop where
  dev : e.dev = dev
  bfsem : e.bfsem = .none
  waitsem : ∀ sem, e.waitsem sem = .none
  noneStored : e.stored = []
  noneRemoved : e.removed = []
  inside : e.pc.inside = false
  full : e.pc.full = false
  gives : ∀ sem, e.pc.gives sem = false
  stored : sec.stored = e.outcome Return.stored Pc.stored
  removed : [] = e.outcome Return.removed Pc.removed
  returned : ∀ r, e.returned = some r → e.pc = .idle ∧ r.Right

theorem fails_failed (dev : Dev) (errno : Errno) (sec : Section) : Fails dev sec (failed dev errno sec) := by
  have hback : ∀ (r : Return) (n : Nat), sec.stored = r.stored → r.removed = [] → r.Right →
      Fails dev sec { dev := dev, pc := .idle, returned := some r, released := n } := by
    intro r n hstored hremoved hright
    refine ⟨rfl, rfl, fun _ => rfl, rfl, rfl, rfl, rfl, fun _ => rfl, hstored, hremoved.symm, fun r' hr' => ?_⟩
    cases hr'
    exact ⟨rfl, hright⟩
  cases sec with
  | read oflags len => exact hback _ _ rfl rfl (.inr ⟨rfl, _, rfl⟩)
  | write oflags sent byte more => exact hback _ _ rfl rfl ⟨prefix_append _ _, shortWrite_counts _ _⟩
  | openFile oflags memory => exact hback _ _ rfl rfl trivial
  | closeFile oflags ret =>
    unfold failed
    split_ifs
    · refine ⟨rfl, rfl, fun _ => rfl, rfl, rfl, rfl, rfl, fun _ => rfl, rfl, rfl, fun r hr => ?_⟩
      exact absurd hr.symm (some_ne_none r)
    · exact hback _ _ rfl rfl trivial

theorem sleeps_iff {pc : Pc} {sem : Which} : pc.sleeps sem = true ↔ ∃ sec, pc = .sleep sem sec := by
  constructor
  · intro h
    cases pc with
    | sleep other sec => exact ⟨sec, by rw [of_decide_eq_true h]⟩
    | _ => cases h
  · rintro ⟨sec, rfl⟩
    exact decide_eq_true rfl

theorem only_cancel_iff {sem other : Which} :
    only sem .cancel other = .cancel ↔ true = true ∧ (Pc.sleep sem sec).sleeps other = true := by
  by_cases heq : other = sem
  · exact iff_of_true (if_pos heq) ⟨rfl, decide_eq_true heq.symm⟩
  · refine iff_of_false (fun h => ?_) fun h => absurd (of_decide_eq_true h.2).symm heq
    exact absurd ((if_neg heq).symm.trans h) SemOp.noConfusion

theorem allowed_interrupted (dev : Dev) (count : Which → Int) (errno : Errno) {pc : Pc}
    (hpc : pc.enters = true ∨ ∃ sem, pc.sleeps sem = true) :
    Allowed true dev count pc (interrupted dev errno pc) := by
  rcases hpc with henters | ⟨sem, hsleeps⟩
  · cases pc with
    | enter sec =>
      have hfails := fails_failed dev errno sec
      have hcrossing : Crossing .cancel true (failed dev errno sec).pc.inside := by
        rw [hfails.inside]
        exact .cancel
      have hsame : (failed dev errno sec).dev.SameBytes dev := by
        rw [hfails.dev]
        exact .refl dev
      refine Allowed.control hsame hfails.noneStored hfails.noneRemoved hcrossing
        (fun h => absurd h SemOp.noConfusion) (iff_of_true rfl ⟨rfl, rfl⟩) (fun sem => ?_)
        (fun _ => hfails.dev) (fun _ h => absurd h Bool.false_ne_true) (fun h => ?_)
        (fun sem h => absurd ((hfails.gives sem).symm.trans h) Bool.false_ne_true) (fun sem h => ?_)
        hfails.stored hfails.removed hfails.returned
      · refine iff_of_false (fun h => ?_) fun h => absurd h.2 Bool.false_ne_true
        exact absurd ((hfails.waitsem sem).symm.trans h) SemOp.noConfusion
      · exact absurd (hfails.full.symm.trans h) Bool.false_ne_true
      · exact absurd ((hfails.waitsem sem).symm.trans h) SemOp.noConfusion
    | _ => cases henters
  · obtain ⟨sec, rfl⟩ := sleeps_iff.mp hsleeps
    have hwait : ∀ {other : Which}, only sem .cancel other ≠ .wait := by
      intro other h
      rcases only_eq h with hnone | ⟨hcancel, _⟩
      · cases hnone
      · cases hcancel
    have hmutex : ∀ {op : SemOp}, op = .none → (op = .cancel ↔ true = true ∧ (Pc.sleep sem sec).enters = true) := by
      rintro op rfl
      exact iff_of_false SemOp.noConfusion fun h => absurd h.2 Bool.false_ne_true
    have hgeneral : ∀ e, Fails dev sec e →
        Allowed true dev count (.sleep sem sec) { e with waitsem := only sem .cancel } := by
      intro e he
      have hcrossing : Crossing e.bfsem false e.pc.inside := by
        rw [he.bfsem, he.inside]
        exact .stay false
      have hsame : e.dev.SameBytes dev := by
        rw [he.dev]
        exact .refl dev
      exact Allowed.control hsame he.noneStored he.noneRemoved hcrossing
        (fun h => absurd (he.bfsem.symm.trans h) SemOp.noConfusion) (hmutex he.bfsem)
        (fun _ => only_cancel_iff) (fun _ => he.dev) (fun _ h => absurd h Bool.false_ne_true)
        (fun h => absurd (he.full.symm.trans h) Bool.false_ne_true)
        (fun sem h => absurd ((he.gives sem).symm.trans h) Bool.false_ne_true) (fun _ h => absurd h hwait)
        he.stored he.removed he.returned
    cases sec with
    | openFile oflags memory =>
      exact hgeneral { dev := dev, pc := .take (.closeFile oflags (.error errno)) }
        ⟨rfl, rfl, fun _ => rfl, rfl, rfl, rfl, rfl, fun _ => rfl, rfl, rfl,
          fun _ h => absurd h.symm (some_ne_none _)⟩
    | read oflags len | write oflags sent byte more => exact hgeneral _ (fails_failed dev errno _)
    | closeFile oflags ret => exact hgeneral _ (fails_failed dev errno _)

end Nuttx.Pipe
