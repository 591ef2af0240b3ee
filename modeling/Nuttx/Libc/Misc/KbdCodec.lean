import Nuttx.Library.Machine
import Nuttx.Library.StreamCodec

/-!
# The keyboard codec

A keyboard driver writes the press of a normal key as its character and every other event as `ESC [
value terminator` (`lib_kbdencode.c`), the application takes the events off again
(`lib_kbddecode.c`). The value is a character when a normal key is released and a key code
otherwise.
-/

namespace Nuttx.Kbd

open StreamCodec

inductive Keycode where
  | normal | fwddel | backdel | home | end_ | left | right | up | down | pageup | pagedown | insert
  | again | undo | redo | cut | copy | paste | find | enter | select | execute | capslock
  | scrolllock | numlock | lcapslock | lnumlock | lscrolllock | power | help | menu | stop | pause
  | break | cancel | prtscrn | sysreq | mute | volup | voldown | answer | hangup | clear
  | clearentry | negate | memstore | memclear | memrecall | memadd | memsub | memmul | memdiv
  | binary | octal | decimal | hexadecimal | lang1 | lang2 | lang3 | lang4 | lang5 | lang6 | lang7
  | lang8 | f1 | f2 | f3 | f4 | f5 | f6 | f7 | f8 | f9 | f10 | f11 | f12 | f13 | f14 | f15 | f16
  | f17 | f18 | f19 | f20 | f21 | f22 | f23 | f24
  deriving DecidableEq, Repr

variable (keycode : Keycode)

def Keycode.val : UInt8 := UInt8.ofNat keycode.ctorIdx

def asciiEsc : UInt8 := 0x1b

def FIRST_KEYCODE : UInt8 := Keycode.fwddel.val
def LAST_KEYCODE : UInt8 := Keycode.f24.val

def KBD_PRESS : UInt8 := 0
def KBD_RELEASE : UInt8 := 1
def KBD_SPECPRESS : UInt8 := 2
def KBD_SPECREL : UInt8 := 3

def kbdPress (ch : UInt8) : List UInt8 := [ch]

def kbdEncode (keycode terminator : UInt8) : List UInt8 :=
  [asciiEsc, '['.toUInt8, keycode, terminator]

def kbdRelease (ch : UInt8) : List UInt8 := kbdEncode ch ('a'.toUInt8 + KBD_RELEASE)

def kbdSpecpress : List UInt8 :=
  kbdEncode keycode.val ('a'.toUInt8 + KBD_SPECPRESS)

def kbdSpecrel : List UInt8 :=
  kbdEncode keycode.val ('a'.toUInt8 + KBD_SPECREL)

/-- `struct kbd_getstate_s`: up to four characters of a failed match. -/
abbrev KbdGetstate := Pushback UInt8 4

structure Decoded where
  ret : UInt8
  pch : UInt8
  deriving DecidableEq, Repr

def isKeycode (ch : UInt8) : Bool := FIRST_KEYCODE ≤ ch ∧ ch ≤ LAST_KEYCODE

def isTerm (ch : UInt8) : Bool :=
  'a'.toUInt8 + KBD_RELEASE ≤ ch ∧ ch ≤ 'a'.toUInt8 + KBD_SPECREL

def kbdReget (state : KbdGetstate) (h : 0 < state.nch) (stream : List UInt8) :
    Option (Decoded × KbdGetstate × List UInt8) :=
  let (ch, state) := state.reget h
  some (⟨KBD_PRESS, ch⟩, state, stream)

def fail (nch : Nat) (h : 0 < nch ∧ nch ≤ 4) (buf : Vector UInt8 4) (stream : List UInt8) :
    Option (Decoded × KbdGetstate × List UInt8) :=
  kbdReget ⟨nch, 0, buf, by omega⟩ h.1 stream

def kbdDecode (state : KbdGetstate) (stream : List UInt8) :
    Option (Decoded × KbdGetstate × List UInt8) :=
  if h : 0 < state.nch then kbdReget state h stream
  else
    match stream with
    | [] => none
    | ch :: stream =>
      let buf := state.buf.set 0 ch
      if ch ≠ asciiEsc then fail 1 (by decide) buf stream
      else
        match stream with
        | [] => fail 1 (by decide) buf []
        | ch :: stream =>
          let buf := buf.set 1 ch
          if ch ≠ '['.toUInt8 then fail 2 (by decide) buf stream
          else
            match stream with
            | [] => fail 2 (by decide) buf []
            | ch :: stream =>
              let code := ch
              let buf := buf.set 2 ch
              if ! isKeycode ch then fail 3 (by decide) buf stream
              else
                match stream with
                | [] => fail 3 (by decide) buf []
                | ch :: stream =>
                  let buf := buf.set 3 ch
                  if ! isTerm ch then fail 4 (by decide) buf stream
                  else some (⟨ch - 'a'.toUInt8, code⟩, ⟨0, 0, buf, by decide⟩, stream)

def KbdGetstate.cleared : KbdGetstate := ⟨0, 0, Vector.replicate 4 0, by decide⟩

def decodeAll (stream : List UInt8) : Option (List Decoded) :=
  run kbdDecode (stream.length + 1) KbdGetstate.cleared stream

inductive Event where
  | press (ch : UInt8) (notEsc : ch ≠ asciiEsc)
  | release (ch : UInt8)
  | specpress (keycode : Keycode) (special : keycode ≠ .normal)
  | specrel (keycode : Keycode) (special : keycode ≠ .normal)

namespace Event

def encode : Event → List UInt8
  | press ch _ => kbdPress ch
  | release ch => kbdRelease ch
  | specpress keycode _ => kbdSpecpress keycode
  | specrel keycode _ => kbdSpecrel keycode

def decoded : Event → Decoded
  | press ch _ => ⟨KBD_PRESS, ch⟩
  | release ch => ⟨KBD_RELEASE, ch⟩
  | specpress keycode _ => ⟨KBD_SPECPRESS, keycode.val⟩
  | specrel keycode _ => ⟨KBD_SPECREL, keycode.val⟩

def Carried : Event → Prop
  | release ch => FIRST_KEYCODE ≤ ch ∧ ch ≤ LAST_KEYCODE
  | _ => True

end Event

def Clean (state : KbdGetstate) : Prop := state.nch = 0

theorem Clean.not_kept {state : KbdGetstate} (h : Clean state) : ¬ 0 < state.nch := h.not_gt

theorem isKeycode_val (h : keycode ≠ .normal) : isKeycode keycode.val = true := by
  cases keycode <;> first | exact absurd rfl h | decide

theorem kbdDecode_encode {state : KbdGetstate} (hclean : Clean state) {value terminator : UInt8}
    (hvalue : isKeycode value = true) (hterm : isTerm terminator = true) (rest : List UInt8) :
    ∃ state', Clean state' ∧ kbdDecode state (kbdEncode value terminator ++ rest)
      = some (⟨terminator - 'a'.toUInt8, value⟩, state', rest) := by
  refine ⟨⟨0, 0, (((state.buf.set 0 asciiEsc).set 1 '['.toUInt8).set 2 value).set 3 terminator,
    by decide⟩, rfl, ?_⟩
  simp [kbdDecode, kbdEncode, hclean.not_kept, hvalue, hterm]

theorem kbdDecode_progress : Progress (fun state : KbdGetstate => state.nch) kbdDecode := by
  intro state stream d state' stream' hdec
  unfold kbdDecode at hdec
  simp only [fail, kbdReget, Pushback.reget] at hdec
  split at hdec
  · simp only [Option.some.injEq, Prod.mk.injEq] at hdec
    obtain ⟨-, rfl, rfl⟩ := hdec
    show state.nch - 1 + stream.length < state.nch + stream.length
    omega
  · repeat' split at hdec
    all_goals cases hdec
    all_goals
      simp only [List.length_cons, List.length_nil]
      omega

theorem takenWhole_of_carried (e : Event) (h : e.Carried) :
    TakenWhole kbdDecode Event.encode Event.decoded Clean e := by
  intro state rest hclean
  cases e with
  | press ch hch =>
    refine ⟨⟨0, 1, state.buf.set 0 ch, by decide⟩, rfl, ?_⟩
    simp [Event.encode, Event.decoded, kbdPress, kbdDecode, hclean.not_kept, hch, fail, kbdReget, Pushback.reget]
  | release ch => exact kbdDecode_encode hclean (decide_eq_true h) (by decide) rest
  | specpress keycode hspecial | specrel keycode hspecial =>
    exact kbdDecode_encode hclean (isKeycode_val keycode hspecial) (by decide) rest

theorem mistaken_of_not_carried (e : Event) (h : ¬ e.Carried) :
    Mistaken kbdDecode Event.encode Event.decoded Clean e := by
  cases e with
  | release ch =>
    left
    intro state rest hclean
    have hkeycode : isKeycode ch = false := decide_eq_false h
    obtain ⟨state', stream', hdec⟩ : ∃ state' stream', kbdDecode state (Event.encode (.release ch) ++ rest) =
        some (⟨KBD_PRESS, asciiEsc⟩, state', stream') := by
      simp [Event.encode, kbdRelease, kbdDecode, kbdEncode, hclean.not_kept, hkeycode, fail, kbdReget,
        Pushback.reget]
    have hret : KBD_PRESS ≠ KBD_RELEASE := by decide
    exact ⟨_, state', stream', fun heq => hret (congrArg Decoded.ret heq), hdec⟩
  | press ch hch | specpress keycode hspecial | specrel keycode hspecial => exact absurd trivial h

/-- **Round trip.** Exactly the sequences of events are decoded to themselves in which every released
normal key has a character between the first and the last key code. -/
theorem decodeAll_encode_iff_keycodes (es : List Event) :
    decodeAll (es.flatMap Event.encode) = some (es.map Event.decoded) ↔ ∀ e ∈ es, e.Carried := by
  have hend : ∀ state, Clean state → kbdDecode state [] = none := by
    intro state hclean
    rw [kbdDecode, dif_neg hclean.not_kept]
  exact run_encode_iff kbdDecode_progress hend (fun _ hclean => hclean) takenWhole_of_carried
    mistaken_of_not_carried es rfl (Nat.lt_succ_self _)

theorem decodeAll_release_z :
    decodeAll ([Event.release 'z'.toUInt8].flatMap Event.encode)
      ≠ some ([Event.release 'z'.toUInt8].map Event.decoded) := by
  decide

end Nuttx.Kbd
