import Mathlib.Data.UInt
import Nuttx.Library.Machine
import Nuttx.Library.StreamCodec

/-!
# The segment LCD codec

An application writes characters and LCD actions as one stream of bytes (`lib_slcdencode.c`), the
driver takes them off again (`lib_slcddecode.c`). An action is an escape sequence: `ESC [ code`, or
`ESC [ hi lo code` for the actions with a count, `hi` and `lo` being its two nibbles in hexadecimal.
-/

namespace Nuttx.Slcd

open StreamCodec

inductive Slcdcode where
  | normal | fwddel | backdel | erase | eraseeol | clear | home | end_ | left | right | up | down
  | pageup | pagedown | blinkstart | blinkend | blinkoff
  deriving DecidableEq, Repr

namespace Slcdcode

def val : Slcdcode → UInt8
  | normal => 0 | fwddel => 1 | backdel => 2 | erase => 3 | eraseeol => 4 | clear => 5 | home => 6
  | end_ => 7 | left => 8 | right => 9 | up => 10 | down => 11 | pageup => 12 | pagedown => 13
  | blinkstart => 14 | blinkend => 15 | blinkoff => 16

def bare : Slcdcode → Bool
  | eraseeol | clear | home | end_ | blinkstart | blinkend | blinkoff => true
  | _ => false

def counted : Slcdcode → Bool
  | fwddel | backdel | erase | left | right | up | down | pageup | pagedown => true
  | _ => false

end Slcdcode

def asciiEsc : UInt8 := 0x1b

def FIRST_SLCDCODE : UInt8 := Slcdcode.fwddel.val
def LAST_SLCDCODE : UInt8 := Slcdcode.blinkoff.val

def nibbleOut (binary : UInt8) : UInt8 :=
  let binary := binary &&& 0x0f
  if binary ≤ 9 then '0'.toUInt8 + binary else 'a'.toUInt8 + binary

def slcdPut3 (slcdcode : UInt8) : List UInt8 :=
  [asciiEsc, '['.toUInt8, 'A'.toUInt8 + slcdcode]

def slcdPut5 (slcdcode count : UInt8) : List UInt8 :=
  [asciiEsc, '['.toUInt8, nibbleOut (count >>> 4), nibbleOut count, 'A'.toUInt8 + slcdcode]

def slcdPut (ch : UInt8) : List UInt8 := [ch]

def slcdEncode (code : Slcdcode) (count : UInt8) : List UInt8 :=
  if code.bare then slcdPut3 code.val
  else if code.counted then slcdPut5 code.val count
  else []

/-- `struct slcdstate_s`: up to five characters of a failed match. -/
abbrev Slcdstate := Pushback UInt8 5

inductive Decoded where
  | char (ch : UInt8)
  | spec (code count : UInt8)
  deriving DecidableEq, Repr

def nibbleIn (ascii : UInt8) : UInt8 :=
  if '0'.toUInt8 ≤ ascii ∧ ascii ≤ '9'.toUInt8 then ascii - '0'.toUInt8 else ascii - 'a'.toUInt8

def IS_HEX (a : UInt8) : Bool :=
  ('0'.toUInt8 ≤ a ∧ a ≤ '9'.toUInt8) ∨ ('a'.toUInt8 ≤ a ∧ a ≤ 'f'.toUInt8)

def isCode (ch : UInt8) : Bool :=
  'A'.toNat + FIRST_SLCDCODE.toNat ≤ ch.toNat ∧ ch.toNat ≤ 'A'.toNat + LAST_SLCDCODE.toNat

def slcdReget (state : Slcdstate) (h : 0 < state.nch) (stream : List UInt8) :
    Option (Decoded × Slcdstate × List UInt8) :=
  let (ch, state) := state.reget h
  some (.char ch, state, stream)

/-- The characters up to the slot `last` are kept, and the first of them is returned. -/
def fail (last : Fin 5) (buf : Vector UInt8 5) (stream : List UInt8) :
    Option (Decoded × Slcdstate × List UInt8) :=
  slcdReget ⟨last.val + 1, 0, buf, by omega⟩ (Nat.succ_pos _) stream

def put (buf : Vector UInt8 5) (slot : Fin 5) (ch : UInt8) : Vector UInt8 5 := buf.set slot ch slot.isLt

def slcdDecode (state : Slcdstate) (stream : List UInt8) :
    Option (Decoded × Slcdstate × List UInt8) :=
  if h : 0 < state.nch then slcdReget state h stream
  else
    match stream with
    | [] => none
    | ch :: stream =>
      let buf := put state.buf 0 ch
      if ch ≠ asciiEsc then fail 0 buf stream
      else
        match stream with
        | [] => fail 0 buf []
        | ch :: stream =>
          let buf := put buf 1 ch
          if ch ≠ '['.toUInt8 then fail 1 buf stream
          else
            match stream with
            | [] => fail 1 buf []
            | ch :: stream =>
              if ! IS_HEX ch then
                if ! isCode ch then fail 2 (put buf 2 ch) stream
                else some (.spec (ch - 'A'.toUInt8) 0, ⟨0, 0, buf, Nat.zero_le 5⟩, stream)
              else
                let counth := ch
                let buf := put buf 2 ch
                match stream with
                | [] => fail 2 buf []
                | ch :: stream =>
                  -- a second character that is no digit is not kept for later
                  if ! IS_HEX ch then fail 2 buf stream
                  else
                    let countl := ch
                    let buf := put buf 3 ch
                    match stream with
                    | [] => fail 3 buf []
                    | ch :: stream =>
                      let buf := put buf 4 ch
                      if ! isCode ch then fail 4 buf stream
                      else
                        some (.spec (ch - 'A'.toUInt8) (nibbleIn counth <<< 4 ||| nibbleIn countl),
                          ⟨0, 0, buf, Nat.zero_le 5⟩, stream)

def Slcdstate.cleared : Slcdstate := ⟨0, 0, Vector.replicate 5 0, by decide⟩

def decodeAll (stream : List UInt8) : Option (List Decoded) :=
  run slcdDecode (stream.length + 1) Slcdstate.cleared stream

inductive Event where
  | char (ch : UInt8) (notEsc : ch ≠ asciiEsc)
  | action (code : Slcdcode) (count : UInt8)

namespace Event

def encode : Event → List UInt8
  | char ch _ => slcdPut ch
  | action code count => slcdEncode code count

def decoded : Event → Decoded
  | char ch _ => .char ch
  | action code count => .spec code.val count

def Carried : Event → Prop
  | char _ _ => True
  | action code count =>
    (code.bare ∧ count = 0) ∨ (code.counted ∧ count >>> 4 ≤ 9 ∧ count &&& 0x0f ≤ 9)

end Event

def Clean (state : Slcdstate) : Prop := state.nch = 0

theorem Clean.not_kept {state : Slcdstate} (h : Clean state) : ¬ 0 < state.nch := h.not_gt

theorem nibbleOut_spec : ∀ b : UInt8,
    (b &&& 0x0f ≤ 9 → IS_HEX (nibbleOut b) = true ∧ nibbleIn (nibbleOut b) = b &&& 0x0f) ∧
      (¬ b &&& 0x0f ≤ 9 → IS_HEX (nibbleOut b) = false ∧ isCode (nibbleOut b) = false) := by
  decide +kernel

theorem nibbles_count : ∀ count : UInt8,
    ((count >>> 4) &&& 0x0f) <<< 4 ||| (count &&& 0x0f) = count ∧
      (count >>> 4) &&& (0x0f : UInt8) = count >>> 4 := by
  decide +kernel

theorem isCode_val (code : Slcdcode) (h : code ≠ .normal) :
    isCode ('A'.toUInt8 + code.val) = true ∧ IS_HEX ('A'.toUInt8 + code.val) = false := by
  cases code <;> first | exact absurd rfl h | decide

theorem slcdDecode_put3 {state : Slcdstate} (hclean : Clean state) {code : Slcdcode}
    (hcode : code ≠ .normal) (rest : List UInt8) :
    ∃ state', Clean state' ∧
      slcdDecode state (slcdPut3 code.val ++ rest) = some (.spec code.val 0, state', rest) := by
  obtain ⟨hisCode, hhex⟩ := isCode_val code hcode
  refine ⟨⟨0, 0, put (put state.buf 0 asciiEsc) 1 '['.toUInt8, Nat.zero_le 5⟩, rfl, ?_⟩
  simp [slcdDecode, slcdPut3, hclean.not_kept, hisCode, hhex]

theorem slcdDecode_put5 {state : Slcdstate} (hclean : Clean state) {code : Slcdcode}
    (hcode : code ≠ .normal) {count : UInt8} (hhi : count >>> 4 ≤ 9) (hlo : count &&& 0x0f ≤ 9)
    (rest : List UInt8) :
    ∃ state', Clean state' ∧
      slcdDecode state (slcdPut5 code.val count ++ rest)
        = some (.spec code.val count, state', rest) := by
  obtain ⟨hisCode, -⟩ := isCode_val code hcode
  obtain ⟨hhexHi, hvalHi⟩ := (nibbleOut_spec (count >>> 4)).1 (by rwa [(nibbles_count _).2])
  obtain ⟨hhexLo, hvalLo⟩ := (nibbleOut_spec count).1 hlo
  refine ⟨⟨0, 0, put (put (put (put (put state.buf 0 asciiEsc) 1 '['.toUInt8) 2
    (nibbleOut (count >>> 4))) 3 (nibbleOut count)) 4 ('A'.toUInt8 + code.val), Nat.zero_le 5⟩, rfl, ?_⟩
  simp [slcdDecode, slcdPut5, hclean.not_kept, hisCode, hhexHi, hhexLo, hvalHi, hvalLo, (nibbles_count count).1]

theorem slcdDecode_put5_letter {state : Slcdstate} (hclean : Clean state) (code : Slcdcode)
    {count : UInt8} (hcount : ¬ (count >>> 4 ≤ 9 ∧ count &&& 0x0f ≤ 9)) (rest : List UInt8) :
    ∃ state' stream', slcdDecode state (slcdPut5 code.val count ++ rest)
      = some (.char asciiEsc, state', stream') := by
  by_cases hhi : count >>> 4 ≤ 9
  · obtain ⟨hhexHi, -⟩ := (nibbleOut_spec (count >>> 4)).1 (by rwa [(nibbles_count _).2])
    obtain ⟨hhexLo, -⟩ := (nibbleOut_spec count).2 fun hlo => hcount ⟨hhi, hlo⟩
    simp [slcdDecode, slcdPut5, hclean.not_kept, hhexHi, hhexLo, fail, put, slcdReget, Pushback.reget]
  · obtain ⟨hhexHi, hisCode⟩ := (nibbleOut_spec (count >>> 4)).2 (by rwa [(nibbles_count _).2])
    simp [slcdDecode, slcdPut5, hclean.not_kept, hhexHi, hisCode, fail, put, slcdReget, Pushback.reget]

theorem slcdDecode_progress : Progress (fun state : Slcdstate => state.nch) slcdDecode := by
  intro state stream d state' stream' hdec
  unfold slcdDecode at hdec
  simp only [fail, slcdReget, Pushback.reget] at hdec
  split at hdec
  · simp only [Option.some.injEq, Prod.mk.injEq] at hdec
    obtain ⟨-, rfl, rfl⟩ := hdec
    show state.nch - 1 + stream.length < state.nch + stream.length
    omega
  · repeat' split at hdec
    all_goals cases hdec
    all_goals
      simp only [List.length_cons, List.length_nil]
      omega

theorem slcdDecode_ne_normal (count : UInt8) (state : Slcdstate) (stream : List UInt8)
    (state' : Slcdstate) (stream' : List UInt8) :
    slcdDecode state stream ≠ some (.spec Slcdcode.normal.val count, state', stream') := by
  have hcode : ∀ ch : UInt8, isCode ch = true → ch - 'A'.toUInt8 ≠ Slcdcode.normal.val := by
    decide +kernel
  intro hdec
  unfold slcdDecode at hdec
  simp only [fail, slcdReget, Pushback.reget] at hdec
  repeat' split at hdec
  all_goals
    simp only [Option.some.injEq, Prod.mk.injEq, reduceCtorEq, false_and, Decoded.spec.injEq] at hdec
  all_goals
    exact hcode _ (by simpa using ‹¬ (!isCode _) = true›) hdec.1.1

theorem takenWhole_of_carried (e : Event) (h : e.Carried) :
    TakenWhole slcdDecode Event.encode Event.decoded Clean e := by
  intro state rest hclean
  cases e with
  | char ch hch =>
    refine ⟨⟨0, 1, put state.buf 0 ch, by decide⟩, rfl, ?_⟩
    simp [Event.encode, Event.decoded, slcdPut, slcdDecode, hclean.not_kept, hch, fail, put, slcdReget,
      Pushback.reget]
  | action code count =>
    rcases h with ⟨hbare, rfl⟩ | ⟨hcounted, hhi, hlo⟩
    · have hcode : code ≠ .normal := by rintro rfl; cases hbare
      have hencode : (Event.action code 0).encode = slcdPut3 code.val := if_pos hbare
      rw [hencode]
      exact slcdDecode_put3 hclean hcode rest
    · have hcode : code ≠ .normal := by rintro rfl; cases hcounted
      have hbare : ¬ code.bare = true := by cases code <;> simp_all [Slcdcode.bare, Slcdcode.counted]
      have hencode : (Event.action code count).encode = slcdPut5 code.val count :=
        (if_neg hbare).trans (if_pos hcounted)
      rw [hencode]
      exact slcdDecode_put5 hclean hcode hhi hlo rest

theorem mistaken_of_not_carried (e : Event) (h : ¬ e.Carried) :
    Mistaken slcdDecode Event.encode Event.decoded Clean e := by
  cases e with
  | char ch hch => exact absurd trivial h
  | action code count =>
    by_cases hnormal : code = .normal
    · right
      rw [hnormal]
      exact slcdDecode_ne_normal count
    left
    intro state rest hclean
    cases hbare : code.bare with
    | true =>
      have hencode : (Event.action code count).encode = slcdPut3 code.val := if_pos hbare
      obtain ⟨state', -, hdec⟩ := slcdDecode_put3 hclean hnormal rest
      refine ⟨_, state', rest, fun heq => ?_, by rw [hencode]; exact hdec⟩
      exact h (.inl ⟨hbare, (Decoded.spec.inj heq).2.symm⟩)
    | false =>
      have hcounted : code.counted = true := by
        cases code <;> simp_all [Slcdcode.bare, Slcdcode.counted]
      have hencode : (Event.action code count).encode = slcdPut5 code.val count := by
        rw [Event.encode, slcdEncode, hbare, hcounted]
        rfl
      obtain ⟨state', stream', hdec⟩ :=
        slcdDecode_put5_letter hclean code (fun hdigits => h (.inr ⟨hcounted, hdigits⟩)) rest
      exact ⟨_, state', stream', Decoded.noConfusion, by rw [hencode]; exact hdec⟩

/-- **Round trip.** Exactly the sequences of events that are all carried are decoded to themselves:
no count for an action without one, and a count whose two nibbles are at most 9 for the others. -/
theorem decodeAll_encode_iff (es : List Event) :
    decodeAll (es.flatMap Event.encode) = some (es.map Event.decoded) ↔ ∀ e ∈ es, e.Carried := by
  have hend : ∀ state, Clean state → slcdDecode state [] = none := by
    intro state hclean
    rw [slcdDecode, dif_neg hclean.not_kept]
  exact run_encode_iff slcdDecode_progress hend (fun _ hclean => hclean) takenWhole_of_carried
    mistaken_of_not_carried es rfl (Nat.lt_succ_self _)

theorem decodeAll_right_ten :
    decodeAll ([Event.action .right 10].flatMap Event.encode)
      ≠ some ([Event.action .right 10].map Event.decoded) := by
  decide

end Nuttx.Slcd
