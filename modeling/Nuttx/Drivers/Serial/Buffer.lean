import Nuttx.Library.SlotRing
import Mathlib.Data.BitVec

/-!
# The ring buffers of a serial device

`struct uart_buffer_s`: the interrupt handler and the task that reads or writes each change one of the
two indices, without a lock.
-/

namespace Nuttx.Serial

structure UartBuffer where
  size : Nat
  head : Nat
  tail : Nat
  buffer : Nat → UInt8
  two_le_size : 2 ≤ size
  size_lt : size < 2 ^ 15
  head_lt : head < size
  tail_lt : tail < size

namespace UartBuffer

def empty (size : Nat) (hsize : 2 ≤ size ∧ size < 2 ^ 15) (buffer : Nat → UInt8) : UartBuffer :=
  have hpos := Nat.lt_of_lt_of_le Nat.two_pos hsize.1
  ⟨size, 0, 0, buffer, hsize.1, hsize.2, hpos, hpos⟩

variable (b : UartBuffer)

theorem size_pos : 0 < b.size := Nat.lt_of_lt_of_le Nat.two_pos b.two_le_size

def nexthead : Nat := SlotRing.next b.size b.head

def setSlot (ch : UInt8) : UartBuffer := { b with buffer := Function.update b.buffer b.head ch }

def advanceHead : UartBuffer :=
  { b with head := b.nexthead, head_lt := SlotRing.next_lt b.size_pos b.head }

def setTail (tail : Nat) : UartBuffer :=
  { b with tail := SlotRing.next b.size tail, tail_lt := SlotRing.next_lt b.size_pos tail }

def contents : List UInt8 := SlotRing.contents b.buffer b.size b.tail b.head

def room : Nat := b.size - 1 - b.contents.length

variable {b}

theorem contents_eq_nil_iff : b.contents = [] ↔ b.head = b.tail :=
  SlotRing.contents_eq_nil_iff b.tail_lt

theorem room_eq_zero_iff : b.room = 0 ↔ b.nexthead = b.tail := by
  have hlt := SlotRing.used_lt b.tail_lt b.head_lt
  have hsize := b.two_le_size
  rw [nexthead, SlotRing.next_eq_iff b.tail_lt b.head_lt, room, contents, SlotRing.length_contents]
  omega

theorem contents_put (hroom : b.nexthead ≠ b.tail) (ch : UInt8) :
    (b.setSlot ch).advanceHead.contents = b.contents ++ [ch] :=
  SlotRing.contents_push b.tail_lt b.head_lt hroom ch

theorem contents_setSlot (ch : UInt8) : (b.setSlot ch).contents = b.contents := by
  refine List.map_congr_left fun i hi => ?_
  exact Function.update_of_ne (SlotRing.slot_ne b.tail_lt b.head_lt (List.mem_range.mp hi)) _ _

theorem contents_advanceHead (hroom : b.nexthead ≠ b.tail) :
    b.advanceHead.contents = b.contents ++ [b.buffer b.head] := by
  have hput := contents_put hroom (b.buffer b.head)
  rw [setSlot, Function.update_eq_self] at hput
  exact hput

theorem contents_take (hsome : b.head ≠ b.tail) :
    b.contents = b.buffer b.tail :: (b.setTail b.tail).contents :=
  SlotRing.contents_pop b.tail_lt b.head_lt hsome

end UartBuffer

def cr : UInt8 := 13

def nl : UInt8 := 10

end Nuttx.Serial
