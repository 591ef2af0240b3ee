import Mathlib.Data.BitVec

/-!
# Sequence numbers of TCP

Sequence numbers are kept as four bytes in network order, as they stand in the TCP header, and are
read as 32-bit numbers where they are compared or added to.
-/

namespace Nuttx.Tcp

structure Seqno where
  b0 : UInt8
  b1 : UInt8
  b2 : UInt8
  b3 : UInt8
deriving DecidableEq, Repr

def tcpSetsequence (value : UInt32) : Seqno where
  b0 := (value >>> 24).toUInt8
  b1 := ((value >>> 16) &&& 0xff).toUInt8
  b2 := ((value >>> 8) &&& 0xff).toUInt8
  b3 := (value &&& 0xff).toUInt8

def tcpGetsequence (seqno : Seqno) : UInt32 :=
  seqno.b0.toUInt32 <<< 24 ||| seqno.b1.toUInt32 <<< 16 ||| seqno.b2.toUInt32 <<< 8 |||
    seqno.b3.toUInt32

def tcpAddsequence (seqno : Seqno) (len : UInt16) : UInt32 :=
  tcpGetsequence seqno + len.toUInt32

def netCarry32 (sum : Seqno) (op16 : UInt16) : Seqno :=
  let sum :=
    if sum.b2 < (op16 >>> 8).toUInt8 then
      let sum := { sum with b1 := sum.b1 + 1 }
      if sum.b1 = 0 then { sum with b0 := sum.b0 + 1 } else sum
    else sum
  if sum.b3 < (op16 &&& 0xff).toUInt8 then
    let sum := { sum with b2 := sum.b2 + 1 }
    if sum.b2 = 0 then
      let sum := { sum with b1 := sum.b1 + 1 }
      if sum.b1 = 0 then { sum with b0 := sum.b0 + 1 } else sum
    else sum
  else sum

def netIncr32 (op32 : Seqno) (op16 : UInt16) : Seqno :=
  netCarry32 { op32 with b3 := op32.b3 + (op16 &&& 0xff).toUInt8
                         b2 := op32.b2 + (op16 >>> 8).toUInt8 } op16

theorem toNat_tcpGetsequence (seqno : Seqno) :
    (tcpGetsequence seqno).toNat = seqno.b0.toNat * 16777216 + seqno.b1.toNat * 65536 +
      seqno.b2.toNat * 256 + seqno.b3.toNat := by
  obtain ⟨b0, b1, b2, b3⟩ := seqno
  have h0 := b0.toNat_lt
  have h1 := b1.toNat_lt
  have h2 := b2.toNat_lt
  have h3 := b3.toNat_lt
  have hor : ∀ a b i : Nat, b < 2 ^ i → a * 2 ^ i ||| b = a * 2 ^ i + b := by
    intro a b i hb
    rw [← Nat.shiftLeft_eq, ← Nat.shiftLeft_add_eq_or_of_lt hb]
  unfold tcpGetsequence
  simp only [UInt32.toNat_or, UInt32.toNat_shiftLeft, UInt8.toNat_toUInt32, Nat.shiftLeft_eq,
    UInt32.reduceToNat, Nat.reduceMod]
  rw [Nat.mod_eq_of_lt (by omega), Nat.mod_eq_of_lt (by omega), Nat.mod_eq_of_lt (by omega),
    hor b0.toNat _ 24 (by omega),
    show b0.toNat * 2 ^ 24 + b1.toNat * 2 ^ 16 = (b0.toNat * 2 ^ 8 + b1.toNat) * 2 ^ 16 by omega,
    hor _ _ 16 (by omega),
    show (b0.toNat * 2 ^ 8 + b1.toNat) * 2 ^ 16 + b2.toNat * 2 ^ 8 =
      (b0.toNat * 2 ^ 16 + b1.toNat * 2 ^ 8 + b2.toNat) * 2 ^ 8 by omega, hor _ _ 8 (by omega)]
  omega

theorem tcpGetsequence_injective : Function.Injective tcpGetsequence := by
  intro a b h
  have h := congrArg UInt32.toNat h
  rw [toNat_tcpGetsequence, toNat_tcpGetsequence] at h
  obtain ⟨a0, a1, a2, a3⟩ := a
  obtain ⟨b0, b1, b2, b3⟩ := b
  have := a1.toNat_lt
  have := a2.toNat_lt
  have := a3.toNat_lt
  have := b1.toNat_lt
  have := b2.toNat_lt
  have := b3.toNat_lt
  simp only [Seqno.mk.injEq, ← UInt8.toNat_inj]
  dsimp only at h
  omega

@[simp]
theorem tcpGetsequence_tcpSetsequence (value : UInt32) :
    tcpGetsequence (tcpSetsequence value) = value := by
  have hlt := value.toNat_lt
  apply UInt32.toNat_inj.mp
  rw [toNat_tcpGetsequence]
  have hbyte : ∀ v : UInt32, (v &&& 0xff).toUInt8.toNat = v.toNat % 256 := by
    intro v
    rw [UInt32.toNat_toUInt8, UInt32.toNat_and]
    change (v.toNat &&& 2 ^ 8 - 1) % 256 = _
    rw [Nat.and_two_pow_sub_one_eq_mod]
    omega
  have hshift : ∀ (k : UInt32), k.toNat < 32 → (value >>> k).toNat = value.toNat / 2 ^ k.toNat := by
    intro k hk
    rw [UInt32.toNat_shiftRight, Nat.mod_eq_of_lt hk, Nat.shiftRight_eq_div_pow]
  have e0 := hshift 24 (by decide)
  have e1 := hshift 16 (by decide)
  have e2 := hshift 8 (by decide)
  change (value >>> 24).toUInt8.toNat * 16777216 + ((value >>> 16) &&& 0xff).toUInt8.toNat * 65536 +
    ((value >>> 8) &&& 0xff).toUInt8.toNat * 256 + (value &&& 0xff).toUInt8.toNat = value.toNat
  rw [hbyte, hbyte, hbyte, UInt32.toNat_toUInt8, e0, e1, e2]
  change value.toNat / 2 ^ 24 % 256 * 16777216 + value.toNat / 2 ^ 16 % 256 * 65536 +
    value.toNat / 2 ^ 8 % 256 * 256 + value.toNat % 256 = value.toNat
  omega

@[simp]
theorem tcpSetsequence_tcpGetsequence (seqno : Seqno) :
    tcpSetsequence (tcpGetsequence seqno) = seqno :=
  tcpGetsequence_injective (tcpGetsequence_tcpSetsequence _)

theorem tcpGetsequence_netIncr32 (op32 : Seqno) (op16 : UInt16) :
    tcpGetsequence (netIncr32 op32 op16) = tcpGetsequence op32 + op16.toUInt32 := by
  apply UInt32.toNat_inj.mp
  have hlow : (op16 &&& 0xff).toUInt8.toNat = op16.toNat % 256 := by
    rw [UInt16.toNat_toUInt8, UInt16.toNat_and]
    change (op16.toNat &&& 2 ^ 8 - 1) % 256 = _
    rw [Nat.and_two_pow_sub_one_eq_mod]
    omega
  have hhigh : (op16 >>> 8).toUInt8.toNat = op16.toNat / 256 := by
    have hlt := op16.toNat_lt
    rw [UInt16.toNat_toUInt8, UInt16.toNat_shiftRight]
    change op16.toNat >>> 8 % 256 = _
    rw [Nat.shiftRight_eq_div_pow]
    omega
  have hop := op16.toNat_lt
  obtain ⟨b0, b1, b2, b3⟩ := op32
  have h0 := b0.toNat_lt
  have h1 := b1.toNat_lt
  have h2 := b2.toNat_lt
  have h3 := b3.toNat_lt
  rw [UInt32.toNat_add, UInt16.toNat_toUInt32, toNat_tcpGetsequence, toNat_tcpGetsequence]
  unfold netIncr32 netCarry32
  -- every branch is a combination of carries out of the bytes
  simp only [UInt8.lt_iff_toNat_lt, ← UInt8.toNat_inj, UInt8.toNat_add, hlow, hhigh]
  split_ifs <;> simp only [UInt8.toNat_add, hlow, hhigh, UInt8.reduceToNat] at * <;> omega

end Nuttx.Tcp
