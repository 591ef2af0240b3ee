import Mathlib.Tactic.Ring

/-!
# Byte-addressed memory

A memory is one byte at every address. Fields wider than a byte are read and written little-endian.
What a piece of code may have changed is said by `ChangesOnly`: every byte outside a set of
addresses is as it was.
-/

namespace ByteMemory

/-- One byte at every address. A structure, so that a function returning a memory computes it once
and not again at every read. -/
structure Mem where
  byte : Nat → UInt8

/-- The little-endian number held by the `n` bytes from `a`. -/
def load (m : Mem) : Nat → Nat → Nat
  | 0, _ => 0
  | n + 1, a => (m.byte a).toNat + 256 * load m n (a + 1)

/-- Write the low `n` bytes of `v` at `a`. -/
def store (m : Mem) (n a v : Nat) : Mem :=
  ⟨fun x => if a ≤ x ∧ x < a + n then UInt8.ofNat (v / 256 ^ (x - a)) else m.byte x⟩

/-- Copy `n` bytes, lowest address first. -/
def memcpy (m : Mem) (dst src : Nat) : Nat → Mem
  | 0 => m
  | n + 1 => memcpy ⟨fun x => if x = dst then m.byte src else m.byte x⟩ (dst + 1) (src + 1) n

/-- Fill `n` bytes with `b`. -/
def memset (m : Mem) (dst : Nat) (b : UInt8) (n : Nat) : Mem :=
  ⟨fun x => if dst ≤ x ∧ x < dst + n then b else m.byte x⟩

/-- The addresses of the `n` bytes from `a`. -/
def span (a n : Nat) : Set Nat := {x | a ≤ x ∧ x < a + n}

variable {a n : Nat} {m : Mem}

@[simp]
theorem mem_span {x : Nat} : x ∈ span a n ↔ a ≤ x ∧ x < a + n := Iff.rfl

/-- Going from `m` to `m'` left every byte outside `S` as it was. -/
def ChangesOnly (S : Set Nat) (m m' : Mem) : Prop := ∀ x, x ∉ S → m'.byte x = m.byte x

theorem store_byte_of_not_mem {v x : Nat} (h : ¬ (a ≤ x ∧ x < a + n)) :
    (store m n a v).byte x = m.byte x := if_neg h

namespace ChangesOnly

variable {S T : Set Nat} {m m' m'' : Mem}

theorem refl (S : Set Nat) (m : Mem) : ChangesOnly S m m := fun _ _ => rfl

theorem mono (h : ChangesOnly S m m') (hST : S ⊆ T) : ChangesOnly T m m' :=
  fun x hx => h x fun hmem => hx (hST hmem)

theorem trans (h : ChangesOnly S m m') (h' : ChangesOnly S m' m'') : ChangesOnly S m m'' :=
  fun x hx => (h' x hx).trans (h x hx)

theorem store {n a : Nat} (v : Nat) (hS : span a n ⊆ S) (h : ChangesOnly S m m') :
    ChangesOnly S m (store m' n a v) := by
  intro x hx
  have hout : ¬ (a ≤ x ∧ x < a + n) := fun hmem => hx (hS hmem)
  rw [store_byte_of_not_mem hout, h x hx]

theorem memset {a n : Nat} (b : UInt8) (hS : span a n ⊆ S) (h : ChangesOnly S m m') :
    ChangesOnly S m (memset m' a b n) := by
  intro x hx
  have hout : ¬ (a ≤ x ∧ x < a + n) := fun hmem => hx (hS hmem)
  exact (if_neg hout).trans (h x hx)

theorem memcpy {dst src n : Nat} (hS : span dst n ⊆ S) (h : ChangesOnly S m m') :
    ChangesOnly S m (memcpy m' dst src n) := by
  induction n generalizing m' dst src with
  | zero => exact h
  | succ n ih =>
    rw [ByteMemory.memcpy]
    refine ih (fun x hx => hS ?_) fun x hx => ?_
    · simp only [mem_span] at hx ⊢
      omega
    have hne : x ≠ dst := by
      rintro rfl
      exact hx (hS (by simp))
    simp only [if_neg hne]
    exact h x hx

end ChangesOnly

theorem load_congr {m' : Mem} (h : ∀ x, a ≤ x → x < a + n → m'.byte x = m.byte x) :
    load m' n a = load m n a := by
  induction n generalizing a with
  | zero => rfl
  | succ n ih =>
    rw [load, load, h a (by omega) (by omega), ih fun x hx hx' => h x (by omega) (by omega)]

theorem load_lt (m : Mem) (n a : Nat) : load m n a < 256 ^ n := by
  induction n generalizing a with
  | zero => simp [load]
  | succ n ih =>
    have hbyte := (m.byte a).toNat_lt
    have hrest := ih (a + 1)
    rw [load, pow_succ]
    omega

theorem ChangesOnly.load_eq {S : Set Nat} {m' : Mem} (h : ChangesOnly S m m')
    (hS : ∀ x, a ≤ x → x < a + n → x ∉ S) : load m' n a = load m n a :=
  load_congr fun x hx hx' => h x (hS x hx hx')

private theorem load_store_from (m : Mem) (n a v i k : Nat) (hik : i + k = n) :
    load (store m n a v) k (a + i) = v / 256 ^ i % 256 ^ k := by
  induction k generalizing i with
  | zero => simp [load, Nat.mod_one]
  | succ k ih =>
    have hin : a ≤ a + i ∧ a + i < a + n := ⟨by omega, by omega⟩
    have hbyte : ((store m n a v).byte (a + i)).toNat = v / 256 ^ i % 256 := by
      simp [store, hin]
    rw [load, hbyte, show a + i + 1 = a + (i + 1) by omega, ih (i + 1) (by omega), pow_succ,
      pow_succ, ← Nat.div_div_eq_div_mul, mul_comm (256 ^ k), Nat.mod_mul]

theorem load_store_self (m : Mem) (n a v : Nat) : load (store m n a v) n a = v % 256 ^ n := by
  simpa using load_store_from m n a v 0 n (by omega)

theorem load_store_eq {v : Nat} (hv : v < 256 ^ n) : load (store m n a v) n a = v := by
  rw [load_store_self, Nat.mod_eq_of_lt hv]

theorem load_store_of_disjoint {v k b : Nat} (h : a + n ≤ b ∨ b + k ≤ a) :
    load (store m n a v) k b = load m k b := by
  refine load_congr fun x hx hx' => store_byte_of_not_mem ?_
  omega

end ByteMemory
