/-
# Machine words and faults

Extents, lengths and numbers of nodes are natural numbers held in 64-bit words, and
loop code computes on signed 64-bit words. Numbers are kept as `Nat` and `Int`; an
operation whose exact result does not fit its word is a fault.
-/

namespace TensorLoom

/-- Why a computation stops without an answer. An error refuses one request and leaves
the session usable; a fault ends the session. -/
inductive Fault where
  /-- The exact result does not fit a word. -/
  | overflow
  /-- An integer is divided by zero. -/
  | division
  /-- An axis list does not fit the rank it is used with. -/
  | rank
  /-- A node number names no node. -/
  | node
  /-- Two lengths that have to agree differ. -/
  | length
  /-- An element number lies outside its storage. -/
  | element
  /-- A register number lies outside the register file. -/
  | register
  /-- A function has no input of that number. -/
  | input
  /-- A buffer number lies outside the buffer table. -/
  | buffer
  /-- A loop has no closing instruction. -/
  | openLoop
  /-- A block is closed that was never opened. -/
  | depth
  /-- A storage of that many elements cannot exist. -/
  | allocation
  /-- Native code is stopped in an arithmetic operation. -/
  | trap
deriving DecidableEq, Repr

namespace Word

/-- One more than the largest unsigned word. -/
def limit : Nat := 18446744073709551616

/-- Product of two unsigned words. -/
def mul (a b : Nat) : Except Fault Nat :=
  if a * b < limit then .ok (a * b) else .error .overflow

/-- A number fits a signed word. -/
def Fits (z : Int) : Prop := -9223372036854775808 ≤ z ∧ z < 9223372036854775808

instance : DecidablePred Fits := fun z => by unfold Fits; infer_instance

/-- The exact integer `z` as a signed word. -/
def exact (z : Int) : Except Fault Int :=
  if Fits z then .ok z else .error .overflow

/-- The signed word with the same bits as the unsigned word `n`. -/
def signed (n : Nat) : Int := Int.bmod n limit

theorem mul_eq_ok {a b c : Nat} : mul a b = .ok c ↔ a * b < limit ∧ c = a * b := by
  unfold mul
  by_cases h : a * b < limit <;> simp [h, eq_comm]

theorem exact_eq_ok {z w : Int} : exact z = .ok w ↔ Fits z ∧ w = z := by
  unfold exact
  by_cases h : Fits z <;> simp [h, eq_comm]

/-- Below half the range, the signed reading of an unsigned word is the word itself. -/
theorem signed_of_lt {n : Nat} (h : n < 9223372036854775808) : signed n = n := by
  unfold signed limit
  rw [Int.bmod_eq_of_le] <;> omega

end Word

end TensorLoom
