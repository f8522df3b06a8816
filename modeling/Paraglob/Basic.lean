import Mathlib.Algebra.Group.Int.Defs
import Mathlib.Algebra.Group.Nat.Defs
import Mathlib.Data.List.TakeWhile
import Mathlib.Order.Defs.LinearOrder
import Mathlib.Tactic.Common

/-!
# Byte strings and the ways a call can fail

Patterns, texts and meta words are `std::string`s: sequences of bytes of any
value, zero included. Strings are ordered as `std::string::operator<` orders
them, by the first byte in which they differ, taken as unsigned. The trie below
stores its letters as `char` and compares them as signed values, so both views
of a byte are kept here.
-/

/-- The contents of a `std::string` or of a `std::vector<uint8_t>`. -/
abbrev Bytes := List UInt8

/-- Bytes in the order of `unsigned char`. -/
instance UInt8.linearOrder : LinearOrder UInt8 where
  le_refl := UInt8.le_refl
  le_trans _ _ _ := UInt8.le_trans
  lt_iff_le_not_ge a b := by
    rw [UInt8.not_le]
    exact ⟨fun h => ⟨UInt8.le_of_lt h, h⟩, fun h => h.2⟩
  le_antisymm _ _ := UInt8.le_antisymm
  le_total := UInt8.le_total
  toDecidableLE := inferInstance

namespace Bytes

/-- What a C function sees of a string passed as `c_str()`: everything before
the first zero byte. -/
def cStr (s : Bytes) : Bytes := s.takeWhile (· ≠ 0)

theorem cStr_eq_self {s : Bytes} (noNul : 0 ∉ s) : s.cStr = s := by
  rw [cStr, List.takeWhile_eq_self_iff]
  intro b hb
  rw [decide_eq_true_eq]
  rintro rfl
  exact noNul hb

end Bytes

/-- A byte read as a `signed char`. -/
def UInt8.signed (a : UInt8) : Int := a.toInt8.toInt

theorem UInt8.signed_inj {a b : UInt8} : a.signed = b.signed ↔ a = b := by
  simp only [signed, Int8.toInt_inj]
  exact ⟨fun h => by simpa using congrArg Int8.toUInt8 h, fun h => by rw [h]⟩

/-- How a call can leave its normal path: undefined behaviour of the C part, an
exception of the C++ part, or a loop that does not end. -/
inductive Fault where
  /-- A loop or recursion outlives its fuel. -/
  | outOfFuel
  /-- An array is accessed outside its bounds, or a cell is read before it is written. -/
  | outOfBounds
  /-- A null pointer is dereferenced. -/
  | nullPointer
  /-- A pointer is followed, or an array read, that nothing was written to. -/
  | uninitialized
  /-- `memcpy` reads and writes the same cells. -/
  | overlap
  /-- `std::out_of_range`, thrown by `.at`. -/
  | outOfRange
  /-- `paraglob::add_error` with its text. -/
  | addError (what : Bytes)
  /-- `paraglob::underflow_error` with its text. -/
  | underflowError (what : Bytes)
  /-- `paraglob::overflow_error` with its text. -/
  | overflowError (what : Bytes)
deriving DecidableEq

theorem bind_of_ok {ε α β : Type} {x : Except ε α} {a : α} (ran : x = .ok a)
    (f : α → Except ε β) : x >>= f = f a := by
  rw [ran]
  rfl

theorem bind_of_error {ε α β : Type} {x : Except ε α} {fault : ε} (failed : x = .error fault)
    (f : α → Except ε β) : x >>= f = .error fault := by
  rw [failed]
  rfl

theorem exists_of_bind_eq_ok {ε α β : Type} {x : Except ε α} {f : α → Except ε β} {b : β}
    (ran : x >>= f = .ok b) : ∃ a, x = .ok a ∧ f a = .ok b := by
  cases x with
  | error fault => cases ran
  | ok a => exact ⟨a, rfl, ran⟩

theorem exists_of_map_eq_ok {ε α β : Type} {x : Except ε α} {f : α → β} {b : β}
    (ran : f <$> x = .ok b) : ∃ a, x = .ok a ∧ f a = b := by
  cases x with
  | error fault => cases ran
  | ok a => exact ⟨a, rfl, Except.ok.inj ran⟩

/-- Conversion to a 32-bit `int`: the low 32 bits, read as a signed value. A
`size_t` that wrapped modulo `2 ^ 64` gives the same result as its exact value. -/
def toInt (n : Int) : Int := n.bmod (2 ^ 32)

theorem toInt_of_lt {n : Nat} (h : n < 2 ^ 31) : toInt n = n := by
  rw [toInt, Int.bmod_eq_of_le] <;> omega
