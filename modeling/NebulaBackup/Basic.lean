/-
Bytes, exceptions and the results of stateful operations.

Strings of the program are byte strings.  An operation on a state `σ` ends in
`Result σ α`: it returns a value or stops with a `Fault`, and in both cases
leaves a state behind, since the objects an exception passes through keep what
was already done to them.  Besides the exceptions of `Exception.h` a fault is
the one that Boost throws, behaviour the language leaves undefined or the end of
the model's loop budget.
-/
import Mathlib

namespace Nebula

/-- A byte string (`std::string`, a C string, a memory range). -/
abbrev Bytes := List UInt8

/-- The bytes of a string literal of the source. -/
def ascii (s : String) : Bytes := s.toList.map fun c => c.toNat.toUInt8

/-- A byte string as text, for messages. -/
def text (b : Bytes) : String := String.ofList (b.map fun x => Char.ofNat x.toNat)

/-- Byte order, as `memcmp` and `std::less<std::string>` have it. -/
instance instLinearOrderUInt8 : LinearOrder UInt8 where
  le_refl := UInt8.le_refl
  le_trans _ _ _ := UInt8.le_trans
  le_antisymm _ _ := UInt8.le_antisymm
  le_total := UInt8.le_total
  lt_iff_le_not_ge a b := by
    rw [UInt8.le_iff_toNat_le, UInt8.le_iff_toNat_le, UInt8.lt_iff_toNat_lt]
    omega
  toDecidableLE := inferInstance
  toDecidableLT := inferInstance
  toDecidableEq := inferInstance

/-- `::tolower` in the C locale. -/
def tolower (b : UInt8) : UInt8 := if 65 ≤ b ∧ b ≤ 90 then b + 32 else b

/-- The exception classes of `Exception.h` that the modelled code throws. -/
inductive ExceptionType
  | FileNotFoundException
  | FileIOException
  | CancelledException
  | InvalidArgumentException
  | InvalidRepositoryException
  | InvalidOperationException
  | EncryptionFailedException
  | InsufficientBufferSizeException
  | LZMAException
  | IndexOutOfBoundException
  | VerificationFailedException
  | ShortReadException
deriving DecidableEq, Repr

/-- Why an operation did not return. -/
inductive Fault
  /-- An exception with its message. -/
  | thrown (kind : ExceptionType) (what : String)
  /-- What Boost throws when the file system refuses. -/
  | filesystem_error
  /-- A step the language leaves undefined: a read outside the memory the
  program owns, a shift or a division without a value. -/
  | undefined
  /-- The loop budget of the model was used up. -/
  | outOfFuel
deriving DecidableEq, Repr

/-- The result of an operation on a state `σ`: a value or a fault, and the
state it leaves. -/
abbrev Result (σ α : Type) := EStateM.Result Fault σ α

/-- What is left when a program has ended, by an exception or not. -/
def leftBy {ε σ α : Type} : EStateM.Result ε σ α → σ
  | .error _ s => s
  | .ok _ s => s

/-- The exception that ended it. -/
def thrownBy {ε σ α : Type} : EStateM.Result ε σ α → Option ε
  | .error e _ => some e
  | .ok _ _ => none

theorem eq_error_of_thrownBy {ε σ α : Type} {r : EStateM.Result ε σ α} {e : ε}
    (h : thrownBy r = some e) : r = .error e (leftBy r) := by
  cases r with
  | ok a s => exact absurd h (by simp [thrownBy])
  | error e' s => rw [Option.some.inj h, leftBy]

theorem eq_ok_of_thrownBy {ε σ : Type} {r : EStateM.Result ε σ Unit} (h : thrownBy r = none) :
    r = .ok () (leftBy r) := by
  cases r with
  | ok a s => rfl
  | error e s => exact absurd h (by simp [thrownBy])

/-- A digest of `n` bytes. -/
abbrev Digest (n : ℕ) := List.Vector UInt8 n

/-- `SHA256_DIGEST_LENGTH`. -/
def SHA256_DIGEST_LENGTH : ℕ := 32

/-- `MD5_DIGEST_LENGTH`. -/
def MD5_DIGEST_LENGTH : ℕ := 16

end Nebula
