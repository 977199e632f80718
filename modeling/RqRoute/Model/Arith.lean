import Mathlib.Algebra.Ring.Int.Defs
import Mathlib.Algebra.Ring.Nat
import RqRoute.Library.Checked

/-! # Machine arithmetic and failures

The signed 32-bit results of C `int` expressions, unsigned 64-bit subtraction and
multiplication, and every way a call of the program can stop other than by
returning. -/

namespace RqRoute

/-- The value an `int` holds after `x` was computed modulo 2^32. -/
def toInt (x : ℤ) : ℤ := (x + 2 ^ 31) % 2 ^ 32 - 2 ^ 31

/-- `x` is representable as an `int`. -/
def FitsInt (x : ℤ) : Prop := -2 ^ 31 ≤ x ∧ x < 2 ^ 31

instance (x : ℤ) : Decidable (FitsInt x) := inferInstanceAs (Decidable (_ ∧ _))

/-- `a - b` in `size_t`. -/
def sizeSub (a b : ℕ) : ℕ := (a + (2 ^ 64 - b % 2 ^ 64)) % 2 ^ 64

/-- `a * b` in `size_t`. -/
def sizeMul (a b : ℕ) : ℕ := a * b % 2 ^ 64

theorem toInt_of_fits {x : ℤ} (h : FitsInt x) : toInt x = x := by
  unfold toInt FitsInt at *
  omega

@[simp] theorem toInt_zero : toInt 0 = 0 := rfl

@[simp] theorem toInt_one : toInt 1 = 1 := rfl

theorem fitsInt_toInt (x : ℤ) : FitsInt (toInt x) := by
  unfold toInt FitsInt
  omega

theorem sizeSub_of_le {a b : ℕ} (h : b ≤ a) (ha : a < 2 ^ 64) : sizeSub a b = a - b := by
  unfold sizeSub
  omega

theorem sizeMul_of_lt {a b : ℕ} (h : a * b < 2 ^ 64) : sizeMul a b = a * b :=
  Nat.mod_eq_of_lt h

/-- The assertions of the program, one constructor each, and the accesses and
arithmetic that the language leaves undefined. -/
inductive Fault where
  -- param_deriv.c
  | paramDerivBlocks
  | paramDerivLarge
  | paramDerivTotal
  -- codeblockstate.c
  | addSymPayloadSize
  | getDataSize
  -- segstate.c
  | addPacketToi
  | addPacketTos
  | addPacketBlocks
  | addPacketPayloadId
  | addPacketMode
  | prepareOutputFd
  | writeMoreFd
  | writeMoreMode
  | writeMorePad
  | writeMoreOffs
  -- segstateset.c
  | markInitializedStatus
  -- receiver.c
  | taskWriteStatus
  | selectSock
  | selectCount
  | recvSize
  | signalReadyFd
  -- sender.c
  | xmitLastBlock
  | xmitLastSymbol
  -- m3u8.c
  | entryLength
  -- no assertion, but undefined in C
  | outOfBounds
  | nullPointer
  | intOverflow
  | endlessLoop
deriving DecidableEq, Repr

end RqRoute
