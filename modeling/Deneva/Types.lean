import Mathlib

/-!
# The enumerations of `system/global.h`

Return codes, access kinds, lock modes and timestamp requests, with the
constants the concurrency-control code compares against. 64-bit unsigned values
are natural numbers throughout; a computation that can leave the 64-bit range is
reduced explicitly with `u64`.
-/

namespace Deneva

/-- `RC`: what an operation of the engine answers. -/
inductive RC : Type where
  | RCOK | Commit | Abort | WAIT | WAIT_REM | ERROR | FINISH | NONE
  deriving DecidableEq

/-- `access_t`: the kind of a row access. `XP` is a write that is being undone. -/
inductive AccessT : Type where
  | RD | WR | XP | SCAN
  deriving DecidableEq

/-- `lock_t`: the mode of a row lock. -/
inductive LockT : Type where
  | EX | SH | NONE
  deriving DecidableEq

/-- `TsType`: the requests of the timestamp-based row managers. -/
inductive TsType : Type where
  | R_REQ | W_REQ | P_REQ | XP_REQ
  deriving DecidableEq

/-- `UINT64_MAX`. -/
def UINT64_MAX : ℕ := 2 ^ 64 - 1

/-- The value of a computation in 64-bit unsigned arithmetic. -/
def u64 (n : ℕ) : ℕ := n % 2 ^ 64

theorem u64_of_le {n : ℕ} (h : n ≤ UINT64_MAX) : u64 n = n := by
  unfold u64 UINT64_MAX at *
  exact Nat.mod_eq_of_lt (by omega)

end Deneva
