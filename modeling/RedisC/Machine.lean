/-
Constants of the server and the ways a call can fail to return.

`assert` aborts the process, so a violated assertion is a fault and not a
value.  `spin` is the fault of the one loop of the program that can repeat
forever without changing its state.
-/

import Mathlib

namespace RedisC

abbrev Bytes := List UInt8

/-- Addresses of heap objects.  A nullable pointer is an `Option Ptr`. -/
abbrev Ptr := UInt64

def kMaxMsg : Nat := 4096
def kMaxArgs : Nat := 1024
def kResizingWork : Nat := 128
def kMaxLoadFactor : Nat := 8
def kIdleTimeoutMs : Nat := 5 * 1000

/-- The functions that hold an `assert`. -/
inductive Assertion
  | hInit
  | hmStartResizing
  | outUpdateArr
  | doGet
  | tryFlushBuffer
  | tryFillBuffer
  | connectionIo
  | processTimers
  | threadPoolInit
  deriving DecidableEq, Repr

inductive Fault
  | spin
  | assertion (site : Assertion)
  | nullDeref
  | outOfBounds
  | outOfFuel
  deriving DecidableEq, Repr

end RedisC
