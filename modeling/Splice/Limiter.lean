import Splice.Number.Binary64

/-!
# Limiting how often something happens

A bucket of tokens: every event takes one, and tokens come back at some rate.  The
bucket is described between two refills, as it is seen by events that follow each
other at once.
-/

namespace Splice

/-- The tokens that are left, or no limit at all. -/
structure Limiter where
  tokens : Option Nat
deriving DecidableEq, Repr, Inhabited

namespace Limiter

/-- A full bucket.  A rate that is not positive, or infinite, never limits
anything; the bucket holds at least one token. -/
def create (rate : Binary64) (burst : Int) : Limiter :=
  if rate.isZero || rate.isNegative || rate.isInfinite then ⟨none⟩
  else ⟨some (max burst 1).toNat⟩

/-- Takes a token, if there is one. -/
def allow (l : Limiter) : Bool × Limiter :=
  match l.tokens with
  | none => (true, l)
  | some 0 => (false, l)
  | some (n + 1) => (true, ⟨some n⟩)

/-- Whether the next event would have to wait.  Asking takes the token that makes
the answer no. -/
def isDelayed (l : Limiter) : Bool × Limiter :=
  let (allowed, l) := l.allow
  (!allowed, l)

end Limiter

end Splice
