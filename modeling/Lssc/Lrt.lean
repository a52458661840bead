import Lssc.Common

/-!
# `lssc_lrt.c`: reverse, little-endian, thread-safe

`lssc_lrt`, with the two static functions `head` and `heel`. What `lssc_lrt` shares with `lssc_lr`
is `Reverse.copy`. The names of the static functions are exchanged with respect to `lssc_lft.c`:
`head` finishes from the end with the widest unit first and `heel` starts at the end with the
narrowest. Values are carried at the high end of a word, so a unit of `p` bytes is stored from the
top `p` bytes.

The preprocessor selects the units of 1, 2, 4 and 8 bytes as it does in `lssc_lft.c`.
-/

namespace Lssc

open WordAccess

variable (g : Geometry)

namespace Lrt

variable {g}

/-- `if (n & p) end = (t*)end - 1, *(t*)end = (t)(val >> (MWORD_BITS - CHAR_BIT * sizeof(t))),`
`val <<= CHAR_BIT * sizeof(t);` with `p = sizeof(t)`, a line of `head`. -/
def headUnit (p n : ℕ) (e : ℤ) (val : MWord g) : Code g (ℤ × MWord g) :=
  if p < g.mwordSize ∧ n &&& p ≠ 0 then do
    let e := e - p
    storeLow p e (← shr val (g.mwordSize * 8 - 8 * p))
    let val ← shl val (8 * p)
    pure (e, val)
  else pure (e, val)

/-- `head`: the high `n` bytes of `val` before `e`, widest unit first. -/
def head (e : ℤ) (val : MWord g) (n : ℕ) : Code g Unit := do
  let (e, val) ← headUnit 8 n e val
  let (e, val) ← headUnit 4 n e val
  let (e, val) ← headUnit 2 n e val
  if 1 < g.mwordSize ∧ n &&& 1 ≠ 0 then do
    let e := e - 1
    storeLow 1 e (← shr val (g.mwordSize * 8 - 8))
  else pure ()

/-- `HEEL(t)` with `p = sizeof(t)`, followed by `next`. -/
def HEEL (p : ℕ) (next : ℤ → MWord g → ℕ → Code g Unit) (e : ℤ) (val : MWord g) (n : ℕ) :
    Code g Unit :=
  if Int.land e p ≠ 0 then
    if n < p then head e val n
    else do
      let e := e - p
      storeLow p e (← shr val (g.mwordSize * 8 - 8 * p))
      let n ← sub n p
      if n = 0 then pure ()
      else do
        let val ← shl val (8 * p)
        next e val n
  else next e val n

/-- `HEEL(t)` where the preprocessor keeps it and, for a unit below `MMIN_ALIGN`, the brace around
it is entered. -/
def step (inside : Bool) (p : ℕ) (next : ℤ → MWord g → ℕ → Code g Unit) :
    ℤ → MWord g → ℕ → Code g Unit :=
  if p < g.mwordSize ∧ (g.mminAlign ≤ p ∨ inside) then HEEL p next else next

/-- `heel`: the high `n` bytes of `val` into `[dest, dest + n)`, narrowest unit first from the
end. -/
def heel (dest : ℤ) (val : MWord g) (n : ℕ) : Code g Unit :=
  let e := dest + n
  let inside := Int.land e (g.mminAlign - 1) ≠ 0
  step inside 1 (step inside 2 (step inside 4 (step inside 8 head))) e val n

end Lrt

/-- `lssc_lrt` stores the bytes of dest alone. -/
def lsscLrt.edges : Edges g where
  only dest _ _ n a _ := Lrt.heel dest a n
  first _ d v j b :=
    if j ≠ 0 then do
      Lrt.heel d (← shl b v) (← sub g.mwordSize j)
    else storeWord d b
  firstInPhase _ d v j b := do
    Lrt.heel d (← shl b v) (← sub g.mwordSize j)
  last d n _ b := Lrt.head (d + g.mwordSize) b n

/-- `lssc_lrt` -/
def lsscLrt (dest src : ℤ) (n : ℕ) : Code g Unit := Reverse.copy (lsscLrt.edges g) dest src n

end Lssc
