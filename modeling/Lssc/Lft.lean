import Lssc.Lf

/-!
# `lssc_lft.c`: forward, little-endian, thread-safe

`lssc_lft`, `init_lft` and `zero_lft`, with the two static functions `heel` and `head` that store
part of a word. What `lssc_lft` shares with `lssc_lf` is `Forward.copy`. No store of these routines
reaches outside dest: where the plain routines write an edge word back, these peel it into
naturally aligned units.

## The preprocessor

The lines of `heel` and the `HEAD` steps of `head` are the same text for the units of 1, 2, 4 and 8
bytes, and the preprocessor keeps those below `MWORD_SIZE`. In `head` it also decides where the
brace of `if ((uintptr_t)dest & (MMIN_ALIGN - 1))` closes: the steps below `MMIN_ALIGN` are inside
it and the others are not.
-/

namespace Lssc

open WordAccess

variable (g : Geometry)

namespace Lft

variable {g}

/-- `if (n & p) *(t*)dest = (t)val, dest = (t*)dest + 1, val >>= CHAR_BIT * sizeof(t);` with
`p = sizeof(t)`, a line of `heel`. -/
def heelUnit (p n : ℕ) (dest : ℤ) (val : MWord g) : Code g (ℤ × MWord g) :=
  if p < g.mwordSize ∧ n &&& p ≠ 0 then do
    storeLow p dest val
    let val ← shr val (8 * p)
    pure (dest + p, val)
  else pure (dest, val)

/-- `heel`: the low `n` bytes of `val`, widest unit first. -/
def heel (dest : ℤ) (val : MWord g) (n : ℕ) : Code g Unit := do
  let (dest, val) ← heelUnit 8 n dest val
  let (dest, val) ← heelUnit 4 n dest val
  let (dest, val) ← heelUnit 2 n dest val
  if 1 < g.mwordSize ∧ n &&& 1 ≠ 0 then storeLow 1 dest val else pure ()

/-- `HEAD(t)` with `p = sizeof(t)`, followed by `next`. -/
def HEAD (p : ℕ) (next : ℤ → MWord g → ℕ → Code g Unit) (dest : ℤ) (val : MWord g) (n : ℕ) :
    Code g Unit :=
  if Int.land dest p ≠ 0 then
    if n < p then heel dest val n
    else do
      storeLow p dest val
      let n ← sub n p
      if n = 0 then pure ()
      else do
        let val ← shr val (8 * p)
        next (dest + p) val n
  else next dest val n

/-- `HEAD(t)` where the preprocessor keeps it and, for a unit below `MMIN_ALIGN`, the brace around
it is entered. -/
def step (inside : Bool) (p : ℕ) (next : ℤ → MWord g → ℕ → Code g Unit) :
    ℤ → MWord g → ℕ → Code g Unit :=
  if p < g.mwordSize ∧ (g.mminAlign ≤ p ∨ inside) then HEAD p next else next

/-- `head`: the low `n` bytes of `val`, narrowest unit first. -/
def head (dest : ℤ) (val : MWord g) (n : ℕ) : Code g Unit :=
  let inside := Int.land dest (g.mminAlign - 1) ≠ 0
  step inside 1 (step inside 2 (step inside 4 (step inside 8 heel))) dest val n

end Lft

/-! ### Copying -/

/-- `lssc_lft` stores the bytes of dest alone. -/
def lsscLft.edges : Edges g where
  only dest _ _ n a _ := Lft.head dest a n
  first dest d v j b :=
    if j ≠ 0 then do
      Lft.head dest (← shr b v) (← sub g.mwordSize j)
    else storeWord d b
  firstInPhase dest _ v j b := do
    Lft.head dest (← shr b v) (← sub g.mwordSize j)
  last d n _ b := Lft.heel d b n

/-- `lssc_lft` -/
def lsscLft (dest src : ℤ) (n : ℕ) : Code g Unit := Forward.copy (lsscLft.edges g) dest src n

/-! ### Filling -/

variable {g} in
/-- The end of `init_lft`, from the loop that stores whole words on. -/
def initLft.finish (s : MWord g) (d : ℤ) (n : ℕ) : Code g Unit := do
  let (d, n) ← whileWords (storeNext s) n d
  if n ≠ 0 then Lft.heel d s n else pure ()

/-- `init_lft` -/
def initLft (dest ch : ℤ) (n : ℕ) : Code g Unit :=
  if n = 0 then pure ()
  else do
    let h := g.mwordSize
    let j := offset g dest
    let d := align g dest
    let s ← spread 8 charBit_pos (ucharWord g ch)
    if j ≠ 0 then do
      if n < (← sub h j) then do
        Lft.head dest (← shr s (← mul j 8)) n
      else do
        Lft.head dest (← shr s (← mul j 8)) (← sub h j)
        let n ← sub n (← sub h j)
        initLft.finish s (d + h) n
    else initLft.finish s d n

variable {g} in
/-- The end of `zero_lft`, from the loop that stores whole words on. -/
def zeroLft.finish (d : ℤ) (n : ℕ) : Code g Unit := do
  let (d, n) ← whileWords (storeNext (0 : MWord g)) n d
  if n ≠ 0 then Lft.heel d 0 n else pure ()

/-- `zero_lft` -/
def zeroLft (dest : ℤ) (n : ℕ) : Code g Unit :=
  if n = 0 then pure ()
  else
    let h := g.mwordSize
    let j := offset g dest
    let d := align g dest
    if j ≠ 0 then do
      if n < (← sub h j) then Lft.head dest 0 n
      else do
        Lft.head dest 0 (← sub h j)
        let n ← sub n (← sub h j)
        zeroLft.finish (d + h) n
    else zeroLft.finish d n

end Lssc
