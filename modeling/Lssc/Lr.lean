import Lssc.Common

/-!
# `lssc_lr.c`: reverse, little-endian, not thread-safe

`lssc_lr`, which copies from the end of the buffers to their start: `i` and `j` count the bytes of a
word above the last byte of src and of dest, and every shift and every pointer update goes the
other way than in `lssc_lf`. What it shares with `lssc_lrt` is `Reverse.copy`.
-/

namespace Lssc

open WordAccess

variable (g : Geometry)

/-- `lssc_lr` rebuilds a word from its margins as they are in memory and stores it whole. -/
def lsscLr.edges : Edges g where
  only _ d v n a b := do
    let k ← add v (← mul n 8)
    let a ← shr a v
    let a := a &&& ~~~(← shr (ones g) k)
    let b := b ||| ((← load .d d) &&& (← shr (ones g) k))
    storeWord d (b ||| a)
  first _ d _ _ b := storeWord d b
  firstInPhase _ d _ _ b := storeWord d b
  last d _ k b := do
    let a ← load .d d
    let b := b &&& ~~~(← shr (ones g) k)
    let a := a &&& (← shr (ones g) k)
    storeWord d (b ||| a)

/-- `lssc_lr` -/
def lsscLr (dest src : ℤ) (n : ℕ) : Code g Unit := Reverse.copy (lsscLr.edges g) dest src n

end Lssc
