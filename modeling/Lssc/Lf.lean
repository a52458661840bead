import Lssc.Common

/-!
# `lssc_lf.c`: forward, little-endian, not thread-safe

`lssc_lf`, `init_lf` and `zero_lf`. What `lssc_lf` shares with `lssc_lft` is `Forward.copy`.

These routines write whole words. At the edges of dest they read the word that is there, replace
the bytes that belong to dest and write the word back.
-/

namespace Lssc

open WordAccess

variable (g : Geometry)

/-! ### Copying -/

/-- `lssc_lf` rebuilds a word from its margins as they are in memory and stores it whole. -/
def lsscLf.edges : Edges g where
  only _ d v n a b := do
    let k ← add v (← mul n 8)
    let a ← shl a v
    let a := a &&& ~~~(← shl (ones g) k)
    let b := b ||| ((← load .d d) &&& (← shl (ones g) k))
    storeWord d (b ||| a)
  first _ d _ _ b := storeWord d b
  firstInPhase _ d _ _ b := storeWord d b
  last d _ k b := do
    let a ← load .d d
    let b := b &&& ~~~(← shl (ones g) k)
    let a := a &&& (← shl (ones g) k)
    storeWord d (b ||| a)

/-- `lssc_lf` -/
def lsscLf (dest src : ℤ) (n : ℕ) : Code g Unit := Forward.copy (lsscLf.edges g) dest src n

/-! ### Filling -/

theorem charBit_pos : 0 < 8 := by decide

variable {g} in
/-- `for (int t = CHAR_BIT; t < CHAR_BIT * MWORD_SIZE; t += t) s |= s << t;` -/
def spread (t : ℕ) (ht : 0 < t) (s : MWord g) : Code g (MWord g) :=
  if t < 8 * g.mwordSize then do
    let x ← shl s t
    spread (t + t) (by omega) (s ||| x)
  else pure s
termination_by 8 * g.mwordSize - t

/-- `(unsigned char)ch` as a word. -/
def ucharWord (ch : ℤ) : MWord g := (BitVec.ofInt 8 ch).setWidth _

variable {g} in
/-- `*d++ = x`, for the loops of the fills. -/
def storeNext (x : MWord g) (d : ℤ) : Code g ℤ := do
  storeWord d x
  pure (d + g.mwordSize)

variable {g} in
/-- The end of `init_lf`, from the loop that stores whole words on. -/
def initLf.finish (s : MWord g) (d : ℤ) (n : ℕ) : Code g Unit := do
  let (d, n) ← whileWords (storeNext s) n d
  if n ≠ 0 then do
    let k ← mul n 8
    let x := s &&& ~~~(← shl (ones g) k)
    let y := (← load .d d) &&& (← shl (ones g) k)
    storeWord d (x ||| y)
  else pure ()

/-- `init_lf` -/
def initLf (dest ch : ℤ) (n : ℕ) : Code g Unit :=
  if n = 0 then pure ()
  else do
    let h := g.mwordSize
    let j := offset g dest
    let d := align g dest
    let s ← spread 8 charBit_pos (ucharWord g ch)
    let m := ones g
    if j ≠ 0 then do
      let uv ← mul j 8
      let a ← shr s uv
      let b := (← load .d d) &&& ~~~(← shl m uv)
      if n < (← sub h j) then do
        let k ← add uv (← mul n 8)
        let a ← shl a uv
        let y := (← load .d d) &&& (← shl m k)
        let z := a &&& ~~~(← shl m k)
        storeWord d (b ||| y ||| z)
      else do
        let x ← shl a uv
        storeWord d (b ||| x)
        let n ← sub n (← sub h j)
        initLf.finish s (d + h) n
    else initLf.finish s d n

variable {g} in
/-- The end of `zero_lf`, from the loop that stores whole words on. -/
def zeroLf.finish (d : ℤ) (n : ℕ) : Code g Unit := do
  let (d, n) ← whileWords (storeNext (0 : MWord g)) n d
  if n ≠ 0 then do
    let x ← load .d d
    let y ← shl (ones g) (← mul n 8)
    storeWord d (x &&& y)
  else pure ()

/-- `zero_lf` -/
def zeroLf (dest : ℤ) (n : ℕ) : Code g Unit :=
  if n = 0 then pure ()
  else
    let h := g.mwordSize
    let j := offset g dest
    let d := align g dest
    let m := ones g
    if j ≠ 0 then do
      let uv ← mul j 8
      let b := (← load .d d) &&& ~~~(← shl m uv)
      if n < (← sub h j) then do
        let y := (← load .d d) &&& (← shl m (← add uv (← mul n 8)))
        storeWord d (b ||| y)
      else do
        storeWord d b
        let n ← sub n (← sub h j)
        zeroLf.finish (d + h) n
    else zeroLf.finish d n

end Lssc
