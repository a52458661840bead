import Lssc.Lf
import Lssc.Lr

/-!
# Both directions at once

The reverse copies are the forward ones with left and right shifts exchanged and with the pointers
going down. `Common` has the two texts as the files have them, line by line. Here is one text with
the direction as an argument, and the theorems that say that it is both. What does not depend on
where bytes end up, such as which shift counts occur, can be said of this one.

## Main definitions

* `Direction`, with the shifts `drop` and `push` and the pointer update `step`
* `Direction.copy` — the text of the copies in either direction

## Main results

* `Forward.copy_eq_direction`, `Reverse.copy_eq_direction`
-/

namespace Lssc

open WordAccess

variable {g : Geometry}

/-- Which way a copy goes. -/
inductive Direction : Type
  | forward
  | reverse
  deriving DecidableEq, Repr

namespace Direction

/-- The shift that drops the bytes a copy comes to first. -/
def drop : Direction → MWord g → ℕ → Code g (MWord g)
  | forward => shr
  | reverse => shl

/-- The shift that makes room before them. -/
def push : Direction → MWord g → ℕ → Code g (MWord g)
  | forward => shl
  | reverse => shr

/-- From a word to the next one. -/
def step (g : Geometry) : Direction → ℤ
  | forward => g.mwordSize
  | reverse => -g.mwordSize

/-! The pieces of the text, under the names they have in `Forward` and in `Reverse`. -/

section Text

variable (D : Direction)

def secondSlice (s : ℤ) (t u i n : ℕ) (a : MWord g) : Code g (MWord g) := do
  if (← sub g.mwordSize i) < n then do
    let x ← D.push (← load .s s) (← sub t u)
    pure (a ||| x)
  else pure a

def discard (u i n : ℕ) (a : MWord g) : Code g (MWord g) := do
  if n < (← sub g.mwordSize i) then do
    let k ← add u (← mul n 8)
    pure (a &&& ~~~(← D.push (ones g) k))
  else pure a

def restart (s : ℤ) (t u v : ℕ) (a b : MWord g) : Code g (ℤ × ℕ × MWord g × MWord g) :=
  let w := wrapSub g v u
  if v < u then do
    let x ← D.drop a (← sub u v)
    let b := b ||| x
    let w := wrapAdd g w t
    let a ← load .s s
    pure (s + D.step g, w, a, b)
  else pure (s, w, a, b)

def loadShiftStore (t : ℕ) (r : Regs g) : Code g (Regs g) := do
  let a ← load .s r.s
  let x ← D.push a r.w
  storeWord r.d (r.b ||| x)
  let b ← D.drop a (← sub t r.w)
  pure { r with s := r.s + D.step g, d := r.d + D.step g, b := b }

def copyWord (r : Regs g) : Code g (Regs g) := do
  let a ← load .s r.s
  storeWord r.d a
  pure { r with s := r.s + D.step g, d := r.d + D.step g }

def lastSlice (r : Regs g) (k : ℕ) : Code g (MWord g) :=
  if r.w < k then do
    let x ← D.push (← load .s r.s) r.w
    pure (r.b ||| x)
  else pure r.b

def finish (E : Edges g) (r : Regs g) (n : ℕ) : Code g Unit := do
  let (r, n) ← whileWords D.copyWord n r
  if n ≠ 0 then do
    let k ← mul n 8
    let b ← D.lastSlice r k
    E.last r.d n k b
  else pure ()

/-- The text of the copies, from where the offsets `i` and `j` and the first words `s` and `d` are
known. -/
def copy (E : Edges g) (dest s d : ℤ) (i j n : ℕ) : Code g Unit :=
  let h := g.mwordSize
  let m := ones g
  if i ≠ 0 ∨ j ≠ 0 then do
    let t ← mul h 8
    let u ← mul i 8
    let v ← mul j 8
    let a ← D.drop (← load .s s) u
    let s := s + D.step g
    let b := (← load .d d) &&& ~~~(← D.push m v)
    if n < (← sub h j) then do
      let a ← D.secondSlice s t u i n a
      E.only dest d v n a b
    else do
      let a ← D.push a u
      let a ← D.discard u i n a
      if i ≠ j then do
        let (s, w, a, b) ← D.restart s t u v a b
        let x ← D.push a w
        E.first dest d v j (b ||| x)
        let d := d + D.step g
        let b ← D.drop a (← sub t w)
        let n ← sub n (← sub h j)
        let (r, n) ← whileWords (D.loadShiftStore t) n ⟨s, d, w, b⟩
        D.finish E r n
      else do
        E.firstInPhase dest d v j (b ||| a)
        let d := d + D.step g
        let n ← sub n (← sub h j)
        D.finish E ⟨s, d, 0, 0⟩ n
  else D.finish E ⟨s, d, 0, 0⟩ n

/-- How the routines that are not thread-safe store their edges. -/
def edges : Edges g where
  only _ d v n a b := do
    let k ← add v (← mul n 8)
    let a ← D.push a v
    let a := a &&& ~~~(← D.push (ones g) k)
    let b := b ||| ((← load .d d) &&& (← D.push (ones g) k))
    storeWord d (b ||| a)
  first _ d _ _ b := storeWord d b
  firstInPhase _ d _ _ b := storeWord d b
  last d _ k b := do
    let a ← load .d d
    let b := b &&& ~~~(← D.push (ones g) k)
    let a := a &&& (← D.push (ones g) k)
    storeWord d (b ||| a)

end Text

end Direction

section Equations

variable (E : Edges g) (dest src : ℤ) (n : ℕ)

/-- **The forward text is the common one.** -/
theorem Forward.copy_eq_direction :
    Forward.copy E dest src n = if dest = src ∨ n = 0 then pure ()
      else Direction.forward.copy E dest (align g src) (align g dest) (offset g src)
        (offset g dest) n := rfl

/-- **The reverse text is the common one.** -/
theorem Reverse.copy_eq_direction :
    Reverse.copy E dest src n = if dest = src ∨ n = 0 then pure ()
      else Direction.reverse.copy E dest (align g (src + n - 1)) (align g (dest + n - 1))
        (Reverse.endOffset g (src + n)) (Reverse.endOffset g (dest + n)) n := rfl

theorem lsscLf.edges_eq_direction : lsscLf.edges g = Direction.forward.edges := rfl

theorem lsscLr.edges_eq_direction : lsscLr.edges g = Direction.reverse.edges := rfl

end Equations

end Lssc
