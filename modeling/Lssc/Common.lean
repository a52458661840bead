import Lssc.Header

/-!
# What the copies have in common

`lssc_lf` and `lssc_lft` agree word for word except where they store the words at the two edges of
dest, and `lssc_lr` and `lssc_lrt` do likewise. Each of the two common texts is written once here,
line by line, with the four places where its routines differ taken from an `Edges`. A local that C
updates in place is a new binding of the same name, and an early `return` is the branch that does
not go on.

The locals that live across the loops are the fields of `Regs`. `n` is not among them because
`whileWords` counts it down.

## Main definitions

* `Edges` — how a routine stores the words it may own only in part
* `Forward.copy`, `Reverse.copy` — the common texts
-/

namespace Lssc

open WordAccess

/-- The locals of a copy that the loops and the tail use. -/
structure Regs (g : Geometry) where
  /-- The next source word. -/
  s : ℤ
  /-- The next dest word. -/
  d : ℤ
  /-- How far source words are shifted. -/
  w : ℕ
  /-- Source bits read and not yet written. -/
  b : MWord g

/-- How a routine stores the words of dest that it may own only in part. The words in between are
stored whole by every routine. -/
structure Edges (g : Geometry) where
  /-- All of dest lies in `*d`: its `n` bytes are in `a` and the margin before them in `b`. -/
  only (dest d : ℤ) (v n : ℕ) (a b : MWord g) : Code g Unit
  /-- `b` is the first word of dest, with the margin before it. -/
  first (dest d : ℤ) (v j : ℕ) (b : MWord g) : Code g Unit
  /-- The same, where src and dest have the same alignment. -/
  firstInPhase (dest d : ℤ) (v j : ℕ) (b : MWord g) : Code g Unit
  /-- The `n` bytes that are left are in `b`, and `k` is `n * CHAR_BIT`. -/
  last (d : ℤ) (n k : ℕ) (b : MWord g) : Code g Unit

variable {g : Geometry}

/-! ### Forward -/

namespace Forward

/-- `if (h - i < n) a |= *s << (t - u);` -/
def secondSlice (s : ℤ) (t u i n : ℕ) (a : MWord g) : Code g (MWord g) := do
  if (← sub g.mwordSize i) < n then do
    let x ← shl (← load .s s) (← sub t u)
    pure (a ||| x)
  else pure a

/-- `if (n < h - i) { size_t k = u + n * CHAR_BIT; a &= (MWORD_t)~(m << k); }` -/
def discard (u i n : ℕ) (a : MWord g) : Code g (MWord g) := do
  if n < (← sub g.mwordSize i) then do
    let k ← add u (← mul n 8)
    pure (a &&& ~~~(← shl (ones g) k))
  else pure a

/-- `w = v - u`, and when `v < u` the restart at the next source word. Returns `s`, `w`, `a`
and `b`. -/
def restart (s : ℤ) (t u v : ℕ) (a b : MWord g) : Code g (ℤ × ℕ × MWord g × MWord g) :=
  let w := wrapSub g v u
  if v < u then do
    let x ← shr a (← sub u v)
    let b := b ||| x
    let w := wrapAdd g w t
    let a ← load .s s
    pure (s + g.mwordSize, w, a, b)
  else pure (s, w, a, b)

/-- `a = *s++; *d++ = b | (a << w); b = a >> (t - w);` -/
def loadShiftStore (t : ℕ) (r : Regs g) : Code g (Regs g) := do
  let a ← load .s r.s
  let x ← shl a r.w
  storeWord r.d (r.b ||| x)
  let b ← shr a (← sub t r.w)
  pure { r with s := r.s + g.mwordSize, d := r.d + g.mwordSize, b := b }

/-- `*d++ = *s++` -/
def copyWord (r : Regs g) : Code g (Regs g) := do
  let a ← load .s r.s
  storeWord r.d a
  pure { r with s := r.s + g.mwordSize, d := r.d + g.mwordSize }

/-- `if (w < k) b |= (*s << w);` -/
def lastSlice (r : Regs g) (k : ℕ) : Code g (MWord g) :=
  if r.w < k then do
    let x ← shl (← load .s r.s) r.w
    pure (r.b ||| x)
  else pure r.b

/-- The end of the copy, from the loop that copies words without shifting on. -/
def finish (E : Edges g) (r : Regs g) (n : ℕ) : Code g Unit := do
  let (r, n) ← whileWords copyWord n r
  if n ≠ 0 then do
    let k ← mul n 8
    let b ← lastSlice r k
    E.last r.d n k b
  else pure ()

/-- `lssc_lf` and `lssc_lft`. -/
def copy (E : Edges g) (dest src : ℤ) (n : ℕ) : Code g Unit :=
  if dest = src ∨ n = 0 then pure ()
  else
    let h := g.mwordSize
    let i := offset g src
    let j := offset g dest
    let s := align g src
    let d := align g dest
    let m := ones g
    if i ≠ 0 ∨ j ≠ 0 then do
      let t ← mul h 8
      let u ← mul i 8
      let v ← mul j 8
      let a ← shr (← load .s s) u
      let s := s + h
      let b := (← load .d d) &&& ~~~(← shl m v)
      if n < (← sub h j) then do
        let a ← secondSlice s t u i n a
        E.only dest d v n a b
      else do
        let a ← shl a u
        let a ← discard u i n a
        if i ≠ j then do
          let (s, w, a, b) ← restart s t u v a b
          let x ← shl a w
          E.first dest d v j (b ||| x)
          let d := d + h
          let b ← shr a (← sub t w)
          let n ← sub n (← sub h j)
          let (r, n) ← whileWords (loadShiftStore t) n ⟨s, d, w, b⟩
          finish E r n
        else do
          E.firstInPhase dest d v j (b ||| a)
          let d := d + h
          let n ← sub n (← sub h j)
          finish E ⟨s, d, 0, 0⟩ n
    else finish E ⟨s, d, 0, 0⟩ n

end Forward

/-! ### Reverse -/

namespace Reverse

/-- `if (h - i < n) a |= *s >> (t - u);` -/
def secondSlice (s : ℤ) (t u i n : ℕ) (a : MWord g) : Code g (MWord g) := do
  if (← sub g.mwordSize i) < n then do
    let x ← shr (← load .s s) (← sub t u)
    pure (a ||| x)
  else pure a

/-- `if (n < h - i) { size_t k = u + n * CHAR_BIT; a &= (MWORD_t)~(m >> k); }` -/
def discard (u i n : ℕ) (a : MWord g) : Code g (MWord g) := do
  if n < (← sub g.mwordSize i) then do
    let k ← add u (← mul n 8)
    pure (a &&& ~~~(← shr (ones g) k))
  else pure a

/-- `w = v - u`, and when `v < u` the restart at the next source word. Returns `s`, `w`, `a`
and `b`. -/
def restart (s : ℤ) (t u v : ℕ) (a b : MWord g) : Code g (ℤ × ℕ × MWord g × MWord g) :=
  let w := wrapSub g v u
  if v < u then do
    let x ← shl a (← sub u v)
    let b := b ||| x
    let w := wrapAdd g w t
    let a ← load .s s
    pure (s - g.mwordSize, w, a, b)
  else pure (s, w, a, b)

/-- `a = *s--; *d-- = b | (a >> w); b = a << (t - w);` -/
def loadShiftStore (t : ℕ) (r : Regs g) : Code g (Regs g) := do
  let a ← load .s r.s
  let x ← shr a r.w
  storeWord r.d (r.b ||| x)
  let b ← shl a (← sub t r.w)
  pure { r with s := r.s - g.mwordSize, d := r.d - g.mwordSize, b := b }

/-- `*d-- = *s--` -/
def copyWord (r : Regs g) : Code g (Regs g) := do
  let a ← load .s r.s
  storeWord r.d a
  pure { r with s := r.s - g.mwordSize, d := r.d - g.mwordSize }

/-- `if (w < k) b |= (*s >> w);` -/
def lastSlice (r : Regs g) (k : ℕ) : Code g (MWord g) :=
  if r.w < k then do
    let x ← shr (← load .s r.s) r.w
    pure (r.b ||| x)
  else pure r.b

/-- The end of the copy, from the loop that copies words without shifting on. -/
def finish (E : Edges g) (r : Regs g) (n : ℕ) : Code g Unit := do
  let (r, n) ← whileWords copyWord n r
  if n ≠ 0 then do
    let k ← mul n 8
    let b ← lastSlice r k
    E.last r.d n k b
  else pure ()

/-- `~(end - 1) & (h-1)` for the address `end` of the byte after a range. -/
def endOffset (g : Geometry) (e : ℤ) : ℕ := (Int.land (~~~(e - 1)) (g.mwordSize - 1)).toNat

theorem endOffset_lt (g : Geometry) (e : ℤ) : endOffset g e < g.mwordSize :=
  offset_lt g (~~~(e - 1))

/-- `lssc_lr` and `lssc_lrt`. -/
def copy (E : Edges g) (dest src : ℤ) (n : ℕ) : Code g Unit :=
  if dest = src ∨ n = 0 then pure ()
  else
    let h := g.mwordSize
    let i := endOffset g (src + n)
    let j := endOffset g (dest + n)
    let s := align g (src + n - 1)
    let d := align g (dest + n - 1)
    let m := ones g
    if i ≠ 0 ∨ j ≠ 0 then do
      let t ← mul h 8
      let u ← mul i 8
      let v ← mul j 8
      let a ← shl (← load .s s) u
      let s := s - h
      let b := (← load .d d) &&& ~~~(← shr m v)
      if n < (← sub h j) then do
        let a ← secondSlice s t u i n a
        E.only dest d v n a b
      else do
        let a ← shr a u
        let a ← discard u i n a
        if i ≠ j then do
          let (s, w, a, b) ← restart s t u v a b
          let x ← shr a w
          E.first dest d v j (b ||| x)
          let d := d - h
          let b ← shl a (← sub t w)
          let n ← sub n (← sub h j)
          let (r, n) ← whileWords (loadShiftStore t) n ⟨s, d, w, b⟩
          finish E r n
        else do
          E.firstInPhase dest d v j (b ||| a)
          let d := d - h
          let n ← sub n (← sub h j)
          finish E ⟨s, d, 0, 0⟩ n
    else finish E ⟨s, d, 0, 0⟩ n

end Reverse

end Lssc
