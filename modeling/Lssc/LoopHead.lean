import Lssc.Common
import Lssc.WordAccess.Paths

/-!
# The load-shift-store loop and its head

Where src and dest are aligned differently, a copy prepares a word of bits and a shift and enters
the loop `while (h <= n)`. This module takes the copies apart there. `loopHead` is the copy up to
the loop and `k` rounds of it, and returns the registers at that point. `fromLoop` is the rest.

Cutting the loop after `k` rounds is right if it makes that many, which depends on `n` alone.
Nothing has to be known of the loads.

## Main definitions

* `rounds` — the first rounds of a loop
* `Forward.prologue`, `Reverse.prologue` — the copies up to the loop
* `Forward.loopHead`, `Reverse.loopHead`, `Forward.fromLoop`, `Reverse.fromLoop`

## Main results

* `whileWords_eq_rounds` — a loop is its first rounds and the loop that is left
* `Forward.copy_eq_prologue`, `Reverse.copy_eq_prologue`
* `Forward.copy_eq_loopHead`, `Reverse.copy_eq_loopHead`
-/

namespace Lssc

open WordAccess Program

variable {g : Geometry}

/-! ### Rounds of a loop -/

section Rounds

variable {σ : Type} (body : σ → Code g σ)

/-- `body; n -= h;` -/
def oneRound (x : σ × ℕ) : Code g (σ × ℕ) := do
  let r ← body x.1
  let n ← sub x.2 g.mwordSize
  pure (r, n)

/-- The first `k` rounds of `while (h <= n) { body; n -= h; }`, without the tests. -/
def rounds : ℕ → σ × ℕ → Code g (σ × ℕ)
  | 0, x => pure x
  | k + 1, x => rounds k x >>= oneRound body

/-- Every round takes a word from `n`. -/
theorem always_rounds {k n : ℕ} (hk : k * g.mwordSize ≤ n) (r : σ) :
    (rounds body k (r, n)).Always (fun _ => True) fun x => x.2 + k * g.mwordSize = n := by
  induction k with
  | zero => simp [rounds]
  | succ k ih =>
    rw [Nat.succ_mul] at hk ⊢
    refine (ih (by omega)).bind fun x hx => ?_
    refine always_then fun r => ⟨trivial, ?_⟩
    change x.2 - g.mwordSize + (k * g.mwordSize + g.mwordSize) = n
    omega

/-- **A loop is its first rounds and the loop that is left.** -/
theorem whileWords_eq_rounds {k n : ℕ} (hk : k * g.mwordSize ≤ n) (r : σ) :
    whileWords body n r = rounds body k (r, n) >>= fun x => whileWords body x.2 x.1 := by
  induction k with
  | zero => rfl
  | succ k ih =>
    rw [Nat.succ_mul] at hk
    rw [ih (by omega), rounds, bind_assoc]
    refine bind_congr_of_always (always_rounds body (by omega) r) fun x hx => ?_
    rw [whileWords, if_pos (by omega), oneRound, bind_assoc]
    rfl

end Rounds

/-! ### Forward -/

namespace Forward

variable (E : Edges g) (dest src : ℤ) (n : ℕ)

/-- The copy up to the loop, where `h - j <= n` and `i != j`. Returns the registers and `n`. -/
def prologue : Code g (Regs g × ℕ) := do
  let h := g.mwordSize
  let i := offset g src
  let j := offset g dest
  let s := align g src
  let d := align g dest
  let m := ones g
  let t ← mul h 8
  let u ← mul i 8
  let v ← mul j 8
  let a ← shr (← load .s s) u
  let s := s + h
  let b := (← load .d d) &&& ~~~(← shl m v)
  let _ ← sub h j
  let a ← shl a u
  let a ← discard u i n a
  let (s, w, a, b) ← restart s t u v a b
  let x ← shl a w
  E.first dest d v j (b ||| x)
  let d := d + h
  let b ← shr a (← sub t w)
  let n ← sub n (← sub h j)
  pure (⟨s, d, w, b⟩, n)

/-- The copy up to the loop and `k` rounds of the loop. -/
def loopHead (k : ℕ) : Code g (Regs g × ℕ) :=
  prologue E dest src n >>= rounds (loadShiftStore (g.mwordSize * 8)) k

/-- The loop and what comes after it. -/
def fromLoop (x : Regs g × ℕ) : Code g Unit := do
  let (r, n) ← whileWords (loadShiftStore (g.mwordSize * 8)) x.2 x.1
  finish E r n

variable {E dest src n}

/-- What the prologue has taken from `n`. -/
theorem always_prologue : (prologue E dest src n).Always (fun _ => True) fun x =>
    x.2 = n - (g.mwordSize - offset g dest) := by
  rw [prologue]
  refine always_then fun t => ?_
  refine always_then fun u => ?_
  refine always_then fun v => ?_
  refine always_then fun x => ?_
  refine always_then fun a => ?_
  refine always_then fun c => ?_
  refine always_then fun y => ?_
  refine always_then fun z => ?_
  refine always_then fun a => ?_
  refine always_then fun a => ?_
  refine always_then fun r => ?_
  refine always_then fun x => ?_
  refine always_then fun _ => ?_
  refine always_then fun y => ?_
  refine always_then fun b => ?_
  exact ⟨trivial, trivial, rfl⟩

theorem copy_eq_prologue (hphase : offset g src ≠ offset g dest)
    (hn : g.mwordSize - offset g dest ≤ n) :
    copy E dest src n = prologue E dest src n >>= fromLoop E := by
  have hj := offset_lt g dest
  have hne : dest ≠ src := fun heq => hphase (heq ▸ rfl)
  rw [copy, prologue, if_neg (by omega)]
  dsimp only
  rw [if_pos (by omega)]
  have hlong : ¬n < g.mwordSize - offset g dest := by omega
  simp only [bind_assoc, mul_bind, sub_bind, shr_bind, shl_bind, load_bind, Program.load_bind,
    note_bind, hphase, hlong, ne_eq, not_false_eq_true, if_true, if_false]
  rfl

/-- **A copy is its loop head after `k` rounds and the rest**, if it makes that many. -/
theorem copy_eq_loopHead {k : ℕ} (hphase : offset g src ≠ offset g dest)
    (hk : g.mwordSize - offset g dest + k * g.mwordSize ≤ n) :
    copy E dest src n = loopHead E dest src n k >>= fromLoop E := by
  rw [copy_eq_prologue hphase (by omega), loopHead, bind_assoc]
  refine bind_congr_of_always always_prologue fun x hx => ?_
  rw [fromLoop, whileWords_eq_rounds _ (k := k) (by omega), bind_assoc]
  rfl

end Forward

/-! ### Reverse -/

namespace Reverse

variable (E : Edges g) (dest src : ℤ) (n : ℕ)

/-- The copy up to the loop, where `h - j <= n` and `i != j`. Returns the registers and `n`. -/
def prologue : Code g (Regs g × ℕ) := do
  let h := g.mwordSize
  let i := endOffset g (src + n)
  let j := endOffset g (dest + n)
  let s := align g (src + n - 1)
  let d := align g (dest + n - 1)
  let m := ones g
  let t ← mul h 8
  let u ← mul i 8
  let v ← mul j 8
  let a ← shl (← load .s s) u
  let s := s - h
  let b := (← load .d d) &&& ~~~(← shr m v)
  let _ ← sub h j
  let a ← shr a u
  let a ← discard u i n a
  let (s, w, a, b) ← restart s t u v a b
  let x ← shr a w
  E.first dest d v j (b ||| x)
  let d := d - h
  let b ← shl a (← sub t w)
  let n ← sub n (← sub h j)
  pure (⟨s, d, w, b⟩, n)

/-- The copy up to the loop and `k` rounds of the loop. -/
def loopHead (k : ℕ) : Code g (Regs g × ℕ) :=
  prologue E dest src n >>= rounds (loadShiftStore (g.mwordSize * 8)) k

/-- The loop and what comes after it. -/
def fromLoop (x : Regs g × ℕ) : Code g Unit := do
  let (r, n) ← whileWords (loadShiftStore (g.mwordSize * 8)) x.2 x.1
  finish E r n

variable {E dest src n}

/-- What the prologue has taken from `n`. -/
theorem always_prologue : (prologue E dest src n).Always (fun _ => True) fun x =>
    x.2 = n - (g.mwordSize - endOffset g (dest + n)) := by
  rw [prologue]
  refine always_then fun t => ?_
  refine always_then fun u => ?_
  refine always_then fun v => ?_
  refine always_then fun x => ?_
  refine always_then fun a => ?_
  refine always_then fun c => ?_
  refine always_then fun y => ?_
  refine always_then fun z => ?_
  refine always_then fun a => ?_
  refine always_then fun a => ?_
  refine always_then fun r => ?_
  refine always_then fun x => ?_
  refine always_then fun _ => ?_
  refine always_then fun y => ?_
  refine always_then fun b => ?_
  exact ⟨trivial, trivial, rfl⟩

theorem copy_eq_prologue (hphase : endOffset g (src + n) ≠ endOffset g (dest + n))
    (hn : g.mwordSize - endOffset g (dest + n) ≤ n) :
    copy E dest src n = prologue E dest src n >>= fromLoop E := by
  have hj := endOffset_lt g (dest + n)
  have hne : dest ≠ src := fun heq => hphase (heq ▸ rfl)
  rw [copy, prologue, if_neg (by omega)]
  dsimp only
  rw [if_pos (by omega)]
  have hlong : ¬n < g.mwordSize - endOffset g (dest + n) := by omega
  simp only [bind_assoc, mul_bind, sub_bind, shl_bind, shr_bind, load_bind, Program.load_bind,
    note_bind, hphase, hlong, ne_eq, not_false_eq_true, if_true, if_false]
  rfl

theorem copy_eq_loopHead {k : ℕ} (hphase : endOffset g (src + n) ≠ endOffset g (dest + n))
    (hk : g.mwordSize - endOffset g (dest + n) + k * g.mwordSize ≤ n) :
    copy E dest src n = loopHead E dest src n k >>= fromLoop E := by
  rw [copy_eq_prologue hphase (by omega), loopHead, bind_assoc]
  refine bind_congr_of_always always_prologue fun x hx => ?_
  rw [fromLoop, whileWords_eq_rounds _ (k := k) (by omega), bind_assoc]
  rfl

end Reverse

end Lssc
