import Lssc.Direction
import Lssc.Lrt
import Lssc.Lft
import Lssc.WordAccess.Paths

/-!
# Nothing undefined and nothing wraps

C leaves a shift by the word width or more undefined, and a `size_t` difference that is negative
wraps. The routines are full of counts such as `t - u` and `t - w`, which are right only where `u`
and `w` are not `0`, and of differences such as `n -= h - j`. None of these is tested where it is
evaluated: each is safe because of a branch that was taken earlier.

Every operation leaves a note of its operands, so the statement is about the notes on every path of
a routine. There is one lemma for each function, in the order in which they call each other. What
the callee is told of its arguments are the guards its callers have passed. Left or right makes no
difference to a shift count, so what is said of the copies is said of both directions at once.

## Main definitions

* `Arith.Harmless` — what C asks of an evaluation
* `Defined` — on every path, all evaluations are harmless
* `Edges.Defined` — the guards under which a routine stores its edges

## Main results

* `defined_whileWords` — the loops, with an invariant
* `Direction.defined_restart` — the one difference that is meant to wrap
* `Direction.defined_copy`
* `arithmetic_harmless` — the four copies
* `fills_harmless` — the four fills
-/

namespace Lssc

open WordAccess Program

/-- The largest `int`, of 32 bits. -/
def intMax : ℕ := 2 ^ 31 - 1

/-- What C asks of an evaluation: a shift is by less than the word width, a `size_t` result is not
negative and not too large. Words of less than four bytes are promoted to `int`, and then a left
shift must not exceed that. -/
def Arith.Harmless (g : Geometry) : Arith → Prop
  | .shl x c => c < g.mwordSize * 8 ∧ (g.mwordSize < 4 → x * 2 ^ c ≤ intMax)
  | .shr _ c => c < g.mwordSize * 8
  | .sub x y => y ≤ x
  | .mul x y => x * y < 2 ^ g.sizeBits
  | .add x y => x + y < 2 ^ g.sizeBits

variable {g : Geometry} {α β : Type}

/-- On every path, all evaluations are harmless and the result satisfies `Q`. -/
abbrev Defined (Q : α → Prop) (p : Code g α) : Prop := p.Always (Arith.Harmless g) Q

/-! ### Operations -/

section Operations

variable {Q : α → Prop}

/-- A promoted word has sixteen bits at most, so there is room for a shift by fifteen. -/
theorem harmless_shl (x : MWord g) {c : ℕ} (hc : c < g.mwordSize * 8) :
    (Arith.shl x.toNat c).Harmless g := by
  refine ⟨hc, fun hsmall => ?_⟩
  have hx := x.isLt
  have hbits : 2 ^ (g.mwordSize * 8) ≤ 2 ^ 16 := by
    obtain ⟨e, -, he⟩ := g.exists_mwordSize_eq
    have he2 : e < 2 := by
      rw [he, show 4 = 2 ^ 2 by rfl] at hsmall
      exact (Nat.pow_lt_pow_iff_right (by norm_num)).mp hsmall
    refine Nat.pow_le_pow_right (by norm_num) ?_
    have := Nat.pow_le_pow_right (show 0 < 2 by norm_num) (Nat.le_of_lt_succ he2)
    omega
  have hshift : 2 ^ c ≤ 2 ^ 15 := by
    refine Nat.pow_le_pow_right (by norm_num) ?_
    have := (Nat.pow_le_pow_iff_right (show 1 < 2 by norm_num)).mp hbits
    omega
  calc x.toNat * 2 ^ c ≤ (2 ^ 16 - 1) * 2 ^ 15 := Nat.mul_le_mul (by omega) hshift
    _ ≤ intMax := by decide

theorem harmless_mul {x y : ℕ} (hxy : x * y ≤ g.mwordSize * 8) : (Arith.mul x y).Harmless g := by
  have := g.mwordSize_le
  have := two_pow_sizeBits_ge g
  change x * y < 2 ^ g.sizeBits
  omega

theorem harmless_add {x y : ℕ} (hxy : x + y ≤ g.mwordSize * 8) : (Arith.add x y).Harmless g := by
  have := g.mwordSize_le
  have := two_pow_sizeBits_ge g
  change x + y < 2 ^ g.sizeBits
  omega

theorem defined_pure {x : α} (hx : Q x) : Defined Q (pure x : Code g α) := hx

theorem defined_load {p : Ptr} {a : ℤ} {f : MWord g → Code g α} (hf : ∀ x, Defined Q (f x)) :
    Defined Q (load p a >>= f) := hf

theorem defined_storeWord {a : ℤ} {x : MWord g} {f : Unit → Code g α} (hf : Defined Q (f ())) :
    Defined Q (storeWord a x >>= f) := hf

theorem defined_storeLow {p : ℕ} {a : ℤ} {x : MWord g} {f : Unit → Code g α}
    (hf : Defined Q (f ())) : Defined Q (storeLow p a x >>= f) := hf

theorem defined_shl {x : MWord g} {c : ℕ} {f : MWord g → Code g α} (hc : c < g.mwordSize * 8)
    (hf : ∀ x, Defined Q (f x)) : Defined Q (shl x c >>= f) := ⟨harmless_shl x hc, hf _⟩

theorem defined_shr {x : MWord g} {c : ℕ} {f : MWord g → Code g α} (hc : c < g.mwordSize * 8)
    (hf : ∀ x, Defined Q (f x)) : Defined Q (shr x c >>= f) := ⟨hc, hf _⟩

theorem defined_sub {x y : ℕ} {f : ℕ → Code g α} (hxy : y ≤ x) (hf : Defined Q (f (x - y))) :
    Defined Q (sub x y >>= f) := ⟨hxy, hf⟩

theorem defined_mul {x y : ℕ} {f : ℕ → Code g α} (hxy : x * y ≤ g.mwordSize * 8)
    (hf : Defined Q (f (x * y))) : Defined Q (mul x y >>= f) := ⟨harmless_mul hxy, hf⟩

theorem defined_add {x y : ℕ} {f : ℕ → Code g α} (hxy : x + y ≤ g.mwordSize * 8)
    (hf : Defined Q (f (x + y))) : Defined Q (add x y >>= f) := ⟨harmless_add hxy, hf⟩

/-- The loop subtracts only what its condition has compared. -/
theorem defined_whileWords {I : α → Prop} {body : α → Code g α}
    (hbody : ∀ r, I r → Defined I (body r)) {n : ℕ} {r : α} (hr : I r) :
    Defined (fun x => I x.1 ∧ x.2 < g.mwordSize) (whileWords body n r) := by
  induction n using Nat.strong_induction_on generalizing r with
  | h n ih =>
    rw [whileWords]
    split
    · have hpos := g.mwordSize_pos
      refine (hbody r hr).bind fun r hr => ?_
      exact defined_sub ‹_› (ih _ (by omega) hr)
    · exact ⟨hr, by omega⟩

end Operations

/-! ### What is asked of the edges -/

/-- `E` is defined under the guards that a copy has passed when it stores an edge. -/
structure Edges.Defined (E : Edges g) : Prop where
  only : ∀ (dest d : ℤ) {j n : ℕ} (a b : MWord g), j + n < g.mwordSize →
    Lssc.Defined (fun _ => True) (E.only dest d (j * 8) n a b)
  first : ∀ (dest d : ℤ) {j : ℕ} (b : MWord g), j < g.mwordSize →
    Lssc.Defined (fun _ => True) (E.first dest d (j * 8) j b)
  firstInPhase : ∀ (dest d : ℤ) {j : ℕ} (b : MWord g), j < g.mwordSize →
    Lssc.Defined (fun _ => True) (E.firstInPhase dest d (j * 8) j b)
  last : ∀ (d : ℤ) {n : ℕ} (b : MWord g), n < g.mwordSize →
    Lssc.Defined (fun _ => True) (E.last d n (n * 8) b)

section Copies

variable {E : Edges g} {s : ℤ} {i j n : ℕ} {a b : MWord g} {r : Regs g}

namespace Direction

variable (D : Direction)

section Shifts

variable {Q : α → Prop} {x : MWord g} {c : ℕ} {f : MWord g → Code g α}

theorem defined_drop (hc : c < g.mwordSize * 8) (hf : ∀ x, Defined Q (f x)) :
    Defined Q (D.drop x c >>= f) := by
  cases D with
  | forward => exact defined_shr hc hf
  | reverse => exact defined_shl hc hf

theorem defined_push (hc : c < g.mwordSize * 8) (hf : ∀ x, Defined Q (f x)) :
    Defined Q (D.push x c >>= f) := by
  cases D with
  | forward => exact defined_shl hc hf
  | reverse => exact defined_shr hc hf

end Shifts

/-- `t - u` is a shift count only where src is in two words, and then `u` is not `0`. -/
theorem defined_secondSlice (hi : i < g.mwordSize) (hn : n < g.mwordSize) :
    Defined (fun _ => True) (D.secondSlice s (g.mwordSize * 8) (i * 8) i n a) := by
  refine defined_sub hi.le ?_
  split
  · refine defined_load fun x => ?_
    refine defined_sub (by omega) ?_
    refine D.defined_push (by omega) fun x => ?_
    trivial
  · trivial

theorem defined_discard (hi : i < g.mwordSize) :
    Defined (fun _ => True) (D.discard (i * 8) i n a) := by
  refine defined_sub hi.le ?_
  split
  · refine defined_mul (by omega) ?_
    refine defined_add (by omega) ?_
    refine D.defined_push (by omega) fun x => ?_
    trivial
  · trivial

/-- **The deliberate wrap**: whether `w` has wrapped and is wrapped back or not, it is a shift count
that leaves something of a word and takes something away. -/
theorem defined_restart (hi : i < g.mwordSize) (hj : j < g.mwordSize) (hij : i ≠ j) :
    Defined (fun x => 0 < x.2.1 ∧ x.2.1 < g.mwordSize * 8)
      (D.restart s (g.mwordSize * 8) (i * 8) (j * 8) a b) := by
  rw [restart]
  split
  · refine defined_sub (by omega) ?_
    refine D.defined_drop (by omega) fun x => ?_
    refine defined_load fun y => ?_
    refine defined_pure ?_
    dsimp only
    rw [wrapAdd_wrapSub (by omega) (by omega) le_rfl]
    omega
  · refine defined_pure ?_
    dsimp only
    rw [wrapSub_of_le (by omega) (by omega)]
    omega

theorem defined_loadShiftStore (hw : 0 < r.w ∧ r.w < g.mwordSize * 8) :
    Defined (fun r => 0 < r.w ∧ r.w < g.mwordSize * 8)
      (D.loadShiftStore (g.mwordSize * 8) r) := by
  refine defined_load fun x => ?_
  refine D.defined_push hw.2 fun y => ?_
  refine defined_storeWord ?_
  refine defined_sub hw.2.le ?_
  refine D.defined_drop (by omega) fun b => ?_
  exact hw

theorem defined_copyWord : Defined (fun _ => True) (D.copyWord r) := by
  refine defined_load fun x => ?_
  exact defined_storeWord trivial

/-- `w` is a shift count only where it is below `k`. -/
theorem defined_lastSlice (hn : n < g.mwordSize) :
    Defined (fun _ => True) (D.lastSlice r (n * 8)) := by
  rw [lastSlice]
  split
  · refine defined_load fun x => ?_
    refine D.defined_push (by omega) fun y => ?_
    trivial
  · trivial

theorem defined_finish (hE : E.Defined) : Defined (fun _ => True) (D.finish E r n) := by
  refine (defined_whileWords (fun r _ => D.defined_copyWord) trivial).bind ?_
  rintro ⟨r, n⟩ ⟨-, hn⟩
  dsimp only at hn ⊢
  split
  · refine defined_mul (by omega) ?_
    refine (D.defined_lastSlice hn).bind fun b _ => ?_
    exact hE.last r.d b hn
  · trivial

theorem defined_copy (hE : E.Defined) (hi : i < g.mwordSize) (hj : j < g.mwordSize)
    (dest s d : ℤ) (n : ℕ) : Defined (fun _ => True) (D.copy E dest s d i j n) := by
  rw [copy]
  dsimp only
  split
  swap
  · exact D.defined_finish hE
  refine defined_mul (by omega) ?_
  refine defined_mul (by omega) ?_
  refine defined_mul (by omega) ?_
  refine defined_load fun x => ?_
  refine D.defined_drop (by omega) fun a => ?_
  refine defined_load fun c => ?_
  refine D.defined_push (by omega) fun y => ?_
  refine defined_sub hj.le ?_
  split
  · refine (D.defined_secondSlice hi (by omega)).bind fun a _ => ?_
    exact hE.only dest _ a _ (by omega)
  refine D.defined_push (by omega) fun a => ?_
  refine (D.defined_discard hi).bind fun a _ => ?_
  split
  · refine (D.defined_restart hi hj ‹_›).bind ?_
    rintro ⟨s, w, a, b⟩ hw
    dsimp only at hw ⊢
    refine D.defined_push hw.2 fun y => ?_
    refine (hE.first dest _ _ hj).bind fun _ _ => ?_
    refine defined_sub hw.2.le ?_
    refine D.defined_drop (by omega) fun b => ?_
    refine defined_sub hj.le ?_
    refine defined_sub (by omega) ?_
    refine (defined_whileWords (fun r => D.defined_loadShiftStore) hw).bind fun x _ => ?_
    exact D.defined_finish hE
  · refine (hE.firstInPhase dest _ _ hj).bind fun _ _ => ?_
    refine defined_sub hj.le ?_
    refine defined_sub (by omega) ?_
    exact D.defined_finish hE

theorem edges_defined : (D.edges (g := g)).Defined where
  only dest d j n a b hend := by
    refine defined_mul (by omega) ?_
    refine defined_add (by omega) ?_
    refine D.defined_push (by omega) fun a => ?_
    refine D.defined_push (by omega) fun x => ?_
    refine defined_load fun c => ?_
    refine D.defined_push (by omega) fun y => ?_
    exact defined_storeWord (f := pure) trivial
  first dest d j b hj := defined_storeWord (f := pure) trivial
  firstInPhase dest d j b hj := defined_storeWord (f := pure) trivial
  last d n b hn := by
    refine defined_load fun a => ?_
    refine D.defined_push (by omega) fun x => ?_
    refine D.defined_push (by omega) fun y => ?_
    exact defined_storeWord (f := pure) trivial

end Direction

theorem Forward.defined_copy (hE : E.Defined) (dest src : ℤ) (n : ℕ) :
    Defined (fun _ => True) (Forward.copy E dest src n) := by
  rw [Forward.copy_eq_direction]
  split
  · trivial
  · exact Direction.forward.defined_copy hE (offset_lt g src) (offset_lt g dest) dest _ _ n

theorem Reverse.defined_copy (hE : E.Defined) (dest src : ℤ) (n : ℕ) :
    Defined (fun _ => True) (Reverse.copy E dest src n) := by
  rw [Reverse.copy_eq_direction]
  split
  · trivial
  · exact Direction.reverse.defined_copy hE (Reverse.endOffset_lt g _) (Reverse.endOffset_lt g _)
      dest _ _ n

end Copies

/-! ### Sub-word stores

The units the preprocessor keeps are below the word size, so the constant counts are too. -/

section Units

variable {dest e : ℤ} {val : MWord g} {n p : ℕ} {next : ℤ → MWord g → ℕ → Code g Unit}

theorem Lft.defined_heelUnit : Defined (fun _ => True) (Lft.heelUnit p n dest val) := by
  rw [Lft.heelUnit]
  split
  · refine defined_storeLow ?_
    refine defined_shr (by omega) fun val => ?_
    trivial
  · trivial

theorem Lft.defined_heel : Defined (fun _ => True) (Lft.heel dest val n) := by
  refine Lft.defined_heelUnit.bind fun x _ => ?_
  refine Lft.defined_heelUnit.bind fun y _ => ?_
  refine Lft.defined_heelUnit.bind fun z _ => ?_
  dsimp only
  split
  · exact defined_storeLow trivial
  · trivial

/-- `n -= sizeof(t)` comes after `n < sizeof(t)` has been dealt with. -/
theorem Lft.defined_step {inside : Bool}
    (hnext : ∀ dest val n, Defined (fun _ => True) (next dest val n)) :
    Defined (fun _ => True) (Lft.step inside p next dest val n) := by
  rw [Lft.step]
  split
  swap
  · exact hnext dest val n
  rw [Lft.HEAD]
  split
  · split
    · exact Lft.defined_heel
    refine defined_storeLow ?_
    refine defined_sub (by omega) ?_
    split
    · trivial
    refine defined_shr (by omega) fun val => ?_
    exact hnext _ val _
  · exact hnext dest val n

theorem Lft.defined_head : Defined (fun _ => True) (Lft.head dest val n) := by
  refine Lft.defined_step fun dest val n => ?_
  refine Lft.defined_step fun dest val n => ?_
  refine Lft.defined_step fun dest val n => ?_
  refine Lft.defined_step fun dest val n => ?_
  exact Lft.defined_heel

theorem Lrt.defined_headUnit (hp : 0 < p) :
    Defined (fun _ => True) (Lrt.headUnit p n e val) := by
  rw [Lrt.headUnit]
  split
  · refine defined_shr (by omega) fun x => ?_
    refine defined_storeLow ?_
    refine defined_shl (by omega) fun val => ?_
    trivial
  · trivial

theorem Lrt.defined_head : Defined (fun _ => True) (Lrt.head e val n) := by
  refine (Lrt.defined_headUnit (by decide)).bind fun x _ => ?_
  refine (Lrt.defined_headUnit (by decide)).bind fun y _ => ?_
  refine (Lrt.defined_headUnit (by decide)).bind fun z _ => ?_
  dsimp only
  split
  · refine defined_shr (by omega) fun x => ?_
    exact defined_storeLow trivial
  · trivial

theorem Lrt.defined_step {inside : Bool} (hp : 0 < p)
    (hnext : ∀ e val n, Defined (fun _ => True) (next e val n)) :
    Defined (fun _ => True) (Lrt.step inside p next e val n) := by
  rw [Lrt.step]
  split
  swap
  · exact hnext e val n
  rw [Lrt.HEEL]
  split
  · split
    · exact Lrt.defined_head
    refine defined_shr (by omega) fun x => ?_
    refine defined_storeLow ?_
    refine defined_sub (by omega) ?_
    split
    · trivial
    refine defined_shl (by omega) fun val => ?_
    exact hnext _ val _
  · exact hnext e val n

theorem Lrt.defined_heel : Defined (fun _ => True) (Lrt.heel dest val n) := by
  refine Lrt.defined_step (by decide) fun e val n => ?_
  refine Lrt.defined_step (by decide) fun e val n => ?_
  refine Lrt.defined_step (by decide) fun e val n => ?_
  refine Lrt.defined_step (by decide) fun e val n => ?_
  exact Lrt.defined_head

end Units

/-! ### The edges of each routine -/

theorem lsscLf.edges_defined : (lsscLf.edges g).Defined := by
  rw [lsscLf.edges_eq_direction]
  exact Direction.forward.edges_defined

theorem lsscLr.edges_defined : (lsscLr.edges g).Defined := by
  rw [lsscLr.edges_eq_direction]
  exact Direction.reverse.edges_defined

theorem lsscLft.edges_defined : (lsscLft.edges g).Defined where
  only dest d j n a b hend := Lft.defined_head
  first dest d j b hj := by
    simp only [lsscLft.edges]
    split
    · refine defined_shr (by omega) fun x => ?_
      exact defined_sub hj.le Lft.defined_head
    · trivial
  firstInPhase dest d j b hj := by
    refine defined_shr (by omega) fun x => ?_
    exact defined_sub hj.le Lft.defined_head
  last d n b hn := Lft.defined_heel

theorem lsscLrt.edges_defined : (lsscLrt.edges g).Defined where
  only dest d j n a b hend := Lrt.defined_heel
  first dest d j b hj := by
    simp only [lsscLrt.edges]
    split
    · refine defined_shl (by omega) fun x => ?_
      exact defined_sub hj.le Lrt.defined_heel
    · trivial
  firstInPhase dest d j b hj := by
    refine defined_shl (by omega) fun x => ?_
    exact defined_sub hj.le Lrt.defined_heel
  last d n b hn := Lrt.defined_head

/-! ### The fills -/

section Fills

variable {dest d : ℤ} {n : ℕ} {x : MWord g}

theorem defined_spread {t : ℕ} (ht : 0 < t) : Defined (fun _ => True) (spread t ht x) := by
  induction t, ht, x using spread.induct with
  | case1 t ht x hlt ih =>
    rw [spread, if_pos hlt]
    exact defined_shl (by omega) ih
  | case2 t ht x hge =>
    rw [spread, if_neg hge]
    trivial

theorem defined_storeNext : Defined (fun _ => True) (storeNext x d) := defined_storeWord trivial

/-- The loop of a fill and a tail that is defined for what the loop leaves. -/
theorem defined_storeNext_then {last : ℤ × ℕ → Code g Unit}
    (hlast : ∀ y : ℤ × ℕ, y.2 < g.mwordSize → Defined (fun _ => True) (last y)) :
    Defined (fun _ => True) (whileWords (storeNext x) n d >>= last) :=
  (defined_whileWords (fun _ _ => defined_storeNext) trivial).bind fun y hy => hlast y hy.2

theorem defined_initLf_finish : Defined (fun _ => True) (initLf.finish x d n) := by
  refine defined_storeNext_then fun y hn => ?_
  dsimp only
  split
  · refine defined_mul (by omega) ?_
    refine defined_shl (by omega) fun z => ?_
    refine defined_load fun c => ?_
    refine defined_shl (by omega) fun z => ?_
    exact defined_storeWord (f := pure) trivial
  · trivial

theorem defined_zeroLf_finish : Defined (fun _ => True) (zeroLf.finish d n : Code g Unit) := by
  refine defined_storeNext_then fun y hn => ?_
  dsimp only
  split
  · refine defined_load fun c => ?_
    refine defined_mul (by omega) ?_
    refine defined_shl (by omega) fun z => ?_
    exact defined_storeWord (f := pure) trivial
  · trivial

theorem defined_initLft_finish : Defined (fun _ => True) (initLft.finish x d n) := by
  refine defined_storeNext_then fun y _ => ?_
  dsimp only
  split
  · exact Lft.defined_heel
  · trivial

theorem defined_zeroLft_finish : Defined (fun _ => True) (zeroLft.finish d n : Code g Unit) :=
  defined_initLft_finish

theorem defined_initLf (dest ch : ℤ) (n : ℕ) : Defined (fun _ => True) (initLf g dest ch n) := by
  have hj := offset_lt g dest
  rw [initLf]
  split
  · trivial
  refine (defined_spread _).bind fun s _ => ?_
  dsimp only
  split
  swap
  · exact defined_initLf_finish
  refine defined_mul (by omega) ?_
  refine defined_shr (by omega) fun a => ?_
  refine defined_load fun c => ?_
  refine defined_shl (by omega) fun y => ?_
  refine defined_sub hj.le ?_
  split
  · refine defined_mul (by omega) ?_
    refine defined_add (by omega) ?_
    refine defined_shl (by omega) fun a => ?_
    refine defined_load fun c => ?_
    refine defined_shl (by omega) fun y => ?_
    refine defined_shl (by omega) fun z => ?_
    exact defined_storeWord (f := pure) trivial
  · refine defined_shl (by omega) fun y => ?_
    refine defined_storeWord ?_
    refine defined_sub hj.le ?_
    refine defined_sub (by omega) ?_
    exact defined_initLf_finish

theorem defined_zeroLf (dest : ℤ) (n : ℕ) : Defined (fun _ => True) (zeroLf g dest n) := by
  have hj := offset_lt g dest
  rw [zeroLf]
  split
  · trivial
  dsimp only
  split
  swap
  · exact defined_zeroLf_finish
  refine defined_mul (by omega) ?_
  refine defined_load fun c => ?_
  refine defined_shl (by omega) fun y => ?_
  refine defined_sub hj.le ?_
  split
  · refine defined_load fun c => ?_
    refine defined_mul (by omega) ?_
    refine defined_add (by omega) ?_
    refine defined_shl (by omega) fun y => ?_
    exact defined_storeWord (f := pure) trivial
  · refine defined_storeWord ?_
    refine defined_sub hj.le ?_
    refine defined_sub (by omega) ?_
    exact defined_zeroLf_finish

theorem defined_initLft (dest ch : ℤ) (n : ℕ) : Defined (fun _ => True) (initLft g dest ch n) := by
  have hj := offset_lt g dest
  rw [initLft]
  split
  · trivial
  refine (defined_spread _).bind fun s _ => ?_
  split
  swap
  · exact defined_initLft_finish
  refine defined_sub hj.le ?_
  split
  · refine defined_mul (by omega) ?_
    exact defined_shr (by omega) fun a => Lft.defined_head
  · refine defined_mul (by omega) ?_
    refine defined_shr (by omega) fun a => ?_
    refine defined_sub hj.le ?_
    refine Lft.defined_head.bind fun _ _ => ?_
    refine defined_sub hj.le ?_
    refine defined_sub (by omega) ?_
    exact defined_initLft_finish

theorem defined_zeroLft (dest : ℤ) (n : ℕ) : Defined (fun _ => True) (zeroLft g dest n) := by
  have hj := offset_lt g dest
  rw [zeroLft]
  split
  · trivial
  dsimp only
  split
  swap
  · exact defined_zeroLft_finish
  refine defined_sub hj.le ?_
  split
  · exact Lft.defined_head
  · refine defined_sub hj.le ?_
    refine Lft.defined_head.bind fun _ _ => ?_
    refine defined_sub hj.le ?_
    refine defined_sub (by omega) ?_
    exact defined_zeroLft_finish

/-- **The fills are defined as well**, on any path. -/
theorem fills_harmless (g : Geometry) (dest ch : ℤ) (n : ℕ) {σ : Type}
    (E : Environment g.mwordSize σ) (t : σ) :
    ((∀ e ∈ (initLf g dest ch n).notes E t, e.Harmless g) ∧
      ∀ e ∈ (initLft g dest ch n).notes E t, e.Harmless g) ∧
    (∀ e ∈ (zeroLf g dest n).notes E t, e.Harmless g) ∧
      ∀ e ∈ (zeroLft g dest n).notes E t, e.Harmless g := by
  refine ⟨⟨?_, ?_⟩, ?_, ?_⟩
  · intro e he
    exact (defined_initLf dest ch n).of_mem_notes E t he
  · intro e he
    exact (defined_initLft dest ch n).of_mem_notes E t he
  · intro e he
    exact (defined_zeroLf dest n).of_mem_notes E t he
  · intro e he
    exact (defined_zeroLft dest n).of_mem_notes E t he

end Fills

/-! ### The copies -/

/-- **No undefined shift and no unintended wrap**, on any path of any copy. The one difference that
is meant to wrap is `w = v - u`, and what comes of it is a shift count above `0` and below the
word width. -/
theorem arithmetic_harmless (g : Geometry) (dest src : ℤ) (n : ℕ) {σ : Type}
    (E : Environment g.mwordSize σ) (t : σ) :
    ((∀ e ∈ (lsscLf g dest src n).notes E t, e.Harmless g) ∧
      (∀ e ∈ (lsscLr g dest src n).notes E t, e.Harmless g) ∧
      (∀ e ∈ (lsscLft g dest src n).notes E t, e.Harmless g) ∧
      ∀ e ∈ (lsscLrt g dest src n).notes E t, e.Harmless g) ∧
    (offset g src ≠ offset g dest → ∀ (s : ℤ) (a b : MWord g),
      let x := (Forward.restart s (g.mwordSize * 8) (offset g src * 8) (offset g dest * 8) a
        b).result E t
      0 < x.2.1 ∧ x.2.1 < g.mwordSize * 8) ∧
    (Reverse.endOffset g (src + n) ≠ Reverse.endOffset g (dest + n) → ∀ (s : ℤ) (a b : MWord g),
      let x := (Reverse.restart s (g.mwordSize * 8) (Reverse.endOffset g (src + n) * 8)
        (Reverse.endOffset g (dest + n) * 8) a b).result E t
      0 < x.2.1 ∧ x.2.1 < g.mwordSize * 8) := by
  refine ⟨⟨?_, ?_, ?_, ?_⟩, ?_, ?_⟩
  · intro e he
    exact (Forward.defined_copy lsscLf.edges_defined dest src n).of_mem_notes E t he
  · intro e he
    exact (Reverse.defined_copy lsscLr.edges_defined dest src n).of_mem_notes E t he
  · intro e he
    exact (Forward.defined_copy lsscLft.edges_defined dest src n).of_mem_notes E t he
  · intro e he
    exact (Reverse.defined_copy lsscLrt.edges_defined dest src n).of_mem_notes E t he
  · intro hphase s a b
    exact (Direction.forward.defined_restart (offset_lt g src) (offset_lt g dest) hphase).result E t
  · intro hphase s a b
    exact (Direction.reverse.defined_restart (Reverse.endOffset_lt g _) (Reverse.endOffset_lt g _)
      hphase).result E t

/-- From `14` to `3`, where `w` wraps to `24 - 48` and back: the difference `h - j`, and `w`. -/
theorem arithmetic_harmless_wrapped :
    (Arith.sub 8 3).Harmless .x86_64 ∧
      0 < ((Forward.restart 16 64 (offset .x86_64 14 * 8) (offset .x86_64 3 * 8)
        (5 : MWord .x86_64) 0).result (Memory.environment 8) fun x => BitVec.ofInt 8 x).2.1 := by
  have hthm := arithmetic_harmless .x86_64 3 14 25 (Memory.environment 8) fun x => BitVec.ofInt 8 x
  refine ⟨hthm.1.1 _ ?_, (hthm.2.1 (by decide) 16 5 0).1⟩
  exact .tail _ (.tail _ (.tail _ (.tail _ (.tail _ (.head _)))))

end Lssc
