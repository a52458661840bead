import Lssc.LoopHead
import Lssc.Peel
import Lssc.Lr
import Lssc.Lrt
import Lssc.WordAccess.Mirror

/-!
# Reverse is the mirror of forward

The notes in the source say that the forward and the reverse routines mirror each other, with all
shift operations and all pointer updates reversed. Here the texts are gone through side by side:
words are byte-reversed, an address and its image add up to `K` with the width of what is there
between them, and `size_t` values are the same.

The one place where this is not immediate is the peel. `head` of `lssc_lft.c` tests bits of the
start of a range and `heel` of `lssc_lrt.c` bits of its end, which agree only because the bits
below have been cleared on the way.

## Main definitions

* `Regs.Mirrors` — what the registers of the two directions have to do with each other
* `Edges.Mirrors` — the same for the places where routines differ

## Main results

* `mirrors_copy` — `Reverse.copy` mirrors `Forward.copy`
* `mirrors_loopHead` — the loop heads of the two directions mirror each other
* `bare_lsscLr_eq_mirror`, `bare_lsscLrt_eq_mirror`
* `trace_lsscLr`, `trace_lsscLrt` — runs in any environment
* `reverse_mirrors_forward` — runs on a memory
-/

namespace Lssc

open WordAccess Program

variable {g : Geometry} {K : ℤ}

/-! ### Operations -/

section Operations

variable {a b : ℤ} {c p : ℕ} (x : MWord g)

theorem mirrors_load (p : Ptr) (hab : a + b + g.mwordSize = K) :
    Mirrors K (fun x y => y = revBytes x) (load p a : Code g _) (load p b) :=
  .load hab fun _ => .pure rfl

theorem mirrors_storeWord (hab : a + b + g.mwordSize = K) :
    Mirrors K Eq (storeWord a x) (storeWord b (revBytes x)) := by
  rw [storeWord, storeWord, ← reverse_bytes]
  exact .store (by rw [length_bytes]; exact hab) (.pure rfl)

theorem mirrors_storeLow (hp : p ≤ g.mwordSize) (hab : a + b + p = K) :
    Mirrors K Eq (storeLow p a x)
      (storeLow p b (revBytes x >>> (g.mwordSize * 8 - 8 * p))) := by
  rw [storeLow, storeLow, Nat.mul_comm 8 p, ← reverse_bytes_low hp]
  exact .store (by rw [length_bytes]; exact hab) (.pure rfl)

theorem mirrors_shl (hc : 8 ∣ c) :
    Mirrors K (fun x y => y = revBytes x) (shl x c) (shr (revBytes x) c) :=
  .noteLeft (.noteRight (.pure (revBytes_shiftLeft x hc).symm))

theorem mirrors_shr (hc : 8 ∣ c) :
    Mirrors K (fun x y => y = revBytes x) (shr x c) (shl (revBytes x) c) :=
  .noteLeft (.noteRight (.pure (revBytes_ushiftRight x hc).symm))

theorem mirrors_sub (x y : ℕ) :
    Mirrors K (fun c c' => c = x - y ∧ c' = x - y) (sub x y : Code g ℕ) (sub x y) :=
  .noteLeft (.noteRight (.pure ⟨rfl, rfl⟩))

theorem mirrors_mul (x y : ℕ) :
    Mirrors K (fun c c' => c = x * y ∧ c' = x * y) (mul x y : Code g ℕ) (mul x y) :=
  .noteLeft (.noteRight (.pure ⟨rfl, rfl⟩))

theorem mirrors_add (x y : ℕ) :
    Mirrors K (fun c c' => c = x + y ∧ c' = x + y) (add x y : Code g ℕ) (add x y) :=
  .noteLeft (.noteRight (.pure ⟨rfl, rfl⟩))

/-- A shift that only the reverse direction needs. -/
theorem mirrors_shr_right {α β : Type} {R : α → β → Prop} {q : Code g α} {f : MWord g → Code g β}
    (hf : Mirrors K R q (f (x >>> c))) : Mirrors K R q (shr x c >>= f) := .noteRight hf

/-- The mask of the low bytes and that of the high bytes. -/
theorem mirrors_ones (hc : 8 ∣ c) :
    Mirrors K (fun x y => y = revBytes x) (shl (ones g) c) (shr (ones g) c) := by
  have hones : revBytes (ones g) = ones g := by rw [ones_eq, revBytes_allOnes]
  have := mirrors_shl (K := K) (ones g) hc
  rwa [hones] at this

theorem mirrors_whileWords {σ σ' : Type} {R : σ → σ' → Prop} {body : σ → Code g σ}
    {body' : σ' → Code g σ'} (hbody : ∀ r r', R r r' → Mirrors K R (body r) (body' r'))
    {n : ℕ} {r : σ} {r' : σ'} (hr : R r r') :
    Mirrors K (fun x y => R x.1 y.1 ∧ y.2 = x.2) (whileWords body n r)
      (whileWords body' n r') := by
  induction n using Nat.strong_induction_on generalizing r r' with
  | h n ih =>
    rw [whileWords, whileWords]
    split
    · have hpos := g.mwordSize_pos
      refine .bind (hbody r r' hr) fun r r' hr => ?_
      refine .bind (mirrors_sub ..) fun _ _ _ => ?_
      exact ih _ (by omega) hr
    · exact .pure ⟨hr, rfl⟩

theorem mirrors_rounds {σ σ' : Type} {R : σ → σ' → Prop} {body : σ → Code g σ}
    {body' : σ' → Code g σ'} (hbody : ∀ r r', R r r' → Mirrors K R (body r) (body' r'))
    {x : σ × ℕ} {y : σ' × ℕ} (hxy : R x.1 y.1 ∧ y.2 = x.2) (k : ℕ) :
    Mirrors K (fun x y => R x.1 y.1 ∧ y.2 = x.2) (rounds body k x) (rounds body' k y) := by
  induction k with
  | zero => exact .pure hxy
  | succ k ih =>
    refine .bind ih ?_
    rintro ⟨r, n⟩ ⟨r', _⟩ ⟨hr, rfl⟩
    refine .bind (hbody r r' hr) fun r r' hr => ?_
    refine .bind (mirrors_sub ..) ?_
    rintro _ _ ⟨rfl, rfl⟩
    exact .pure ⟨hr, rfl⟩

end Operations

/-! ### The copies -/

/-- The registers of the two directions. -/
structure Regs.Mirrors (K : ℤ) (r r' : Regs g) : Prop where
  s : r.s + r'.s + g.mwordSize = K
  d : r.d + r'.d + g.mwordSize = K
  w : r'.w = r.w
  b : r'.b = revBytes r.b
  /-- Whole bytes are moved. -/
  dvd : 8 ∣ r.w

theorem Regs.Mirrors.clear {s s' d d' : ℤ} (hs : s + s' + g.mwordSize = K)
    (hd : d + d' + g.mwordSize = K) :
    Regs.Mirrors K (⟨s, d, 0, 0⟩ : Regs g) ⟨s', d', 0, 0⟩ :=
  ⟨hs, hd, rfl, revBytes_zero.symm, Nat.dvd_zero 8⟩

theorem mirrors_copyWord {r r' : Regs g} (hr : r.Mirrors K r') :
    Mirrors K (Regs.Mirrors K) (Forward.copyWord r) (Reverse.copyWord r') := by
  have hs := hr.s
  have hd := hr.d
  refine .bind (mirrors_load .s hs) ?_
  rintro a _ rfl
  refine .bind (mirrors_storeWord a hd) fun _ _ _ => .pure ?_
  exact ⟨by dsimp only; omega, by dsimp only; omega, hr.w, hr.b, hr.dvd⟩

theorem mirrors_loadShiftStore {t : ℕ} (ht : 8 ∣ t) {r r' : Regs g} (hr : r.Mirrors K r') :
    Mirrors K (Regs.Mirrors K) (Forward.loadShiftStore t r) (Reverse.loadShiftStore t r') := by
  have hs := hr.s
  have hd := hr.d
  rw [Forward.loadShiftStore, Reverse.loadShiftStore, hr.w, hr.b]
  refine .bind (mirrors_load .s hs) ?_
  rintro a _ rfl
  refine .bind (mirrors_shl a hr.dvd) ?_
  rintro x _ rfl
  rw [← revBytes_or]
  refine .bind (mirrors_storeWord _ hd) fun _ _ _ => ?_
  refine .bind (mirrors_sub ..) ?_
  rintro _ _ ⟨rfl, rfl⟩
  refine .bind (mirrors_shr a (by have := hr.dvd; omega)) ?_
  rintro b _ rfl
  exact .pure ⟨by dsimp only; omega, by dsimp only; omega, rfl, rfl, hr.dvd⟩

theorem mirrors_secondSlice {s s' : ℤ} (hs : s + s' + g.mwordSize = K) {t u i n : ℕ}
    (ht : 8 ∣ t) (hu : 8 ∣ u) (a : MWord g) :
    Mirrors K (fun x y => y = revBytes x) (Forward.secondSlice s t u i n a)
      (Reverse.secondSlice s' t u i n (revBytes a)) := by
  refine .bind (mirrors_sub ..) ?_
  rintro _ _ ⟨rfl, rfl⟩
  split
  · refine .bind (mirrors_load .s hs) ?_
    rintro x _ rfl
    refine .bind (mirrors_sub ..) ?_
    rintro _ _ ⟨rfl, rfl⟩
    refine .bind (mirrors_shl x (by omega)) ?_
    rintro y _ rfl
    exact .pure (revBytes_or ..).symm
  · exact .pure rfl

theorem mirrors_discard {u i n : ℕ} (hu : 8 ∣ u) (a : MWord g) :
    Mirrors K (fun x y => y = revBytes x) (Forward.discard u i n a)
      (Reverse.discard u i n (revBytes a)) := by
  refine .bind (mirrors_sub ..) ?_
  rintro _ _ ⟨rfl, rfl⟩
  split
  · refine .bind (mirrors_mul ..) ?_
    rintro _ _ ⟨rfl, rfl⟩
    refine .bind (mirrors_add ..) ?_
    rintro _ _ ⟨rfl, rfl⟩
    refine .bind (mirrors_ones (by omega)) ?_
    rintro x _ rfl
    exact .pure (by rw [revBytes_and, revBytes_not])
  · exact .pure rfl

theorem mirrors_restart {s s' : ℤ} (hs : s + s' + g.mwordSize = K) {i j : ℕ}
    (hi : i ≤ g.mwordSize) (hj : j ≤ g.mwordSize) (a b : MWord g) :
    Mirrors K (fun x y => x.1 + y.1 + g.mwordSize = K ∧ y.2.1 = x.2.1 ∧ 8 ∣ x.2.1 ∧
        y.2.2.1 = revBytes x.2.2.1 ∧ y.2.2.2 = revBytes x.2.2.2)
      (Forward.restart s (g.mwordSize * 8) (i * 8) (j * 8) a b)
      (Reverse.restart s' (g.mwordSize * 8) (i * 8) (j * 8) (revBytes a) (revBytes b)) := by
  rw [Forward.restart, Reverse.restart]
  split
  · refine .bind (mirrors_sub ..) ?_
    rintro _ _ ⟨rfl, rfl⟩
    refine .bind (mirrors_shr a (by omega)) ?_
    rintro x _ rfl
    refine .bind (mirrors_load .s hs) ?_
    rintro y _ rfl
    refine .pure ⟨by dsimp only; omega, rfl, ?_, rfl, (revBytes_or ..).symm⟩
    rw [wrapAdd_wrapSub ‹_› (by omega) le_rfl]
    dsimp only
    omega
  · refine .pure ⟨hs, rfl, ?_, rfl, rfl⟩
    rw [wrapSub_of_le (by omega) (by omega)]
    dsimp only
    omega

theorem mirrors_lastSlice {r r' : Regs g} (hr : r.Mirrors K r') (k : ℕ) :
    Mirrors K (fun x y => y = revBytes x) (Forward.lastSlice r k) (Reverse.lastSlice r' k) := by
  rw [Forward.lastSlice, Reverse.lastSlice, hr.w, hr.b]
  split
  · refine .bind (mirrors_load .s hr.s) ?_
    rintro x _ rfl
    refine .bind (mirrors_shl x hr.dvd) ?_
    rintro y _ rfl
    exact .pure (revBytes_or ..).symm
  · exact .pure rfl

/-- What is asked of the four places where routines differ. -/
structure Edges.Mirrors (K : ℤ) (E E' : Edges g) : Prop where
  only : ∀ {dest dest' d d' : ℤ} {j n : ℕ} (a b : MWord g), dest + dest' + n = K →
    d + d' + g.mwordSize = K →
      Program.Mirrors K Eq (E.only dest d (j * 8) n a b)
        (E'.only dest' d' (j * 8) n (revBytes a) (revBytes b))
  first : ∀ {dest : ℤ} (dest' : ℤ) {d d' : ℤ} {j : ℕ} (b : MWord g), j ≤ g.mwordSize →
    dest = d + j → d + d' + g.mwordSize = K →
      Program.Mirrors K Eq (E.first dest d (j * 8) j b) (E'.first dest' d' (j * 8) j (revBytes b))
  firstInPhase : ∀ {dest : ℤ} (dest' : ℤ) {d d' : ℤ} {j : ℕ} (b : MWord g), j ≤ g.mwordSize →
    dest = d + j → d + d' + g.mwordSize = K →
      Program.Mirrors K Eq (E.firstInPhase dest d (j * 8) j b)
        (E'.firstInPhase dest' d' (j * 8) j (revBytes b))
  last : ∀ {d d' : ℤ} {n : ℕ} (b : MWord g), d + d' + g.mwordSize = K →
    Program.Mirrors K Eq (E.last d n (n * 8) b) (E'.last d' n (n * 8) (revBytes b))

section Copies

variable {E E' : Edges g}

theorem mirrors_finish (hE : E.Mirrors K E') {r r' : Regs g} (hr : r.Mirrors K r') (n : ℕ) :
    Mirrors K Eq (Forward.finish E r n) (Reverse.finish E' r' n) := by
  refine .bind (mirrors_whileWords (fun _ _ => mirrors_copyWord) hr) ?_
  rintro ⟨r, n⟩ ⟨r', _⟩ ⟨hr, rfl⟩
  dsimp only
  split
  · refine .bind (mirrors_mul ..) ?_
    rintro _ _ ⟨rfl, rfl⟩
    refine .bind (mirrors_lastSlice hr _) ?_
    rintro b _ rfl
    exact hE.last b hr.d
  · exact .pure rfl

/-- The offset of a range's end is that of the start of its image. -/
theorem endOffset_eq (hK : (g.mwordSize : ℤ) ∣ K) {a e : ℤ} (hae : a + e = K) :
    Reverse.endOffset g e = offset g a := by
  obtain ⟨c, rfl⟩ := hK
  have hnot : ~~~(e - 1) = a + g.mwordSize * (-c) := by
    rw [not_eq_neg_sub_one, Int.mul_neg]
    omega
  have hmod := natCast_offset g (~~~(e - 1))
  rw [hnot, Int.add_mul_emod_self_left, ← natCast_offset] at hmod
  rw [Reverse.endOffset]
  exact_mod_cast hnot ▸ hmod

/-- The word of a range's last byte is the image of the word of its first. -/
theorem align_add_align (hK : (g.mwordSize : ℤ) ∣ K) {a e : ℤ} (hae : a + e = K) :
    align g a + align g (e - 1) + g.mwordSize = K := by
  have hlt := emod_lt_natCast g.mwordSize a
  have hnonneg := emod_nonneg_natCast g.mwordSize a
  have hdvd : (g.mwordSize : ℤ) ∣ K - (a - a % g.mwordSize) - g.mwordSize :=
    Int.dvd_sub (Int.dvd_sub hK (dvd_sub_emod a)) (Int.dvd_refl _)
  have hword := eq_sub_emod (y := e - 1) hdvd (by omega) (by omega)
  rw [align_eq, align_eq, natCast_offset, natCast_offset]
  omega

section Texts

variable (hE : E.Mirrors K E') (hK : (g.mwordSize : ℤ) ∣ K) {dest dest' src src' : ℤ} {n : ℕ}
  (hdest : dest + dest' + n = K) (hsrc : src + src' + n = K)

include hE

include hK hdest hsrc in
/-- The copies up to the loop, where the alignments differ. -/
theorem mirrors_prologue :
    Mirrors K (fun x y => x.1.Mirrors K y.1 ∧ y.2 = x.2) (Forward.prologue E dest src n)
      (Reverse.prologue E' dest' src' n) := by
  have hi := offset_lt g src
  have hj := offset_lt g dest
  have hs := align_add_align hK (show src + (src' + n) = K by omega)
  have hd := align_add_align hK (show dest + (dest' + n) = K by omega)
  have hjd : dest = align g dest + offset g dest := by rw [align_eq]; omega
  rw [Forward.prologue, Reverse.prologue, endOffset_eq hK (show src + (src' + n) = K by omega),
    endOffset_eq hK (show dest + (dest' + n) = K by omega)]
  refine .bind (mirrors_mul ..) ?_
  rintro _ _ ⟨rfl, rfl⟩
  refine .bind (mirrors_mul ..) ?_
  rintro _ _ ⟨rfl, rfl⟩
  refine .bind (mirrors_mul ..) ?_
  rintro _ _ ⟨rfl, rfl⟩
  refine .bind (mirrors_load .s hs) ?_
  rintro a _ rfl
  refine .bind (mirrors_shr a (by omega)) ?_
  rintro a _ rfl
  refine .bind (mirrors_load .d hd) ?_
  rintro b _ rfl
  refine .bind (mirrors_ones (by omega)) ?_
  rintro x _ rfl
  rw [← revBytes_not, ← revBytes_and]
  refine .bind (mirrors_sub ..) ?_
  rintro _ _ ⟨rfl, rfl⟩
  refine .bind (mirrors_shl a (by omega)) ?_
  rintro a _ rfl
  refine .bind (mirrors_discard (by omega) a) ?_
  rintro a _ rfl
  refine .bind (mirrors_restart (by omega) hi.le hj.le a _) ?_
  rintro ⟨s, w, a, b⟩ ⟨s', w', a', b'⟩ hret
  dsimp only at hret ⊢
  obtain ⟨hs, rfl, hw, rfl, rfl⟩ := hret
  refine .bind (mirrors_shl a hw) ?_
  rintro x _ rfl
  rw [← revBytes_or]
  refine .bind (hE.first dest' _ hj.le hjd hd) fun _ _ _ => ?_
  refine .bind (mirrors_sub ..) ?_
  rintro _ _ ⟨rfl, rfl⟩
  refine .bind (mirrors_shr a (by omega)) ?_
  rintro b _ rfl
  refine .bind (mirrors_sub ..) ?_
  rintro _ _ ⟨rfl, rfl⟩
  refine .bind (mirrors_sub ..) ?_
  rintro _ _ ⟨rfl, rfl⟩
  exact .pure ⟨.mk hs (by dsimp only; omega) rfl rfl hw, rfl⟩

include hK hdest hsrc in
/-- **The loop heads mirror each other**, after the same number of rounds. -/
theorem mirrors_loopHead (k : ℕ) :
    Mirrors K (fun x y => x.1.Mirrors K y.1 ∧ y.2 = x.2) (Forward.loopHead E dest src n k)
      (Reverse.loopHead E' dest' src' n k) :=
  .bind (mirrors_prologue hE hK hdest hsrc) fun _ _ hxy =>
    mirrors_rounds (fun _ _ => mirrors_loadShiftStore (by omega)) hxy k

theorem mirrors_fromLoop {x y : Regs g × ℕ} (hxy : x.1.Mirrors K y.1 ∧ y.2 = x.2) :
    Mirrors K Eq (Forward.fromLoop E x) (Reverse.fromLoop E' y) := by
  rw [Forward.fromLoop, Reverse.fromLoop, hxy.2]
  refine .bind (mirrors_whileWords (fun _ _ => mirrors_loadShiftStore (by omega)) hxy.1) ?_
  rintro ⟨r, n⟩ ⟨r', _⟩ ⟨hr, rfl⟩
  exact mirrors_finish hE hr _

include hK hdest hsrc in
/-- **`Reverse.copy` mirrors `Forward.copy`**, statement by statement. -/
theorem mirrors_copy : Mirrors K Eq (Forward.copy E dest src n) (Reverse.copy E' dest' src' n) := by
  have hi := endOffset_eq hK (show src + (src' + n) = K by omega)
  have hj := endOffset_eq hK (show dest + (dest' + n) = K by omega)
  by_cases hmixed : offset g src ≠ offset g dest ∧ g.mwordSize - offset g dest ≤ n
  · rw [Forward.copy_eq_prologue hmixed.1 hmixed.2,
      Reverse.copy_eq_prologue (by rw [hi, hj]; exact hmixed.1) (by rw [hj]; exact hmixed.2)]
    exact .bind (mirrors_prologue hE hK hdest hsrc) fun _ _ => mirrors_fromLoop hE
  have hs := align_add_align hK (show src + (src' + n) = K by omega)
  have hd := align_add_align hK (show dest + (dest' + n) = K by omega)
  have hjd : dest = align g dest + offset g dest := by rw [align_eq]; omega
  rw [Forward.copy, Reverse.copy, hi, hj]
  by_cases htrivial : dest = src ∨ n = 0
  · rw [if_pos htrivial, if_pos (show dest' = src' ∨ n = 0 by omega)]
    exact .pure rfl
  rw [if_neg htrivial, if_neg (show ¬(dest' = src' ∨ n = 0) by omega)]
  dsimp only
  split
  swap
  · exact mirrors_finish hE (.clear hs hd) n
  refine .bind (mirrors_mul ..) ?_
  rintro _ _ ⟨rfl, rfl⟩
  refine .bind (mirrors_mul ..) ?_
  rintro _ _ ⟨rfl, rfl⟩
  refine .bind (mirrors_mul ..) ?_
  rintro _ _ ⟨rfl, rfl⟩
  refine .bind (mirrors_load .s hs) ?_
  rintro a _ rfl
  refine .bind (mirrors_shr a (by omega)) ?_
  rintro a _ rfl
  refine .bind (mirrors_load .d hd) ?_
  rintro b _ rfl
  refine .bind (mirrors_ones (by omega)) ?_
  rintro x _ rfl
  rw [← revBytes_not, ← revBytes_and]
  refine .bind (mirrors_sub ..) ?_
  rintro _ _ ⟨rfl, rfl⟩
  split
  · refine .bind (mirrors_secondSlice (by omega) (by omega) (by omega) a) ?_
    rintro a _ rfl
    exact hE.only a _ hdest hd
  refine .bind (mirrors_shl a (by omega)) ?_
  rintro a _ rfl
  refine .bind (mirrors_discard (by omega) a) ?_
  rintro a _ rfl
  rw [if_neg (show ¬offset g src ≠ offset g dest by omega),
    if_neg (show ¬offset g src ≠ offset g dest by omega), ← revBytes_or]
  refine .bind (hE.firstInPhase dest' _ (offset_lt g dest).le hjd hd) fun _ _ _ => ?_
  refine .bind (mirrors_sub ..) ?_
  rintro _ _ ⟨rfl, rfl⟩
  refine .bind (mirrors_sub ..) ?_
  rintro _ _ ⟨rfl, rfl⟩
  exact mirrors_finish hE (.clear (by omega) (by omega)) _

end Texts

end Copies

/-! ### Peeling -/

section Peeling

/-- A line of `heel` in the one source and of `head` in the other. -/
theorem mirrors_heelUnit (p n : ℕ) {dest e : ℤ} (he : dest + e = K) (val : MWord g) :
    Mirrors K (fun x y => x.1 + y.1 = K ∧ y.2 = revBytes x.2) (Lft.heelUnit p n dest val)
      (Lrt.headUnit p n e (revBytes val)) := by
  rw [Lft.heelUnit, Lrt.headUnit]
  split
  · have hp : p ≤ g.mwordSize := by omega
    refine mirrors_shr_right _ (.bind (mirrors_storeLow val hp (by omega)) ?_)
    rintro - - -
    refine .bind (mirrors_shr val (by omega)) ?_
    rintro x _ rfl
    exact .pure ⟨by dsimp only; omega, rfl⟩
  · exact .pure ⟨he, rfl⟩

theorem mirrors_heel {dest e : ℤ} (he : dest + e = K) (val : MWord g) (n : ℕ) :
    Mirrors K Eq (Lft.heel dest val n) (Lrt.head e (revBytes val) n) := by
  refine .bind (mirrors_heelUnit 8 n he val) ?_
  rintro ⟨dest, val⟩ ⟨e, _⟩ ⟨he, rfl⟩
  refine .bind (mirrors_heelUnit 4 n he val) ?_
  rintro ⟨dest, val⟩ ⟨e, _⟩ ⟨he, rfl⟩
  refine .bind (mirrors_heelUnit 2 n he val) ?_
  rintro ⟨dest, val⟩ ⟨e, _⟩ ⟨he, rfl⟩
  dsimp only
  split
  · have hp : 1 ≤ g.mwordSize := by omega
    exact mirrors_shr_right _ (mirrors_storeLow val hp (by dsimp only at he; omega))
  · exact .pure rfl

theorem Lft.Cleared.reflect {inside : Bool} {k : ℕ} {a : ℤ} (hK : (g.mwordSize : ℤ) ∣ K)
    (ha : Lft.Cleared g inside k a) : Lft.Cleared g inside k (K - a) where
  dvd m hm hmh := Int.dvd_sub
    ((Int.natCast_dvd_natCast.mpr (two_pow_dvd_mwordSize hmh)).trans hK) (ha.dvd m hm hmh)
  outside hin := Int.dvd_sub
    ((Int.natCast_dvd_natCast.mpr g.mminAlign_dvd).trans hK) (ha.outside hin)

/-- A `HEAD` step and a `HEEL` step. The bit the one tests is the bit the other tests because the
bits below are clear. -/
theorem mirrors_step {inside : Bool} {k : ℕ} {next next' : ℤ → MWord g → ℕ → Code g Unit}
    (hK : (g.mwordSize : ℤ) ∣ K)
    (hnext : ∀ {dest e : ℤ} (val : MWord g) (n : ℕ), dest + e = K →
      Lft.Cleared g inside (k + 1) dest →
        Mirrors K Eq (next dest val n) (next' e (revBytes val) n))
    {dest e : ℤ} (he : dest + e = K) (hdest : Lft.Cleared g inside k dest) (val : MWord g)
    (n : ℕ) :
    Mirrors K Eq (Lft.step inside (2 ^ k) next dest val n)
      (Lrt.step inside (2 ^ k) next' e (revBytes val) n) := by
  by_cases hon : 2 ^ k < g.mwordSize ∧ (g.mminAlign ≤ 2 ^ k ∨ inside)
  swap
  · rw [Lft.step, Lrt.step, if_neg hon, if_neg hon]
    exact hnext val n he (hdest.off hon)
  have hend := hdest.reflect hK
  rw [show K - dest = e by omega] at hend
  have hunit : ((2 ^ (k + 1) : ℕ) : ℤ) ∣ K :=
    (Int.natCast_dvd_natCast.mpr (two_pow_succ_dvd_mwordSize hon.1)).trans hK
  have hbits : ((2 ^ (k + 1) : ℕ) : ℤ) ∣ e ↔ ((2 ^ (k + 1) : ℕ) : ℤ) ∣ dest := by
    rw [show e = K - dest by omega, dvd_sub_right hunit]
  rw [Lft.step, Lrt.step, if_pos hon, if_pos hon, Lft.HEAD, Lrt.HEEL]
  by_cases hbit : ((2 ^ (k + 1) : ℕ) : ℤ) ∣ dest
  · rw [if_neg fun hland => (hdest.land_ne_zero_iff hon.1).mp hland hbit,
      if_neg fun hland => (hend.land_ne_zero_iff hon.1).mp hland (hbits.mpr hbit)]
    exact hnext val n he (hdest.skip hbit)
  rw [if_pos ((hdest.land_ne_zero_iff hon.1).mpr hbit),
    if_pos ((hend.land_ne_zero_iff hon.1).mpr (mt hbits.mp hbit))]
  split
  · exact mirrors_heel he val n
  refine mirrors_shr_right _ (.bind (mirrors_storeLow val hon.1.le (by omega)) ?_)
  rintro - - -
  refine .bind (mirrors_sub ..) ?_
  rintro _ _ ⟨rfl, rfl⟩
  split
  · exact .pure rfl
  refine .bind (mirrors_shr val (by omega)) ?_
  rintro x _ rfl
  exact hnext x _ (by omega) (hdest.store hon.1 hon.2 hbit)

/-- `head` of `lssc_lft.c` and `heel` of `lssc_lrt.c`. -/
theorem mirrors_head (hK : (g.mwordSize : ℤ) ∣ K) {dest dest' : ℤ} {n : ℕ}
    (hdest : dest + dest' + n = K) (val : MWord g) :
    Mirrors K Eq (Lft.head dest val n) (Lrt.heel dest' (revBytes val) n) := by
  have hmin : (g.mminAlign : ℤ) ∣ K := (Int.natCast_dvd_natCast.mpr g.mminAlign_dvd).trans hK
  have hinside : Int.land (dest' + n) (g.mminAlign - 1) ≠ 0
      ↔ Int.land dest (g.mminAlign - 1) ≠ 0 := by
    rw [ne_eq, ne_eq, Lft.land_mminAlign_eq_zero_iff, Lft.land_mminAlign_eq_zero_iff,
      show dest' + n = K - dest by omega, dvd_sub_right hmin]
  rw [Lft.head, Lrt.heel]
  simp only [hinside]
  refine mirrors_step (k := 0) hK (fun val n he hdest => ?_) (by omega) (.start g dest) val n
  refine mirrors_step (k := 1) hK (fun val n he hdest => ?_) he hdest val n
  refine mirrors_step (k := 2) hK (fun val n he hdest => ?_) he hdest val n
  refine mirrors_step (k := 3) hK (fun val n he hdest => ?_) he hdest val n
  exact mirrors_heel he val n

end Peeling

/-! ### The routines -/

theorem lsscLf.edges_mirrors : (lsscLf.edges g).Mirrors K (lsscLr.edges g) where
  only {dest dest' d d' j n} a b _ hd := by
    refine .bind (mirrors_mul ..) ?_
    rintro _ _ ⟨rfl, rfl⟩
    refine .bind (mirrors_add ..) ?_
    rintro _ _ ⟨rfl, rfl⟩
    refine .bind (mirrors_shl a (by omega)) ?_
    rintro x _ rfl
    refine .bind (mirrors_ones (by omega)) ?_
    rintro y _ rfl
    refine .bind (mirrors_load .d hd) ?_
    rintro z _ rfl
    refine .bind (mirrors_ones (by omega)) ?_
    rintro m _ rfl
    simp only [← revBytes_not, ← revBytes_and, ← revBytes_or]
    exact mirrors_storeWord _ hd
  first _ _ _ _ b _ _ hd := mirrors_storeWord b hd
  firstInPhase _ _ _ _ b _ _ hd := mirrors_storeWord b hd
  last {d d' n} b hd := by
    refine .bind (mirrors_load .d hd) ?_
    rintro x _ rfl
    refine .bind (mirrors_ones (by omega)) ?_
    rintro y _ rfl
    refine .bind (mirrors_ones (by omega)) ?_
    rintro z _ rfl
    simp only [← revBytes_not, ← revBytes_and, ← revBytes_or]
    exact mirrors_storeWord _ hd

theorem lsscLft.edges_mirrors (hK : (g.mwordSize : ℤ) ∣ K) :
    (lsscLft.edges g).Mirrors K (lsscLrt.edges g) where
  only a _ hdest _ := mirrors_head hK hdest a
  first {dest} dest' {d d' j} b hj hdest hd := by
    simp only [lsscLft.edges, lsscLrt.edges]
    split
    · refine .bind (mirrors_shr b (by omega)) ?_
      rintro x _ rfl
      refine .bind (mirrors_sub ..) ?_
      rintro _ _ ⟨rfl, rfl⟩
      exact mirrors_head hK (by omega) x
    · exact mirrors_storeWord b hd
  firstInPhase {dest} dest' {d d' j} b hj hdest hd := by
    refine .bind (mirrors_shr b (by omega)) ?_
    rintro x _ rfl
    refine .bind (mirrors_sub ..) ?_
    rintro _ _ ⟨rfl, rfl⟩
    exact mirrors_head hK (by omega) x
  last b hd := mirrors_heel (by omega) b _

section Routines

variable (hK : (g.mwordSize : ℤ) ∣ K) (dest src : ℤ) (n : ℕ)

include hK

/-- **`lssc_lr` makes the reflected accesses of `lssc_lf`.** -/
theorem bare_lsscLr_eq_mirror :
    (lsscLr g dest src n).bare = (lsscLf g (K - dest - n) (K - src - n) n).mirror K :=
  (mirrors_copy lsscLf.edges_mirrors hK (by omega) (by omega)).bare_eq

/-- **`lssc_lrt` makes the reflected accesses of `lssc_lft`.** -/
theorem bare_lsscLrt_eq_mirror :
    (lsscLrt g dest src n).bare = (lsscLft g (K - dest - n) (K - src - n) n).mirror K :=
  (mirrors_copy (lsscLft.edges_mirrors hK) hK (by omega) (by omega)).bare_eq

/-- In any environment, `lssc_lr` runs as `lssc_lf` does on the other side of the mirror. -/
theorem trace_lsscLr {σ : Type} (E : Environment g.mwordSize σ) (t : σ) :
    (lsscLr g dest src n).trace E t
      = ((lsscLf g (K - dest - n) (K - src - n) n).trace (E.mirror K) t).map
          (Access.reflect K) := by
  rw [← trace_bare, bare_lsscLr_eq_mirror hK, trace_mirror]

theorem trace_lsscLrt {σ : Type} (E : Environment g.mwordSize σ) (t : σ) :
    (lsscLrt g dest src n).trace E t
      = ((lsscLft g (K - dest - n) (K - src - n) n).trace (E.mirror K) t).map
          (Access.reflect K) := by
  rw [← trace_bare, bare_lsscLrt_eq_mirror hK, trace_mirror]

/-- On a memory, `lssc_lr` ends in the image of where `lssc_lf` ends on the image of the memory. -/
theorem finalMemory_lsscLr (M : Memory) :
    finalMemory (lsscLr g dest src n) M
      = (finalMemory (lsscLf g (K - dest - n) (K - src - n) n) (M.reflect K)).reflect K := by
  rw [finalMemory, ← final_bare, bare_lsscLr_eq_mirror hK, final_mirror_memory]
  rfl

theorem finalMemory_lsscLrt (M : Memory) :
    finalMemory (lsscLrt g dest src n) M
      = (finalMemory (lsscLft g (K - dest - n) (K - src - n) n) (M.reflect K)).reflect K := by
  rw [finalMemory, ← final_bare, bare_lsscLrt_eq_mirror hK, final_mirror_memory]
  rfl

/-- **Reverse is the mirror of forward**, step for step and in the end, for the plain routines and
for the thread-safe ones. -/
theorem reverse_mirrors_forward (M : Memory) :
    (accesses (lsscLr g dest src n) M
        = (accesses (lsscLf g (K - dest - n) (K - src - n) n) (M.reflect K)).map
            (Access.reflect K) ∧
      finalMemory (lsscLr g dest src n) M
        = (finalMemory (lsscLf g (K - dest - n) (K - src - n) n) (M.reflect K)).reflect K) ∧
    (accesses (lsscLrt g dest src n) M
        = (accesses (lsscLft g (K - dest - n) (K - src - n) n) (M.reflect K)).map
            (Access.reflect K) ∧
      finalMemory (lsscLrt g dest src n) M
        = (finalMemory (lsscLft g (K - dest - n) (K - src - n) n) (M.reflect K)).reflect K) := by
  refine ⟨⟨?_, finalMemory_lsscLr hK dest src n M⟩, ?_, finalMemory_lsscLrt hK dest src n M⟩
  · rw [accesses, ← trace_bare, bare_lsscLr_eq_mirror hK, trace_mirror_memory]
    rfl
  · rw [accesses, ← trace_bare, bare_lsscLrt_eq_mirror hK, trace_mirror_memory]
    rfl

end Routines

/-- Thirteen bytes from `7` to `3`, reflected in `[0, 64)`. -/
theorem reverse_mirrors_forward_overlapping :
    accesses (lsscLr .x86_64 3 7 13) (fun x => BitVec.ofInt 8 x)
      = (accesses (lsscLf .x86_64 (64 - 3 - (13 : ℕ)) (64 - 7 - (13 : ℕ)) 13)
          (Memory.reflect 64 fun x => BitVec.ofInt 8 x)).map (Access.reflect 64) :=
  (reverse_mirrors_forward (g := .x86_64) (K := 64) (by decide) 3 7 13 _).1.1

end Lssc
