import Lssc.Overlap

/-!
# The copies the benchmark compares against

`lssc_bench.c` measures the routines against three loops that do without shifting: over bytes, over
aligned words, and over words at any address. The loops are the same but for the word they move and
for how often. What the file says of them is that `byte_copy` is legal everywhere, that `word_copy`
is the case where both ends are aligned and the length is a whole number of words, and that the
routines degenerate to the same word loop there.

## Words of one byte

A loop over bytes is a loop over words of one byte, so `byte_copy` is a program over `byBytes g`.

## What C leaves undefined

`word_copy_ua` moves a word by `memcpy`, which must not be given words that overlap. What it does if
it is, is a parameter here, and what is said of `word_copy_ua` is said for whatever it does then.

## Main definitions

* `copyWords` — `for (size_t i = count; i; i--) *d++ = *s++;`
* `byteCopy`, `wordCopy`, `wordCopyUa`

## Main results

* `aligned_eq_wordCopy` — between aligned ends, the four routines are the word loop, but for a copy
  onto itself
* `byteCopy_agrees_iff` — where the forward copies do what the loop over bytes does
* `wordCopyUa_agrees_iff` — where `lssc_lft` does what the loop over words at any address does
-/

namespace Lssc

open WordAccess Program

/-- The geometry whose words are bytes. -/
def Geometry.byBytes (g : Geometry) : Geometry where
  mwordSize := 1
  mminAlign := 1
  sizeBits := g.sizeBits
  supported := by decide
  compatible := by decide
  sixteen_le_sizeBits := g.sixteen_le_sizeBits

variable {g : Geometry}

/-- `for (size_t i = count; i; i--) *d++ = *s++;` -/
def copyWords (d s : ℤ) : ℕ → Code g Unit
  | 0 => pure ()
  | i + 1 => do
    let x ← load .s s
    storeWord d x
    let _ ← sub (i + 1) 1
    copyWords (d + g.mwordSize) (s + g.mwordSize) i

variable (g) in
/-- `byte_copy`. -/
def byteCopy (dest src : ℤ) (n : ℕ) : Code g.byBytes Unit := copyWords dest src n

variable (g) in
/-- `word_copy`, for a dest and a src that are aligned. -/
def wordCopy (dest src : ℤ) (n : ℕ) : Code g Unit := copyWords dest src (n / g.mwordSize)

/-- `memcpy(d, s, sizeof(MWORD_t))`. Between words that overlap it is undefined, and does
`undef d s`. -/
def memcpyWord (undef : ℤ → ℤ → Code g Unit) (d s : ℤ) : Code g Unit :=
  if d + g.mwordSize ≤ s ∨ s + g.mwordSize ≤ d then do
    let x ← load .s s
    storeWord d x
  else undef d s

/-- The loop of `word_copy_ua`. -/
def memcpyWords (undef : ℤ → ℤ → Code g Unit) (d s : ℤ) : ℕ → Code g Unit
  | 0 => pure ()
  | i + 1 => do
    memcpyWord undef d s
    let _ ← sub (i + 1) 1
    memcpyWords undef (d + g.mwordSize) (s + g.mwordSize) i

variable (g) in
/-- `word_copy_ua`. -/
def wordCopyUa (undef : ℤ → ℤ → Code g Unit) (dest src : ℤ) (n : ℕ) : Code g Unit :=
  memcpyWords undef dest src (n / g.mwordSize)

theorem length_trace_copyWords {σ : Type} (E : Environment g.mwordSize σ) (t : σ) (d s : ℤ)
    (m : ℕ) : ((copyWords d s m : Code g Unit).trace E t).length = 2 * m := by
  induction m generalizing d s t with
  | zero => rfl
  | succ m ih =>
    change (_ :: _ :: (copyWords (d + g.mwordSize) (s + g.mwordSize) m).trace E _).length = _
    rw [List.length_cons, List.length_cons, ih]
    omega

/-! ### Between aligned ends -/

theorem trace_eq_of_bare_eq {α σ : Type} {p q : Code g α} (hpq : p.bare = q.bare)
    (E : Environment g.mwordSize σ) (t : σ) : p.trace E t = q.trace E t := by
  rw [← trace_bare, hpq, trace_bare]

/-- The words of an aligned dest, from an empty queue. -/
theorem deliver_words {emit : ℤ → List Byte → Code g Unit}
    (hemit : ∀ (d : ℤ) (x : MWord g), (g.mwordSize : ℤ) ∣ d →
      emit d (bytes g.mwordSize x) = storeWord d x)
    {d : ℤ} (hd : (g.mwordSize : ℤ) ∣ d) (s : ℤ) (m : ℕ) :
    deliver (queueSupply .s) emit ((wordCutter g.mwordSize).cuts d (m * g.mwordSize)) (s, [])
      = (copyWords d s m : Code g Unit).bare := by
  induction m generalizing d s with
  | zero => rw [Nat.zero_mul, Cutter.cuts_zero]; rfl
  | succ m ih =>
    have hpos := g.mwordSize_pos
    have hrest := ih (Int.dvd_add hd (Int.dvd_refl _)) (s + g.mwordSize)
    rw [Nat.succ_mul, deliver_queue_word _ _ hd (by simpa using hpos) (by omega),
      Nat.add_sub_cancel, copyWords]
    simp only [load_bind, bare_load, bare_bind, bare_storeWord, bare_sub, pure_bind,
      List.nil_append, List.take_of_length_le (length_bytes _ _).le,
      List.drop_of_length_le (length_bytes _ _).le]
    refine congrArg (Program.load Ptr.s s) (funext fun x => ?_)
    rw [hemit d x hd, hrest]

section Aligned

variable {dest src : ℤ} {n : ℕ}

/-- **Between aligned ends the forward copies are the word loop**, access for access. -/
theorem bare_forward_aligned (hdest : (g.mwordSize : ℤ) ∣ dest) (hsrc : (g.mwordSize : ℤ) ∣ src)
    (hn : g.mwordSize ∣ n) (hne : dest ≠ src) :
    (lsscLf g dest src n).bare = (wordCopy g dest src n).bare ∧
      (lsscLft g dest src n).bare = (wordCopy g dest src n).bare := by
  obtain ⟨m, rfl⟩ := hn
  have hloop : wordCopy g dest src (g.mwordSize * m) = copyWords dest src m := by
    rw [wordCopy, Nat.mul_div_cancel_left _ g.mwordSize_pos]
  rw [bare_lsscLf, bare_lsscLft, copyStream, copyStream, hloop, Nat.mul_comm]
  by_cases hm : m = 0
  · subst hm
    rw [Nat.zero_mul, if_pos (Or.inr rfl), if_pos (Or.inr rfl)]
    exact ⟨rfl, rfl⟩
  · have hn : ¬(dest = src ∨ m * g.mwordSize = 0) := by
      have := g.mwordSize_pos
      simp [hne, hm, this.ne']
    have haligned : src % (g.mwordSize : ℤ) = 0 ∧ dest % (g.mwordSize : ℤ) = 0 :=
      ⟨Int.emod_eq_zero_of_dvd hsrc, Int.emod_eq_zero_of_dvd hdest⟩
    rw [if_neg hn, if_pos haligned, if_neg hn, if_pos haligned]
    exact ⟨deliver_words (fun d x hd => lsscLf.edges_emits.word 0 x hd) hdest src m,
      deliver_words (fun d x hd => emitUnits_word hd x) hdest src m⟩

section Traces

variable {σ : Type} (E : Environment g.mwordSize σ) (t : σ)

/-- A copy of nothing, or onto its source, makes no access. -/
theorem trace_forward_nil (hnone : dest = src ∨ n = 0) :
    (lsscLf g dest src n).trace E t = [] ∧ (lsscLft g dest src n).trace E t = [] := by
  constructor
  · rw [← trace_bare, bare_lsscLf, copyStream, if_pos hnone]
    rfl
  · rw [← trace_bare, bare_lsscLft, copyStream, if_pos hnone]
    rfl

/-- The word loop makes accesses even if dest is src. -/
theorem trace_forward_aligned_iff (hdest : (g.mwordSize : ℤ) ∣ dest)
    (hsrc : (g.mwordSize : ℤ) ∣ src) (hn : g.mwordSize ∣ n) :
    ((lsscLf g dest src n).trace E t = (wordCopy g dest src n).trace E t
        ↔ dest ≠ src ∨ n = 0) ∧
      ((lsscLft g dest src n).trace E t = (wordCopy g dest src n).trace E t
        ↔ dest ≠ src ∨ n = 0) := by
  by_cases hne : dest = src
  · obtain ⟨hlf, hlft⟩ := trace_forward_nil (n := n) E t (Or.inl hne)
    have hloop : [] = (wordCopy g dest src n).trace E t ↔ dest ≠ src ∨ n = 0 := by
      have hlength := length_trace_copyWords E t dest src (n / g.mwordSize)
      rw [eq_comm, ← List.length_eq_zero_iff, wordCopy, hlength, Nat.mul_eq_zero,
        Nat.div_eq_zero_iff]
      have hpos := g.mwordSize_pos
      constructor
      · intro hzero
        exact Or.inr (Nat.eq_zero_of_dvd_of_lt hn (by omega))
      · intro hzero
        omega
    rw [hlf, hlft]
    exact ⟨hloop, hloop⟩
  · obtain ⟨hlf, hlft⟩ := bare_forward_aligned hdest hsrc hn hne
    exact ⟨iff_of_true (trace_eq_of_bare_eq hlf E t) (Or.inl hne),
      iff_of_true (trace_eq_of_bare_eq hlft E t) (Or.inl hne)⟩

/-- **Between aligned ends the four routines are the word loop**: forward access for access, and in
reverse as its mirror image, whether thread-safe or not. Only where dest is src they make no access
at all, and the loop does. -/
theorem aligned_eq_wordCopy (hdest : (g.mwordSize : ℤ) ∣ dest) (hsrc : (g.mwordSize : ℤ) ∣ src)
    (hn : g.mwordSize ∣ n) :
    (((lsscLf g dest src n).trace E t = (wordCopy g dest src n).trace E t
        ↔ dest ≠ src ∨ n = 0) ∧
      ((lsscLft g dest src n).trace E t = (wordCopy g dest src n).trace E t
        ↔ dest ≠ src ∨ n = 0)) ∧
    ((lsscLr g dest src n).trace E t
        = ((wordCopy g (0 - dest - n) (0 - src - n) n).trace (E.mirror 0) t).map
            (Access.reflect 0)
        ↔ dest ≠ src ∨ n = 0) ∧
      ((lsscLrt g dest src n).trace E t
        = ((wordCopy g (0 - dest - n) (0 - src - n) n).trace (E.mirror 0) t).map
            (Access.reflect 0)
        ↔ dest ≠ src ∨ n = 0) := by
  have hn' : (g.mwordSize : ℤ) ∣ n := Int.natCast_dvd_natCast.mpr hn
  have hmirror : ∀ a : ℤ, (g.mwordSize : ℤ) ∣ a → (g.mwordSize : ℤ) ∣ 0 - a - n := fun a ha =>
    Int.dvd_sub (Int.dvd_sub (Int.dvd_zero _) ha) hn'
  have hsame : 0 - dest - (n : ℤ) ≠ 0 - src - n ↔ dest ≠ src := by omega
  obtain ⟨hlr, hlrt⟩ := trace_forward_aligned_iff (E.mirror 0) t (hmirror dest hdest)
    (hmirror src hsrc) hn
  rw [hsame] at hlr hlrt
  refine ⟨trace_forward_aligned_iff E t hdest hsrc hn, ?_, ?_⟩
  · rw [trace_lsscLr (Int.dvd_zero _), (Access.reflect_injective 0).list_map.eq_iff, hlr]
  · rw [trace_lsscLrt (Int.dvd_zero _), (Access.reflect_injective 0).list_map.eq_iff, hlrt]

end Traces

theorem aligned_eq_wordCopy_apart :
    accesses (lsscLf .x86_64 32 0 16) (fun x => BitVec.ofInt 8 x)
      = accesses (wordCopy .x86_64 32 0 16) fun x => BitVec.ofInt 8 x :=
  (@aligned_eq_wordCopy .x86_64 32 0 16 _ (Memory.environment 8) (fun x => BitVec.ofInt 8 x)
    (by decide) (by decide) (by decide)).1.1.mpr (Or.inl (by decide))

end Aligned

/-! ### Where the loops end -/

section Loops

variable {h : ℕ} [NeZero h] {dest src : ℤ} {M : Memory}

/-- What is found in src once its first word has been copied, is what was found before. -/
theorem seen_write_slice (hov : dest ≤ src ∨ h ≤ dest - src) {x : ℤ} (hx : src + h ≤ x) :
    (M.write dest (M.slice src h)).seen h (dest + h) (src + h) x = M.seen h dest src x := by
  have hδ : dest + h - (src + h) = dest - src := by ring
  have hpos : (0 : ℤ) < h := by exact_mod_cast Nat.pos_of_neZero h
  by_cases hle : h ≤ dest - src
  · have hmod : (x - src) % (dest - src) = (h + (x - (src + h)) % (dest - src)) % (dest - src) := by
      rw [Int.add_emod_emod]
      congr 1
      ring
    have hnonneg := Int.emod_nonneg (x - (src + h)) (show dest - src ≠ 0 by omega)
    have hlt := Int.emod_lt_of_pos (x - (src + h)) (show 0 < dest - src by omega)
    rw [Memory.seen_of_le (by omega), Memory.seen_of_le hle, hδ, hmod]
    obtain ⟨r, hr⟩ := Int.eq_ofNat_of_zero_le hnonneg
    rw [hr] at hlt ⊢
    rcases lt_or_ge ((h : ℤ) + r) (dest - src) with hbelow | habove
    · rw [M.write_of_outside (by omega), Int.emod_eq_of_lt (by omega) hbelow, add_assoc]
    · obtain ⟨i, hi⟩ := Int.eq_ofNat_of_zero_le (sub_nonneg.mpr habove)
      rw [show src + h + (r : ℤ) = dest + i by omega, M.write_slice_add _ _ _ (by omega),
        show (h : ℤ) + r = i + (dest - src) by omega, Int.add_emod_right,
        Int.emod_eq_of_lt (by omega) (by omega)]
  · rw [Memory.seen_of_lt (by omega), Memory.seen_of_lt (by omega), M.write_of_outside]
    rw [Memory.length_slice]
    omega

end Loops

theorem final_copyWords {dest src : ℤ} (hov : dest ≤ src ∨ g.mwordSize ≤ dest - src) (m : ℕ)
    (M : Memory) : finalMemory (copyWords dest src m : Code g Unit) M
      = M.write dest ((M.seen g.mwordSize dest src).slice src (m * g.mwordSize)) := by
  induction m generalizing dest src M with
  | zero => rw [Nat.zero_mul, Memory.slice_zero, Memory.write_nil]; rfl
  | succ m ih =>
    have hrest := @ih (dest + g.mwordSize) (src + g.mwordSize) (by omega)
      (M.write dest (M.slice src g.mwordSize))
    have hword : M.slice src g.mwordSize = (M.seen g.mwordSize dest src).slice src g.mwordSize := by
      refine Memory.slice_congr fun k hk => ?_
      rcases hov with hle | hle
      · rw [Memory.seen_of_lt (by omega)]
      · rw [Memory.seen_of_le hle, add_sub_cancel_left, Int.emod_eq_of_lt (by omega) (by omega)]
    have hslice : ((M.write dest (M.slice src g.mwordSize)).seen g.mwordSize
          (dest + g.mwordSize) (src + g.mwordSize)).slice (src + g.mwordSize) (m * g.mwordSize)
        = (M.seen g.mwordSize dest src).slice (src + g.mwordSize) (m * g.mwordSize) :=
      Memory.slice_congr fun k _ => seen_write_slice hov (by omega)
    have hloop : finalMemory (copyWords dest src (m + 1) : Code g Unit) M
        = finalMemory (copyWords (dest + g.mwordSize) (src + g.mwordSize) m : Code g Unit)
            (M.write dest (M.slice src g.mwordSize)) := by
      rw [← M.bytes_word]
      rfl
    rw [hloop, hrest, hslice, hword, Memory.write_slice_write, Nat.succ_mul, Nat.add_comm]

section Agree

variable (dest src : ℤ) (n : ℕ)

theorem final_byteCopy (M : Memory) : finalMemory (byteCopy g dest src n) M
    = M.write dest ((M.seen 1 dest src).slice src n) := by
  rw [byteCopy, final_copyWords (by rw [show g.byBytes.mwordSize = 1 from rfl]; omega)]
  rw [show g.byBytes.mwordSize = 1 from rfl, Nat.mul_one]

/-- Byte by byte, a copy is a forward copy with words of one byte. -/
theorem forwardResult_byteCopy (M : Memory) :
    ForwardResult 1 M (finalMemory (byteCopy g dest src n) M) dest src n := by
  rw [final_byteCopy]
  exact forwardResult_write dest src n M

/-- **Where the forward copies do what `byte_copy` does**: everywhere but for a dest less than a
word above src, where they are right and `byte_copy` is not. -/
theorem byteCopy_agrees_iff (g : Geometry) :
    ((∀ M, finalMemory (lsscLf g dest src n) M = finalMemory (byteCopy g dest src n) M)
      ↔ dest ≤ src ∨ g.mwordSize ≤ dest - src ∨ n ≤ dest - src) ∧
    ((∀ M, finalMemory (lsscLft g dest src n) M = finalMemory (byteCopy g dest src n) M)
      ↔ dest ≤ src ∨ g.mwordSize ≤ dest - src ∨ n ≤ dest - src) := by
  have hpos : (0 : ℤ) < g.mwordSize := by exact_mod_cast g.mwordSize_pos
  have hboth : ∀ F : Memory → Memory,
      (∀ M, ForwardResult g.mwordSize M (F M) dest src n) →
      ((∀ M, F M = finalMemory (byteCopy g dest src n) M)
        ↔ dest ≤ src ∨ g.mwordSize ≤ dest - src ∨ n ≤ dest - src) := by
    intro F hF
    constructor
    · intro heq
      by_contra! hnear
      obtain ⟨hgt, hlt, hov⟩ := hnear
      -- byte `dest - src` of dest: of src its byte `dest - src`, or its first one again
      obtain ⟨k, hk⟩ := Int.eq_ofNat_of_zero_le (sub_nonneg.mpr hgt.le)
      have hbyte := (forwardResult_byteCopy (g := g) dest src n (spot src)).inside k (by omega)
      rw [← heq, (hF _).inside k (by omega), if_neg (by omega), if_pos (by omega), hk,
        Int.emod_self, add_zero] at hbyte
      exact spot_ne (a := src) rfl (by omega) hbyte.symm
    · intro hcond M
      refine memory_ext dest n (fun k hk => ?_) fun x hx => ?_
      · rw [(hF M).inside k hk, (forwardResult_byteCopy dest src n M).inside k hk, Nat.cast_one]
        by_cases hle : dest ≤ src
        · rw [if_neg (by omega), if_neg (by omega)]
        · rw [if_pos (show 1 ≤ dest - src by omega)]
          split
          · rfl
          · rw [Int.emod_eq_of_lt (by omega) (by omega)]
      · rw [(hF M).outside x hx, (forwardResult_byteCopy dest src n M).outside x hx]
  exact ⟨hboth _ fun M => (forwardResult_copies g M dest src n).1,
    hboth _ fun M => (forwardResult_copies g M dest src n).2⟩

theorem memcpyWords_of_apart (undef : ℤ → ℤ → Code g Unit) {d s : ℤ}
    (hds : d + g.mwordSize ≤ s ∨ s + g.mwordSize ≤ d) (m : ℕ) :
    memcpyWords undef d s m = copyWords d s m := by
  induction m generalizing d s with
  | zero => rfl
  | succ m ih => rw [memcpyWords, copyWords, memcpyWord, if_pos hds, ih (by omega), bind_assoc]

/-- Where the words overlap, anything may be stored anywhere. -/
theorem final_memcpyWords_poke {d s : ℤ} (hd : ¬(d + g.mwordSize ≤ s ∨ s + g.mwordSize ≤ d))
    (x : ℤ) (b : Byte) (m : ℕ) (M : Memory) :
    finalMemory (memcpyWords (fun _ _ => .store x [b] (pure ())) d s (m + 1) : Code g Unit) M x
      = b := by
  induction m generalizing d s M with
  | zero =>
    rw [memcpyWords, memcpyWord, if_neg hd]
    exact M.write_singleton x b
  | succ m ih =>
    rw [memcpyWords, memcpyWord, if_neg hd]
    exact ih (by omega) (M.write x [b])

/-- **Where `word_copy_ua` does what `lssc_lft` does to the whole words of dest**: wherever C says
what it does, and nowhere else. Its words must not overlap, so dest and src are a word apart, in
whichever direction, or there is no word to be moved. -/
theorem wordCopyUa_agrees_iff (g : Geometry) :
    (∀ undef M, finalMemory (wordCopyUa g undef dest src n) M
        = finalMemory (lsscLft g dest src (n / g.mwordSize * g.mwordSize)) M)
      ↔ g.mwordSize ≤ dest - src ∨ g.mwordSize ≤ src - dest ∨ n < g.mwordSize := by
  have hpos := g.mwordSize_pos
  constructor
  · intro heq
    by_contra! hnear
    obtain ⟨hlt, hlt', hn⟩ := hnear
    obtain ⟨m, hm⟩ := Nat.exists_eq_add_of_lt (Nat.div_pos hn hpos)
    -- a byte behind dest, which `lssc_lft` leaves alone
    have hbyte := congrFun (heq (fun _ _ => .store (dest + (n / g.mwordSize * g.mwordSize : ℕ))
      [1] (pure ())) fun _ => 0) (dest + (n / g.mwordSize * g.mwordSize : ℕ))
    rw [((forwardResult_copies g (fun _ => 0) dest src (n / g.mwordSize * g.mwordSize)).2.outside _
      (by omega)), wordCopyUa, hm, Nat.zero_add, final_memcpyWords_poke (by omega)] at hbyte
    cases hbyte
  · intro hcond undef M
    rw [final_lsscLft_seen, wordCopyUa]
    by_cases hn : n < g.mwordSize
    · rw [Nat.div_eq_of_lt hn, Nat.zero_mul, Memory.slice_zero, Memory.write_nil]
      rfl
    · rw [memcpyWords_of_apart undef (by omega), final_copyWords (by omega)]

end Agree

end Lssc
