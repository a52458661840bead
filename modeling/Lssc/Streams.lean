import Lssc.Carry
import Lssc.Peel

/-!
# The forward routines as streams

Every forward routine makes the accesses of a stream: the plain ones of one that stores whole
words, the thread-safe ones of one that stores aligned units. What a routine does to any memory,
and against any oracle, is from here on a matter of `WordAccess` alone.

## Main results

* `bare_lsscLf`, `bare_lsscLft` — the copies
* `bare_initLf`, `bare_initLft`, `bare_zeroLf`, `bare_zeroLft` — the fills
-/

namespace Lssc

open WordAccess

variable {g : Geometry}

/-! ### Copying -/

/-- The bytes of a word of dest from the first byte of dest on. -/
theorem bytes_shr_margin {c b : MWord g} {j : ℕ} {bs : List Byte} (hj : j ≤ g.mwordSize)
    (hb : bytes g.mwordSize b = bytes j c ++ bs) :
    bytes (g.mwordSize - j) (b >>> (j * 8)) = bs := by
  rw [← drop_bytes hj, hb, List.drop_left' (length_bytes ..)]

theorem bare_head_margin (c : MWord g) (dest : ℤ) {b : MWord g} {bs : List Byte}
    (hj : offset g dest ≠ 0) (hb : bytes g.mwordSize b = bytes (offset g dest) c ++ bs) :
    (Lft.head dest (b >>> (offset g dest * 8)) (g.mwordSize - offset g dest)).bare
      = emitUnits dest bs := by
  have hmod := natCast_offset g dest
  have hlt := offset_lt g dest
  rw [Lft.bare_head (by omega) (by omega), bytes_shr_margin hlt.le hb]

theorem lsscLft.edges_emits : (lsscLft.edges g).Emits fun _ => emitUnits where
  word c d x hd := emitUnits_word hd x
  only c dest n a hn hend := by
    have hmod := natCast_offset g dest
    exact Lft.bare_head (by omega) (by omega) a
  first c dest b bs hb := by
    by_cases hj : offset g dest = 0
    · have hd : (g.mwordSize : ℤ) ∣ dest := by
        refine Int.dvd_of_emod_eq_zero ?_
        rw [← natCast_offset, hj, Nat.cast_zero]
      rw [hj, bytes_zero, List.nil_append] at hb
      rw [← hb, emitUnits_word hd, align_eq, hj, Nat.cast_zero, sub_zero]
      rfl
    · rw [← bare_head_margin c dest hj hb]
      simp [lsscLft.edges, hj]
  firstInPhase c dest b bs hj hb := by
    rw [← bare_head_margin c dest hj hb]
    simp [lsscLft.edges]
  last c d n b hd hn hnh := Lft.bare_heel hnh (fun k hk =>
    (Int.natCast_dvd_natCast.mpr (two_pow_dvd_mwordSize (by omega))).trans hd) b

theorem emitWord_eq (c : MWord g) (dest : ℤ) (bs : List Byte) :
    (emitWord .d c dest bs : Code g Unit)
      = if offset g dest + bs.length < g.mwordSize then
          .load .d (align g dest) fun c' =>
            .store (align g dest)
              (bytes (offset g dest) c ++ bs
                ++ (bytes g.mwordSize c').drop (offset g dest + bs.length)) (pure ())
        else .store (align g dest) (bytes (offset g dest) c ++ bs) (pure ()) := by
  rw [align_eq, natCast_offset, emitWord, ← natCast_offset, Int.toNat_natCast]

theorem storeWord_margin (c : MWord g) (dest : ℤ) {b : MWord g} {bs : List Byte}
    (hb : bytes g.mwordSize b = bytes (offset g dest) c ++ bs) :
    storeWord (align g dest) b = emitWord .d c dest bs := by
  have hlen := congrArg List.length hb
  rw [List.length_append, length_bytes, length_bytes] at hlen
  rw [emitWord_eq, if_neg (by omega), ← hb]
  rfl

/-- All of dest in one word: the margin before it, dest itself, and the margin behind it. -/
theorem bytes_only {j n : ℕ} (hend : j + n < g.mwordSize) (a c c' : MWord g) :
    bytes g.mwordSize ((c &&& ~~~(ones g <<< (j * 8))) ||| (c' &&& ones g <<< (j * 8 + n * 8))
        ||| (a <<< (j * 8) &&& ~~~(ones g <<< (j * 8 + n * 8))))
      = bytes j c ++ bytes n a ++ (bytes g.mwordSize c').drop (j + n) := by
  refine bytes_eq (by simp; omega) fun k hk => ?_
  rw [byte_or, byte_or, ones_eq, ← Nat.add_mul, byte_and_not_mask, byte_and_mask,
    byte_and_not_mask, byte_shiftLeft _ _ hk, List.getElem?_append, List.getElem?_append,
    List.getElem?_drop, List.length_append, length_bytes, length_bytes]
  rcases lt_or_ge k j with hkj | hkj
  · have hkn : k < j + n := by omega
    simp [hkj, hkn]
  rcases lt_or_ge k (j + n) with hkn | hkn
  · have hlow : ¬k < j := by omega
    have hmid : k - j < n := by omega
    simp [hlow, hmid, hkn]
  · have hlow : ¬k < j := by omega
    have hmid : ¬k < j + n := by omega
    simp [hlow, hmid, hk, Nat.add_sub_of_le hkn]

theorem lsscLf.edges_emits : (lsscLf.edges g).Emits (emitWord .d) where
  word c d x hd := by
    have hmod := Int.emod_eq_zero_of_dvd hd
    rw [emitWord, hmod, if_neg (by simp), sub_zero]
    rfl
  only c dest n a hn hend := by
    rw [emitWord_eq, length_bytes, if_pos hend]
    refine congrArg (Program.load Ptr.d _) (funext fun c' => ?_)
    rw [← bytes_only hend]
    rfl
  first c dest b bs hb := storeWord_margin c dest hb
  firstInPhase c dest b bs _ hb := storeWord_margin c dest hb
  last c d n b hd hn hnh := by
    have hmod := natCast_offset g d
    rw [Int.emod_eq_zero_of_dvd hd] at hmod
    have hj : offset g d = 0 := by omega
    rw [emitWord_eq, length_bytes, if_pos (by omega), align_eq, hj, Nat.cast_zero, sub_zero,
      Nat.zero_add, bytes_zero, List.nil_append]
    refine congrArg (Program.load Ptr.d _) (funext fun c' => ?_)
    rw [← bytes_merge hnh.le, ← ones_eq]
    rfl

/-- **`lssc_lf` is a copy by whole words.** -/
theorem bare_lsscLf (dest src : ℤ) (n : ℕ) :
    (lsscLf g dest src n).bare = copyStream .s .d (emitWord .d) dest src n :=
  Forward.bare_copy lsscLf.edges_emits dest src n

/-- **`lssc_lft` is a copy by aligned units.** -/
theorem bare_lsscLft (dest src : ℤ) (n : ℕ) :
    (lsscLft g dest src n).bare = copyStream .s .d (fun _ => emitUnits) dest src n :=
  Forward.bare_copy lsscLft.edges_emits dest src n

/-! ### The word of a fill -/

/-- Every byte of `s` is `x`. -/
def Uniform (x : Byte) (s : MWord g) : Prop := ∀ k < g.mwordSize, byte s k = x

theorem Uniform.bytes_eq {x : Byte} {s : MWord g} (hs : Uniform x s) {n : ℕ}
    (hn : n ≤ g.mwordSize) : bytes n s = List.replicate n x :=
  WordAccess.bytes_eq (List.length_replicate ..) fun k hk => by
    rw [List.getElem?_replicate, if_pos hk, hs k (by omega)]

theorem Uniform.bytes_shr {x : Byte} {s : MWord g} (hs : Uniform x s) {j n : ℕ}
    (hn : j + n ≤ g.mwordSize) : bytes n (s >>> (j * 8)) = List.replicate n x :=
  WordAccess.bytes_eq (List.length_replicate ..) fun k hk => by
    rw [List.getElem?_replicate, if_pos hk, byte_ushiftRight, hs _ (by omega)]

/-- The loop doubles the number of bytes that are filled. -/
theorem bare_spread {x : Byte} {t m : ℕ} (ht : 0 < t) (htm : t = m * 8) {s : MWord g}
    (hs : ∀ k < g.mwordSize, byte s k = if k < m then x else 0) :
    ∃ s', (spread t ht s).bare = pure s' ∧ Uniform x s' := by
  induction t, ht, s using spread.induct generalizing m with
  | case1 t ht s hlt ih =>
    have hnext : ∀ k < g.mwordSize, byte (s ||| s <<< t) k = if k < m + m then x else 0 := by
      intro k hk
      rw [byte_or, htm, byte_shiftLeft _ _ hk, hs k hk]
      rcases lt_or_ge k m with hkm | hkm
      · simp [hkm, show k < m + m by omega]
      · rw [hs (k - m) (by omega)]
        simp [Nat.not_lt.mpr hkm, show k - m < m ↔ k < m + m by omega]
    obtain ⟨s', hs', hunif⟩ := ih (s <<< t) (by omega) hnext
    refine ⟨s', ?_, hunif⟩
    rw [spread, if_pos hlt, ← hs']
    simp
  | case2 t ht s hge =>
    rw [spread, if_neg hge]
    exact ⟨s, rfl, fun k hk => by rw [hs k hk, if_pos (by omega)]⟩

theorem byte_ucharWord (ch : ℤ) {k : ℕ} (hk : k < g.mwordSize) :
    byte (ucharWord g ch) k = if k < 1 then BitVec.ofInt 8 ch else 0 := by
  apply BitVec.eq_of_getLsbD_eq
  intro i hi
  rw [getLsbD_byte, ucharWord, BitVec.getLsbD_setWidth]
  rcases Nat.eq_zero_or_pos k with rfl | hpos
  · simp [hi, show i < g.mwordSize * 8 by omega]
  · rw [BitVec.getLsbD_of_ge _ _ (by omega), if_neg (by omega)]
    simp

/-- The word `init_lf` and `init_lft` fill with. -/
theorem exists_bare_spread (ch : ℤ) :
    ∃ s, (spread 8 charBit_pos (ucharWord g ch)).bare = pure s ∧
      Uniform (BitVec.ofInt 8 ch) s :=
  bare_spread (m := 1) _ rfl fun _ hk => byte_ucharWord ch hk

theorem uniform_zero : Uniform 0 (0 : MWord g) := fun k _ => byte_zero k

/-! ### Filling -/

section Filling

variable {x : Byte} {s : MWord g} {dest : ℤ} {n : ℕ}

/-- The whole words of dest and the tail, for a tail that stores what an emitter stores. -/
theorem bare_storeNext {emit : ℤ → List Byte → Code g Unit} (last : ℤ → ℕ → Code g Unit)
    (hword : ∀ d : ℤ, (g.mwordSize : ℤ) ∣ d → emit d (List.replicate g.mwordSize x) = storeWord d s)
    (hlast : ∀ (d : ℤ) (n : ℕ), (g.mwordSize : ℤ) ∣ d → 0 < n → n < g.mwordSize →
      (last d n).bare = emit d (List.replicate n x)) {d : ℤ} (hd : (g.mwordSize : ℤ) ∣ d) :
    (whileWords (storeNext s) n d >>= fun y => if y.2 ≠ 0 then last y.1 y.2 else pure ()).bare
      = deliver (constSupply x) emit ((wordCutter g.mwordSize).cuts d n) () := by
  induction n using Nat.strong_induction_on generalizing d with
  | h n ih =>
    have hmod : d % (g.mwordSize : ℤ) = (0 : ℕ) := Int.emod_eq_zero_of_dvd hd
    rcases lt_or_ge n g.mwordSize with hn | hn
    · rw [whileWords_of_lt _ _ hn, pure_bind]
      by_cases hzero : n = 0
      · rw [hzero, Cutter.cuts_zero]
        rfl
      · rw [cuts_word_single (by omega) (by omega), deliver_singleton]
        simp only [ne_eq, hzero, not_false_eq_true, if_true]
        exact hlast d n hd (by omega) hn
    · have hpos := g.mwordSize_pos
      have hnext : (g.mwordSize : ℤ) ∣ d + g.mwordSize := Int.dvd_add hd (Int.dvd_refl _)
      rw [Program.bare_bind, bare_whileWords_of_le _ _ hn, bind_assoc,
        cuts_word_cons hmod (by omega), deliver_const_cons, Nat.sub_zero, Nat.cast_zero, sub_zero,
        ← ih (n - g.mwordSize) (by omega) hnext, hword d hd, Program.bare_bind]
      rfl

theorem bare_initLft_finish (hs : Uniform x s) {d : ℤ} (hd : (g.mwordSize : ℤ) ∣ d) :
    (initLft.finish s d n).bare
      = deliver (constSupply x) emitUnits ((wordCutter g.mwordSize).cuts d n) () := by
  refine bare_storeNext (fun d n => Lft.heel d s n) (fun d hd => ?_) (fun d n hd hn hnh => ?_) hd
  · rw [← hs.bytes_eq le_rfl]
    exact emitUnits_word hd s
  · rw [← hs.bytes_eq hnh.le]
    exact lsscLft.edges_emits.last 0 s hd hn hnh

/-- What `init_lft` and `zero_lft` do with a word `s` to fill with, of which `a` is the part that
the first word of dest gets. -/
theorem bare_peel_then_finish (hs : Uniform x s) {a : MWord g}
    (ha : ∀ m ≤ g.mwordSize - offset g dest, bytes m a = List.replicate m x) (hn : n ≠ 0) :
    (if offset g dest ≠ 0 then
        if n < g.mwordSize - offset g dest then (Lft.head dest a n).bare
        else (Lft.head dest a (g.mwordSize - offset g dest)).bare >>= fun _ =>
          (initLft.finish s (align g dest + g.mwordSize)
            (n - (g.mwordSize - offset g dest))).bare
      else (initLft.finish s (align g dest) n).bare) = fillUnits x dest n := by
  have hj := offset_lt g dest
  have hjmod := natCast_offset g dest
  rw [fillUnits]
  by_cases hzero : offset g dest = 0
  · rw [if_neg (not_not.mpr hzero), align_of_offset_eq_zero hzero]
    exact bare_initLft_finish hs (dvd_of_offset_eq_zero hzero)
  · rw [if_pos hzero, bare_initLft_finish hs (dvd_align_add g dest),
      deliver_const_first _ _ hjmod.symm (by omega), align_eq]
    split
    · rw [Lft.bare_head (by omega) (by omega), ha _ (by omega)]
    · rw [Lft.bare_head (by omega) (by omega), ha _ le_rfl]

/-- **`init_lft` fills by aligned units.** -/
theorem bare_initLft (dest ch : ℤ) (n : ℕ) :
    (initLft g dest ch n).bare = fillUnits (BitVec.ofInt 8 ch) dest n := by
  obtain ⟨s, hspread, hs⟩ := exists_bare_spread (g := g) ch
  have hj := offset_lt g dest
  rw [initLft]
  by_cases hn : n = 0
  · rw [if_pos hn, fillUnits, hn, Cutter.cuts_zero]
    rfl
  have hpart : ∀ m ≤ g.mwordSize - offset g dest,
      bytes m (s >>> (offset g dest * 8)) = List.replicate m (BitVec.ofInt 8 ch) :=
    fun m hm => hs.bytes_shr (by omega)
  rw [if_neg hn, ← bare_peel_then_finish hs hpart hn]
  simp only [Program.bare_bind, hspread, pure_bind, Program.bare_ite, bare_sub, bare_mul, bare_shr]

/-- **`zero_lft` clears by aligned units.** -/
theorem bare_zeroLft (dest : ℤ) (n : ℕ) : (zeroLft g dest n).bare = fillUnits 0 dest n := by
  rw [zeroLft]
  by_cases hn : n = 0
  · rw [if_pos hn, fillUnits, hn, Cutter.cuts_zero]
    rfl
  rw [if_neg hn,
    ← bare_peel_then_finish uniform_zero (fun m hm => uniform_zero.bytes_eq (by omega)) hn]
  simp only [Program.bare_bind, pure_bind, Program.bare_ite, bare_sub]
  rfl

theorem bare_initLf_finish (hs : Uniform x s) (c : MWord g) {d : ℤ}
    (hd : (g.mwordSize : ℤ) ∣ d) :
    (initLf.finish s d n).bare
      = deliver (constSupply x) (emitWord .d c) ((wordCutter g.mwordSize).cuts d n) () := by
  rw [initLf.finish]
  refine bare_storeNext (fun d n => do
    let k ← mul n 8
    let x := s &&& ~~~(← shl (ones g) k)
    let y := (← load .d d) &&& (← shl (ones g) k)
    storeWord d (x ||| y)) (fun d hd => ?_) (fun d n hd hn hnh => ?_) hd
  · rw [← hs.bytes_eq le_rfl]
    exact lsscLf.edges_emits.word c s hd
  · rw [← hs.bytes_eq hnh.le, ← lsscLf.edges_emits.last c s hd hn hnh]
    rfl

/-- The end of `zero_lf` is that of `init_lf` for the byte `0`. -/
theorem bare_zeroLf_finish (c : MWord g) {d : ℤ} (hd : (g.mwordSize : ℤ) ∣ d) :
    (zeroLf.finish d n : Code g Unit).bare
      = deliver (constSupply 0) (emitWord .d c) ((wordCutter g.mwordSize).cuts d n) () := by
  rw [zeroLf.finish]
  refine bare_storeNext (fun d n => do
    let x ← load .d d
    let y ← shl (ones g) (← mul n 8)
    storeWord d (x &&& y)) (fun d hd => ?_) (fun d n hd hn hnh => ?_) hd
  · rw [← uniform_zero.bytes_eq le_rfl]
    exact lsscLf.edges_emits.word c 0 hd
  · rw [← uniform_zero.bytes_eq hnh.le, ← lsscLf.edges_emits.last c 0 hd hn hnh]
    refine congrArg (Program.load Ptr.d _) (funext fun c' => ?_)
    change storeWord d (c' &&& ones g <<< (n * 8))
      = storeWord d (0 &&& ~~~(ones g <<< (n * 8)) ||| (c' &&& ones g <<< (n * 8)))
    simp

/-- A fill by words that starts at a word boundary. -/
theorem fillWords_of_offset_eq_zero (x : Byte) (hzero : offset g dest = 0) (hn : n ≠ 0) :
    (fillWords .d x dest n : Code g Unit)
      = deliver (constSupply x) (emitWord .d 0) ((wordCutter g.mwordSize).cuts dest n) () := by
  have hmod := natCast_offset g dest
  rw [fillWords, if_neg hn, if_pos (by omega)]

/-- A fill by words that starts inside a word, and perhaps ends there. -/
theorem fillWords_of_offset_ne_zero (x : Byte) (hzero : offset g dest ≠ 0) (hn : n ≠ 0) :
    (fillWords .d x dest n : Code g Unit) = .load .d (align g dest) fun c =>
      if n < g.mwordSize - offset g dest then emitWord .d c dest (List.replicate n x)
      else emitWord .d c dest (List.replicate (g.mwordSize - offset g dest) x) >>= fun _ =>
        deliver (constSupply x) (emitWord .d c) ((wordCutter g.mwordSize).cuts
          (align g dest + g.mwordSize) (n - (g.mwordSize - offset g dest))) () := by
  have hmod := natCast_offset g dest
  rw [fillWords, if_neg hn, if_neg (by omega), ← natCast_offset, ← align_eq]
  refine congrArg (Program.load Ptr.d _) (funext fun c => ?_)
  rw [deliver_const_first _ _ hmod.symm (by omega), ← align_eq]

/-- **`init_lf` fills by whole words.** -/
theorem bare_initLf (dest ch : ℤ) (n : ℕ) :
    (initLf g dest ch n).bare = fillWords .d (BitVec.ofInt 8 ch) dest n := by
  obtain ⟨s, hspread, hs⟩ := exists_bare_spread (g := g) ch
  have hj := offset_lt g dest
  rw [initLf]
  by_cases hn : n = 0
  · rw [if_pos hn, fillWords, if_pos hn]
    rfl
  rw [if_neg hn]
  simp only [Program.bare_bind, hspread, pure_bind, Program.bare_ite, bare_sub, bare_mul, bare_shr,
    bare_shl, bare_add, load_bind, Program.bare_load]
  by_cases hzero : offset g dest = 0
  · rw [if_neg (not_not.mpr hzero), fillWords_of_offset_eq_zero _ hzero hn,
      align_of_offset_eq_zero hzero]
    exact bare_initLf_finish hs 0 (dvd_of_offset_eq_zero hzero)
  rw [if_pos hzero, fillWords_of_offset_ne_zero _ hzero hn]
  refine congrArg (Program.load Ptr.d _) (funext fun c => ?_)
  rw [← bare_initLf_finish hs c (dvd_align_add g dest)]
  split
  · rw [← hs.bytes_shr (j := offset g dest) (by omega),
      ← lsscLf.edges_emits.only c dest _ (by omega) (by omega)]
    rfl
  · have hfirst := Forward.bytes_margin_or hj.le c (s >>> (offset g dest * 8))
    rw [hs.bytes_shr (by omega)] at hfirst
    rw [← storeWord_margin c dest hfirst]
    rfl

/-- **`zero_lf` clears by whole words.** -/
theorem bare_zeroLf (dest : ℤ) (n : ℕ) : (zeroLf g dest n).bare = fillWords .d 0 dest n := by
  have hj := offset_lt g dest
  rw [zeroLf]
  by_cases hn : n = 0
  · rw [if_pos hn, fillWords, if_pos hn]
    rfl
  rw [if_neg hn]
  simp only [Program.bare_bind, pure_bind, Program.bare_ite, bare_sub, bare_mul, bare_shl,
    bare_add, load_bind, Program.bare_load]
  by_cases hzero : offset g dest = 0
  · rw [if_neg (not_not.mpr hzero), fillWords_of_offset_eq_zero _ hzero hn,
      align_of_offset_eq_zero hzero]
    exact bare_zeroLf_finish 0 (dvd_of_offset_eq_zero hzero)
  rw [if_pos hzero, fillWords_of_offset_ne_zero _ hzero hn]
  refine congrArg (Program.load Ptr.d _) (funext fun c => ?_)
  rw [← bare_zeroLf_finish c (dvd_align_add g dest)]
  split
  · -- there is no word to shift into place, only two masks
    rw [← uniform_zero.bytes_eq (g := g) (n := n) (by omega),
      ← lsscLf.edges_emits.only c dest 0 (by omega) (by omega)]
    refine congrArg (Program.load Ptr.d _) (funext fun c' => ?_)
    change storeWord _ (_ ||| _)
      = storeWord _ (_ ||| _ ||| ((0 : MWord g) <<< _ &&& ~~~(ones g <<< (_ + n * 8))))
    simp
  · have hfirst := Forward.bytes_margin_or hj.le c 0
    rw [uniform_zero.bytes_eq (by omega)] at hfirst
    rw [← storeWord_margin c dest hfirst]
    simp

end Filling

end Lssc
