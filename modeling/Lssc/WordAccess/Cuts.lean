import Lssc.WordAccess.Alignment
import Lssc.WordAccess.Mirror

/-!
# Cutting a range into aligned pieces

A `Cutter` says how wide the first piece of a range is, given where the range starts and how
long it is. Iterating it cuts the range into pieces that follow each other, and a row of bytes
placed there into the bytes of each piece.

The cutter of word accesses is `wordCutter`, which cuts at every multiple of the word size, so
that its pieces are the intersections of the range with the aligned words.

## Main definitions

* `Cutter`, `Cutter.cuts`, `Cutter.chop` — cutting a range, and cutting a row of bytes
* `Cutter.cutsDown` — cutting a range from its end
* `wordCutter`, `words`
* `CoversUpTo`, `CoversDownTo` — a range filled from one end
* `WordMeets`, `EachWord` — the words of a range, without saying how to compute them

## Main results

* `Cutter.countP_cuts` — every address of the range is in exactly one piece
* `Cutter.foldl_write_chop` — writing the pieces one by one writes the row
* `pairwise_words`, `mem_words` — the words of a range, each once and in ascending order
* `mem_words_iff_wordMeets`, `eachWord_words`
-/

namespace WordAccess

/-- How wide the first piece of a range is, from where it starts and how long it is. -/
structure Cutter where
  /-- The width of the first piece of `[a, a + n)`. -/
  width : ℤ → ℕ → ℕ
  /-- A nonempty range has a nonempty first piece. -/
  pos : ∀ a n, 0 < n → 0 < width a n
  /-- No piece reaches past the end. -/
  le : ∀ a n, width a n ≤ n

namespace Cutter

variable (C : Cutter)

/-- The pieces of `[a, a + n)`: where each starts and how wide it is. -/
def cuts (a : ℤ) (n : ℕ) : List (ℤ × ℕ) :=
  if n = 0 then [] else (a, C.width a n) :: cuts (a + C.width a n) (n - C.width a n)
termination_by n
decreasing_by have := C.pos a n (by omega); omega

/-- The row `bs`, placed at `a`, cut into the bytes of each piece. -/
def chop (a : ℤ) (bs : List Byte) : List (ℤ × List Byte) :=
  if bs.length = 0 then []
  else (a, bs.take (C.width a bs.length)) ::
    chop (a + C.width a bs.length) (bs.drop (C.width a bs.length))
termination_by bs.length
decreasing_by have := C.pos a bs.length (by omega); rw [List.length_drop]; omega

/-- The pieces of `[e - n, e)` taken from the end, for a width that looks at the end. -/
def cutsDown (e : ℤ) (n : ℕ) : List (ℤ × ℕ) :=
  if n = 0 then []
  else (e - C.width e n, C.width e n) :: cutsDown (e - C.width e n) (n - C.width e n)
termination_by n
decreasing_by have := C.pos e n (by omega); omega

@[simp] theorem cuts_zero (a : ℤ) : C.cuts a 0 = [] := by rw [cuts]; rfl

@[simp] theorem chop_nil (a : ℤ) : C.chop a [] = [] := by rw [chop]; rfl

theorem cuts_of_pos (a : ℤ) {n : ℕ} (hn : 0 < n) :
    C.cuts a n = (a, C.width a n) :: C.cuts (a + C.width a n) (n - C.width a n) := by
  rw [cuts, if_neg (by omega)]

theorem chop_of_pos (a : ℤ) {bs : List Byte} (hbs : 0 < bs.length) :
    C.chop a bs = (a, bs.take (C.width a bs.length)) ::
      C.chop (a + C.width a bs.length) (bs.drop (C.width a bs.length)) := by
  rw [chop, if_neg (by omega)]

/-- Cutting a row of bytes cuts the range it occupies. -/
theorem extents_chop (a : ℤ) (bs : List Byte) :
    extents (C.chop a bs) = C.cuts a bs.length := by
  induction a, bs using chop.induct C with
  | case1 a bs hbs => rw [chop, if_pos hbs, hbs, cuts_zero, extents_nil]
  | case2 a bs hbs ih =>
    rw [chop, if_neg hbs, C.cuts_of_pos a (by omega), extents_cons, ih, List.length_take,
      List.length_drop, Nat.min_eq_left (C.le a bs.length)]

/-- Writing the pieces one by one writes the row. -/
theorem foldl_write_chop (a : ℤ) (bs : List Byte) (M : Memory) :
    (C.chop a bs).foldl (fun N s => N.write s.1 s.2) M = M.write a bs := by
  induction a, bs using chop.induct C generalizing M with
  | case1 a bs hbs =>
    rw [chop, if_pos hbs, List.eq_nil_of_length_eq_zero hbs, Memory.write_nil, List.foldl_nil]
  | case2 a bs hbs ih =>
    have hlen : (bs.take (C.width a bs.length)).length = C.width a bs.length := by
      rw [List.length_take, Nat.min_eq_left (C.le a bs.length)]
    have hjoin := M.write_write a (bs.take (C.width a bs.length)) (bs.drop (C.width a bs.length))
    rw [hlen, List.take_append_drop] at hjoin
    rw [chop, if_neg hbs, List.foldl_cons, ih, hjoin]

/-- Every piece lies in the range. -/
theorem mem_cuts {a : ℤ} {n : ℕ} {s : ℤ × ℕ} (hs : s ∈ C.cuts a n) :
    a ≤ s.1 ∧ s.1 + s.2 ≤ a + n ∧ 0 < s.2 := by
  induction a, n using cuts.induct C with
  | case1 a => rw [cuts_zero] at hs; cases hs
  | case2 a n hn ih =>
    have hpos := C.pos a n (by omega)
    have hle := C.le a n
    rw [C.cuts_of_pos a (by omega)] at hs
    rcases List.mem_cons.mp hs with rfl | hs
    · exact ⟨le_rfl, by simpa using hle, hpos⟩
    · have := ih hs
      omega

/-- **Every address of the range is in exactly one piece**, and no other address is in any. -/
theorem countP_cuts (a : ℤ) (n : ℕ) (x : ℤ) :
    (C.cuts a n).countP (fun s => s.1 ≤ x ∧ x < s.1 + s.2)
      = if a ≤ x ∧ x < a + n then 1 else 0 := by
  induction a, n using cuts.induct C with
  | case1 a => rw [cuts_zero, List.countP_nil, if_neg (by omega)]
  | case2 a n hn ih =>
    have hpos := C.pos a n (by omega)
    have hle := C.le a n
    rw [C.cuts_of_pos a (by omega), List.countP_cons, ih]
    simp only [decide_eq_true_eq]
    split_ifs <;> omega

/-- Cutting from the end is cutting the reflected range, for a width that a change of sign does
not affect. -/
theorem cutsDown_eq (hC : ∀ a n, C.width (-a) n = C.width a n) (e : ℤ) (n : ℕ) :
    C.cutsDown e n = (C.cuts (0 - e) n).map (reflectExtent 0) := by
  induction e, n using cutsDown.induct C with
  | case1 e => rw [cutsDown, if_pos rfl, cuts_zero, List.map_nil]
  | case2 e n hn ih =>
    have hwidth : C.width (0 - e) n = C.width e n := by rw [zero_sub, hC]
    rw [cutsDown, if_neg hn, C.cuts_of_pos _ (by omega), List.map_cons, ih, hwidth, reflectExtent,
      show 0 - (e - (C.width e n : ℤ)) = 0 - e + C.width e n by ring,
      show 0 - (0 - e) - (C.width e n : ℤ) = e - C.width e n by ring]

end Cutter

/-! ### Ranges filled so far -/

/-- `l` holds every address of `[a, e)` and reaches no further than `e`. -/
structure CoversUpTo (a e : ℤ) (l : List (ℤ × ℕ)) : Prop where
  covers : ∀ x, a ≤ x → x < e → ∃ s ∈ l, s.1 ≤ x ∧ x < s.1 + s.2
  within : ∀ s ∈ l, s.1 + s.2 ≤ e

/-- `l` holds every address of `[a, e)` and reaches no further down than `a`. -/
structure CoversDownTo (a e : ℤ) (l : List (ℤ × ℕ)) : Prop where
  covers : ∀ x, a ≤ x → x < e → ∃ s ∈ l, s.1 ≤ x ∧ x < s.1 + s.2
  within : ∀ s ∈ l, a ≤ s.1

section Covers

variable {a m e : ℤ} {l l' : List (ℤ × ℕ)}

theorem CoversUpTo.append (hl : CoversUpTo a m l) (hl' : CoversUpTo m e l') (hme : m ≤ e) :
    CoversUpTo a e (l ++ l') where
  covers x hlow hhigh := by
    rcases lt_or_ge x m with hx | hx
    · obtain ⟨s, hs, hin⟩ := hl.covers x hlow hx
      exact ⟨s, List.mem_append_left _ hs, hin⟩
    · obtain ⟨s, hs, hin⟩ := hl'.covers x hx hhigh
      exact ⟨s, List.mem_append_right _ hs, hin⟩
  within s hs := by
    rcases List.mem_append.mp hs with hs | hs
    · exact (hl.within s hs).trans hme
    · exact hl'.within s hs

theorem coversUpTo_singleton {d : ℤ} {n : ℕ} (hd : d ≤ a) (he : d + n = e) :
    CoversUpTo a e [(d, n)] where
  covers x hlow hhigh := ⟨(d, n), List.mem_singleton_self _, by dsimp only; omega⟩
  within s hs := by
    obtain rfl := List.mem_singleton.mp hs
    exact he.le

theorem Cutter.coversUpTo_cuts (C : Cutter) (a : ℤ) (n : ℕ) :
    CoversUpTo a (a + n) (C.cuts a n) where
  covers x hlow hhigh := by
    have hcount := C.countP_cuts a n x
    rw [if_pos ⟨hlow, hhigh⟩] at hcount
    obtain ⟨s, hs, hin⟩ := List.countP_pos_iff.mp (hcount ▸ Nat.one_pos)
    exact ⟨s, hs, of_decide_eq_true hin⟩
  within s hs := (C.mem_cuts hs).2.1

theorem CoversUpTo.reflect {K : ℤ} (hl : CoversUpTo (K - e) (K - a) l) :
    CoversDownTo a e (l.map (reflectExtent K)) where
  covers x hlow hhigh := by
    obtain ⟨s, hs, hin⟩ := hl.covers (K - 1 - x) (by omega) (by omega)
    refine ⟨reflectExtent K s, List.mem_map_of_mem hs, ?_⟩
    simp only [reflectExtent]
    omega
  within := by
    simp only [List.forall_mem_map, reflectExtent]
    intro s hs
    have := hl.within s hs
    omega

end Covers

/-! ### Words -/

section Words

variable (h : ℕ) [NeZero h]

/-- Cut at every multiple of `h`. -/
def wordCutter : Cutter where
  width a n := min n (h - (a % h).toNat)
  pos a n hn := by
    have := emod_lt_natCast h a
    have := Nat.pos_of_neZero h
    omega
  le _ _ := Nat.min_le_left ..

/-- The aligned words that meet `[a, a + n)`. -/
def words (a : ℤ) (n : ℕ) : List ℤ := ((wordCutter h).cuts a n).map fun s => s.1 - s.1 % h

variable {h}

/-- The first piece of a range ends at a multiple of `h` or at the end of the range. -/
theorem dvd_add_wordCutter_width (a : ℤ) (n : ℕ) (hn : (wordCutter h).width a n < n) :
    (h : ℤ) ∣ a + (wordCutter h).width a n := by
  have hlt := emod_lt_natCast h a
  have hnonneg := emod_nonneg_natCast h a
  have hw : ((wordCutter h).width a n : ℤ) = h - a % h := by
    simp only [wordCutter] at hn ⊢
    omega
  rw [hw, show a + (h - a % h) = h + (a - a % h) by ring]
  exact Int.dvd_add (Int.dvd_refl _) (dvd_sub_emod a)

/-- A range inside a word is one piece. -/
theorem cuts_word_single {a : ℤ} {n : ℕ} (hn : 0 < n) (hend : a % h + n ≤ h) :
    (wordCutter h).cuts a n = [(a, n)] := by
  have hnonneg := emod_nonneg_natCast h a
  have hwidth : (wordCutter h).width a n = n := Nat.min_eq_left (by omega)
  rw [Cutter.cuts_of_pos _ _ hn, hwidth, Nat.sub_self, Cutter.cuts_zero]

/-- A range that reaches the end of its first word. -/
theorem cuts_word_cons {a : ℤ} {n j : ℕ} (hj : a % h = j) (hn : h - j ≤ n) :
    (wordCutter h).cuts a n
      = (a, h - j) :: (wordCutter h).cuts (a - j + h) (n - (h - j)) := by
  have hlt := emod_lt_natCast h a
  have hwidth : (wordCutter h).width a n = h - j := by
    change min n (h - (a % h).toNat) = h - j
    rw [hj, Int.toNat_natCast]
    exact Nat.min_eq_right hn
  rw [Cutter.cuts_of_pos _ _ (by omega), hwidth, Nat.cast_sub (by omega)]
  congr 2
  ring

@[simp] theorem words_zero (a : ℤ) : words h a 0 = [] := by rw [words, Cutter.cuts_zero]; rfl

/-- The first word of an aligned range, and the others. -/
theorem words_of_dvd {a : ℤ} {n : ℕ} (ha : (h : ℤ) ∣ a) (hn : 0 < n) :
    words h a n = a :: words h (a + h) (n - h) := by
  have hmod : a % (h : ℤ) = 0 := Int.emod_eq_zero_of_dvd ha
  rcases Nat.lt_or_ge n h with hlt | hge
  · rw [Nat.sub_eq_zero_of_le hlt.le, words_zero, words, cuts_word_single hn (by omega)]
    simp [hmod]
  · rw [words, cuts_word_cons (j := 0) hmod (by omega), List.map_cons, words, hmod, sub_zero,
      Nat.sub_zero, Nat.cast_zero, sub_zero]

/-- The word a range starts in, and the words of what is left. -/
theorem words_of_pos {a : ℤ} {n j : ℕ} (hj : a % h = j) (hn : 0 < n) :
    words h a n = (a - j) :: words h (a - j + h) (n - (h - j)) := by
  rcases Nat.lt_or_ge n (h - j) with hlt | hge
  · rw [Nat.sub_eq_zero_of_le hlt.le, words_zero, words, cuts_word_single hn (by omega),
      List.map_singleton, hj]
  · rw [words, cuts_word_cons hj hge, List.map_cons, words, hj]

theorem mem_words_ge {a x : ℤ} {n : ℕ} (hx : x ∈ words h a n) : a - a % h ≤ x := by
  obtain ⟨s, hs, rfl⟩ := List.mem_map.mp hx
  have hnonneg := emod_nonneg_natCast h a
  have := (wordCutter h).mem_cuts hs
  exact le_sub_emod (dvd_sub_emod a) (by omega)

/-- The words of a range come **in ascending order**, hence each once. -/
theorem pairwise_words (a : ℤ) (n : ℕ) : (words h a n).Pairwise (· < ·) := by
  rw [words]
  induction a, n using Cutter.cuts.induct (wordCutter h) with
  | case1 a => rw [Cutter.cuts_zero]; exact .nil
  | case2 a n hn ih =>
    rw [Cutter.cuts_of_pos _ _ (by omega), List.map_cons, List.pairwise_cons]
    refine ⟨fun x hx => ?_, ih⟩
    have hle := (wordCutter h).le a n
    have hrest : (wordCutter h).width a n < n := by
      by_contra hcon
      rw [show n - (wordCutter h).width a n = 0 by omega, Cutter.cuts_zero] at hx
      cases hx
    have hend := dvd_add_wordCutter_width a n hrest
    have hpos := (wordCutter h).pos a n (by omega)
    have hge := mem_words_ge (h := h) hx
    have hmod := Int.emod_eq_zero_of_dvd hend
    have := emod_nonneg_natCast h a
    dsimp only
    omega

/-- **The words of a range** are the starts of the aligned words that hold one of its bytes. -/
theorem mem_words {a x : ℤ} {n : ℕ} :
    x ∈ words h a n ↔ ∃ y, a ≤ y ∧ y < a + n ∧ y - y % h = x := by
  rw [words]
  induction a, n using Cutter.cuts.induct (wordCutter h) with
  | case1 a =>
    rw [Cutter.cuts_zero]
    simp only [List.map_nil, List.not_mem_nil, false_iff]
    rintro ⟨y, hay, hya, -⟩
    omega
  | case2 a n hn ih =>
    have hle := (wordCutter h).le a n
    have hpos := (wordCutter h).pos a n (by omega)
    have hlt := emod_lt_natCast h a
    have hnonneg := emod_nonneg_natCast h a
    rw [Cutter.cuts_of_pos _ _ (by omega), List.map_cons, List.mem_cons, ih]
    constructor
    · rintro (rfl | ⟨y, hay, hya, rfl⟩)
      · exact ⟨a, le_rfl, by omega, rfl⟩
      · exact ⟨y, by omega, by omega, rfl⟩
    · rintro ⟨y, hay, hya, rfl⟩
      rcases lt_or_ge y (a + (wordCutter h).width a n) with hy | hy
      · left
        refine (eq_sub_emod (dvd_sub_emod a) (by omega) ?_).symm
        simp only [wordCutter] at hy
        omega
      · exact Or.inr ⟨y, hy, by omega, rfl⟩

end Words

/-! ### Words that hold a byte of a range -/

section WordMeets

variable {h : ℕ} {a b K x : ℤ} {n : ℕ}

/-- The aligned word at `x` holds a byte of `[a, a + n)`. -/
def WordMeets (h : ℕ) (a : ℤ) (n : ℕ) (x : ℤ) : Prop :=
  (h : ℤ) ∣ x ∧ ∃ y, x ≤ y ∧ y < x + h ∧ a ≤ y ∧ y < a + n

/-- Where `[b, b + n)` is the image of `[a, a + n)`. -/
theorem WordMeets.reflect (hK : (h : ℤ) ∣ K) (hab : a + b + n = K) (hx : WordMeets h a n x) :
    WordMeets h b n (K - x - h) := by
  obtain ⟨hdvd, y, hxy, hyx, hay, hya⟩ := hx
  exact ⟨Int.dvd_sub (Int.dvd_sub hK hdvd) (Int.dvd_refl _), K - 1 - y, by omega, by omega,
    by omega, by omega⟩

/-- **The words of a range** are those that hold one of its bytes. -/
theorem mem_words_iff_wordMeets [NeZero h] : x ∈ words h a n ↔ WordMeets h a n x := by
  rw [mem_words]
  constructor
  · rintro ⟨y, hay, hya, rfl⟩
    have := emod_lt_natCast h y
    have := emod_nonneg_natCast h y
    exact ⟨dvd_sub_emod y, y, by omega, by omega, hay, hya⟩
  · rintro ⟨hdvd, y, hxy, hyx, hay, hya⟩
    exact ⟨y, hay, hya, (eq_sub_emod hdvd hxy hyx).symm⟩

/-- `l` is the words that hold a byte of `[a, a + n)`, each of them once, in the order `r`. -/
structure EachWord (r : ℤ → ℤ → Prop) (h : ℕ) (a : ℤ) (n : ℕ) (l : List (ℤ × ℕ)) : Prop where
  width : ∀ s ∈ l, s.2 = h
  mem : ∀ x, (x, h) ∈ l ↔ WordMeets h a n x
  ordered : (l.map Prod.fst).Pairwise r

theorem eachWord_words [NeZero h] (a : ℤ) (n : ℕ) :
    EachWord (· < ·) h a n ((words h a n).map fun x => (x, h)) where
  width := by simp
  mem x := by simp [mem_words_iff_wordMeets]
  ordered := by
    rw [List.map_map]
    exact (List.map_id (words h a n)).symm ▸ pairwise_words a n

/-- The reflected words, in the opposite order. -/
theorem EachWord.reflect {l : List (ℤ × ℕ)} (hK : (h : ℤ) ∣ K) (hab : a + b + n = K)
    (hl : EachWord (· < ·) h a n l) : EachWord (· > ·) h b n (l.map (reflectExtent K)) where
  width := List.forall_mem_map.mpr hl.width
  mem x := by
    rw [List.mem_map]
    constructor
    · rintro ⟨⟨y, p⟩, hy, heq⟩
      obtain ⟨rfl, rfl⟩ := Prod.mk.inj heq
      exact ((hl.mem y).mp hy).reflect hK hab
    · intro hx
      refine ⟨_, (hl.mem _).mpr (hx.reflect hK (by omega)), ?_⟩
      rw [reflectExtent, show K - (K - x - (h : ℤ)) - h = x by ring]
  ordered := by
    have hordered := List.pairwise_map.mp hl.ordered
    rw [List.map_map, List.pairwise_map]
    refine hordered.imp_of_mem fun hs hs' hlt => ?_
    have hwidth := hl.width _ hs
    have hwidth' := hl.width _ hs'
    simp only [Function.comp_apply, reflectExtent]
    omega

/-- `s` lies in a word that holds a byte of `[a, a + n)`. -/
def InWordOf (h : ℕ) (a : ℤ) (n : ℕ) (s : ℤ × ℕ) : Prop :=
  ∃ x, WordMeets h a n x ∧ x ≤ s.1 ∧ s.1 + s.2 ≤ x + h

theorem WordMeets.inWordOf {s : ℤ × ℕ} (hx : WordMeets h a n s.1) (hs : s.2 = h) :
    InWordOf h a n s :=
  ⟨s.1, hx, le_rfl, by rw [hs]⟩

theorem EachWord.inWordOf {r : ℤ → ℤ → Prop} {l : List (ℤ × ℕ)} (hl : EachWord r h a n l)
    {s : ℤ × ℕ} (hs : s ∈ l) : InWordOf h a n s := by
  have hwidth := hl.width s hs
  rw [← s.eta, hwidth] at hs
  exact ((hl.mem s.1).mp hs).inWordOf hwidth

theorem InWordOf.reflect (hK : (h : ℤ) ∣ K) (hab : a + b + n = K) {s : ℤ × ℕ}
    (hs : InWordOf h a n s) : InWordOf h b n (reflectExtent K s) := by
  obtain ⟨x, hx, hlow, hhigh⟩ := hs
  refine ⟨K - x - h, hx.reflect hK hab, ?_⟩
  rw [reflectExtent]
  omega

end WordMeets

end WordAccess
