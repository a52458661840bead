import Lssc.WordAccess.Footprint

/-!
# How many accesses a stream makes

The words of a range are counted by their closed form, and a copy by words makes one load for each
word of its source and one store for each word of its destination. The words of dest that it loads
are at most two: the first one, so that what lies before dest can be put back, and the last one, if
dest ends inside a word. A copy by units loads the first one only.

## Main results

* `length_words` — the number of words of a range
* `length_loads_copyStream_words`, `length_loads_copyStream_units`, `length_loads_fillWords` — the
  loads of dest
* `EachWord.length_eq` — lists of the words of a range are equally long
-/

namespace WordAccess

open Program

variable {h : ℕ} [NeZero h] {ι ε σ τ : Type} {E : Environment h τ}

/-! ### Words -/

theorem length_words_of_dvd {a : ℤ} (ha : (h : ℤ) ∣ a) (n : ℕ) :
    (words h a n).length = (n + h - 1) / h := by
  have hpos := Nat.pos_of_neZero h
  induction n using Nat.strong_induction_on generalizing a with
  | _ n ih =>
    rcases Nat.eq_zero_or_pos n with rfl | hn
    · rw [words_zero, List.length_nil, Nat.zero_add, Nat.div_eq_of_lt (by omega)]
    · rw [words_of_dvd ha hn, List.length_cons, ih _ (by omega) (Int.dvd_add ha (Int.dvd_refl _))]
      rcases Nat.lt_or_ge n h with hlt | hge
      · rw [Nat.sub_eq_zero_of_le hlt.le, Nat.zero_add, Nat.div_eq_of_lt (by omega),
          show n + h - 1 = n - 1 + h by omega, Nat.add_div_right _ hpos,
          Nat.div_eq_of_lt (by omega)]
      · rw [show n - h + h - 1 = n - 1 by omega, show n + h - 1 = n - 1 + h by omega,
          Nat.add_div_right _ hpos]

/-- **The number of words of a range.** -/
theorem length_words (a : ℤ) {n : ℕ} (hn : 0 < n) :
    (words h a n).length = ((a % h).toNat + n + h - 1) / h := by
  have hlt := emod_lt_natCast h a
  have hnonneg := emod_nonneg_natCast h a
  have hpos := Nat.pos_of_neZero h
  have hj : a % h = ((a % h).toNat : ℕ) := (Int.toNat_of_nonneg hnonneg).symm
  have hnext : (h : ℤ) ∣ a - (a % h).toNat + h := by
    rw [← hj]
    exact Int.dvd_add (dvd_sub_emod a) (Int.dvd_refl _)
  rw [words_of_pos hj hn, List.length_cons, length_words_of_dvd hnext,
    show (a % h).toNat + n + h - 1 = (a % h).toNat + n - 1 + h by omega, Nat.add_div_right _ hpos]
  rcases Nat.lt_or_ge n (h - (a % h).toNat) with hshort | hlong
  · rw [Nat.div_eq_of_lt (by omega), Nat.div_eq_of_lt (by omega)]
  · rw [show n - (h - (a % h).toNat) + h - 1 = (a % h).toNat + n - 1 by omega]

omit [NeZero h] in
theorem EachWord.nodup {r : ℤ → ℤ → Prop} [Std.Irrefl r] {a : ℤ} {n : ℕ} {l : List (ℤ × ℕ)}
    (hl : EachWord r h a n l) : l.Nodup := by
  refine List.Nodup.of_map Prod.fst (hl.ordered.imp ?_)
  rintro x y hxy rfl
  exact Std.Irrefl.irrefl x hxy

omit [NeZero h] in
/-- Two lists of the words of a range are equally long, in whichever order they are. -/
theorem EachWord.length_eq {r r' : ℤ → ℤ → Prop} [Std.Irrefl r] [Std.Irrefl r'] {a : ℤ} {n : ℕ}
    {l l' : List (ℤ × ℕ)} (hl : EachWord r h a n l) (hl' : EachWord r' h a n l') :
    l.length = l'.length := by
  refine ((List.perm_ext_iff_of_nodup hl.nodup hl'.nodup).mpr ?_).length_eq
  rintro ⟨x, p⟩
  constructor
  · intro hx
    obtain rfl : p = h := hl.width _ hx
    exact (hl'.mem x).mpr ((hl.mem x).mp hx)
  · intro hx
    obtain rfl : p = h := hl'.width _ hx
    exact (hl.mem x).mpr ((hl'.mem x).mp hx)

/-- A mirrored range has as many words. -/
theorem length_words_reflect {K : ℤ} (hK : (h : ℤ) ∣ K) (a : ℤ) (n : ℕ) :
    (words h (K - a - n) n).length = (words h a n).length := by
  have hmirror := (eachWord_words a n).reflect hK (b := K - a - n) (by omega)
  simpa using (eachWord_words (K - a - n) n).length_eq hmirror

/-- A piece has a byte at least. -/
theorem Cutter.length_cuts_le (C : Cutter) (a : ℤ) (n : ℕ) : (C.cuts a n).length ≤ n := by
  induction a, n using Cutter.cuts.induct C with
  | case1 a => rw [Cutter.cuts_zero]; rfl
  | case2 a n hn ih =>
    have hpos := C.pos a n (by omega)
    have hle := C.le a n
    rw [Cutter.cuts_of_pos _ _ (by omega), List.length_cons]
    omega

theorem length_words_le (a : ℤ) (n : ℕ) : (words h a n).length ≤ n := by
  rw [words, List.length_map]
  exact (wordCutter h).length_cuts_le a n

/-- Of three bytes or more, two share a word. -/
theorem length_words_lt (hh : 2 ≤ h) (a : ℤ) {n : ℕ} (hn : 3 ≤ n) : (words h a n).length < n := by
  have hlt := emod_lt_natCast h a
  obtain ⟨m, rfl⟩ := Nat.exists_eq_add_of_le hn
  have hsplit : (3 + m) * h = 2 * h + (1 + m) * h := by rw [← Nat.add_mul, ← Nat.add_assoc]
  have hwide : (1 + m) * 2 ≤ (1 + m) * h := Nat.mul_le_mul_left _ hh
  rw [length_words a (by omega), Nat.div_lt_iff_lt_mul (by omega)]
  omega

/-- The words of three bytes or more leave room for one more access, which bytes do not need. -/
theorem length_words_add_le (a : ℤ) {n : ℕ} (hn : 3 ≤ n) {c : Prop} [Decidable c]
    (hc : h = 1 → c) : (words h a n).length + (if c then 0 else 1) ≤ n := by
  have hpos := Nat.pos_of_neZero h
  have hle := length_words_le (h := h) a n
  rcases Nat.lt_or_ge 1 h with hh | hh
  · have hlt := length_words_lt hh a hn
    split <;> omega
  · rw [if_pos (hc (by omega))]
    exact hle

/-- There are as many greedy units as words, at least. -/
theorem length_words_le_cuts_greedy (a : ℤ) (n : ℕ) :
    (words h a n).length ≤ ((greedyCutter h).cuts a n).length := by
  have hunit : ∀ k ∈ ((wordCutter h).cuts a n).map fun s => ((greedyCutter h).cuts s.1 s.2).length,
      1 ≤ k := by
    rw [List.forall_mem_map]
    intro s hs
    have hpos := ((wordCutter h).mem_cuts hs).2.2
    rw [Cutter.cuts_of_pos _ _ hpos]
    exact Nat.succ_pos _
  rw [words, List.length_map, ← flatMap_cuts_greedy, List.length_flatMap]
  simpa using List.length_le_sum_of_one_le _ hunit

/-- A range inside a word, that does not end with it. -/
theorem emod_add_lt_iff {a : ℤ} {n : ℕ} (hn : 0 < n) (hfits : a % h + n ≤ h) :
    (a % h).toNat + n < h ↔ ¬(h : ℤ) ∣ a + n := by
  have hnonneg := emod_nonneg_natCast h a
  constructor
  · intro hlt hdvd
    have hzero := Int.emod_eq_zero_of_dvd hdvd
    rw [← Int.emod_add_emod, Int.emod_eq_of_lt (by omega) (by omega)] at hzero
    omega
  · intro hnot
    by_contra hge
    refine hnot ?_
    rw [show a + n = a - a % h + h by omega]
    exact Int.dvd_add (dvd_sub_emod a) (Int.dvd_refl _)

/-! ### Loads of dest -/

section Loads

variable [DecidableEq ι] {v w : ι}

omit [NeZero h] in
theorem length_loads_emitWord (c : BitVec (h * 8)) (a : ℤ) (bs : List Byte) (t : τ) :
    (loads w ((emitWord w c a bs : Program h ι ε Unit).trace E t)).length
      = if (a % h).toNat + bs.length < h then 1 else 0 := by
  rw [emitWord]
  split <;> simp

/-- Only the word that dest ends in is loaded to be stored, and only if dest ends inside it. -/
theorem length_loads_deliver_emitWord {S : Supply h ι ε σ}
    (hS : ∀ (q : σ) (n : ℕ) (t : τ), loads w ((S.take q n).trace E t) = []) (c : BitVec (h * 8))
    (a : ℤ) {n : ℕ} (hn : 0 < n) (q : σ) (t : τ) :
    (loads w ((deliver S (emitWord w c) ((wordCutter h).cuts a n) q).trace E t)).length
      = if (h : ℤ) ∣ a + n then 0 else 1 := by
  induction a, n using Cutter.cuts.induct (wordCutter h) generalizing q t with
  | case1 a => omega
  | case2 a n hn ih =>
    have hlt := emod_lt_natCast h a
    have hnonneg := emod_nonneg_natCast h a
    have hle := (wordCutter h).le a n
    have hfits : a % h + (wordCutter h).width a n ≤ h := by
      simp only [wordCutter]
      omega
    have hlen := S.length_eq E q t (n := (wordCutter h).width a n) (by omega)
    rw [Cutter.cuts_of_pos _ _ (by omega), deliver_cons]
    dsimp only
    rw [Program.trace_bind, Program.trace_bind, loads_append, loads_append, hS, List.nil_append,
      List.length_append, length_loads_emitWord, hlen]
    rcases hle.lt_or_eq with hmore | hlast
    · -- this piece ends with its word
      have hend := dvd_add_wordCutter_width a n hmore
      have hfull : (a % h).toNat + (wordCutter h).width a n = h := by
        simp only [wordCutter] at hmore ⊢
        omega
      rw [ih (by omega), if_neg (by omega), Nat.zero_add, Nat.cast_sub hle, add_add_sub_cancel]
    · rw [hlast] at hfits ⊢
      simp only [Nat.sub_self, Cutter.cuts_zero, deliver, Program.trace_pure, loads_nil,
        List.length_nil, Nat.add_zero, emod_add_lt_iff hn hfits, ite_not]

variable {dest src : ℤ} {n : ℕ}

/-- **How many words of dest a copy by words loads**: the first one unless both ends are aligned,
and the last one unless dest ends with it. -/
theorem length_loads_copyStream_words (hvw : v ≠ w) (hne : dest ≠ src) (hn : 0 < n) (t : τ) :
    (loads w ((copyStream v w (emitWord w) dest src n : Program h ι ε Unit).trace E t)).length
      = (if src % h = 0 ∧ dest % h = 0 then 0 else 1) + if (h : ℤ) ∣ dest + n then 0 else 1 := by
  rw [copyStream, if_neg (by simp [hne, hn.ne'])]
  split
  · rw [length_loads_deliver_emitWord (loads_queueSupply hvw) _ _ hn, Nat.zero_add]
  · simp only [Program.trace_load, loads_load, if_neg hvw, if_true, List.length_cons]
    rw [length_loads_deliver_emitWord (loads_queueSupply hvw) _ _ hn, Nat.add_comm]

/-- **How many words of dest a copy by units loads**: the first one unless both ends are aligned. -/
theorem length_loads_copyStream_units (hvw : v ≠ w) (hne : dest ≠ src) (hn : 0 < n) (t : τ) :
    (loads w ((copyStream v w (fun _ => emitUnits) dest src n : Program h ι ε Unit).trace E
      t)).length = if src % h = 0 ∧ dest % h = 0 then 0 else 1 := by
  have hnone : ∀ {ps : List (ℤ × ℕ)} {q : ℤ × List Byte} {t : τ},
      loads w ((deliver (queueSupply v) emitUnits ps q : Program h ι ε Unit).trace E t) = [] := by
    intro ps q t
    refine List.eq_nil_iff_forall_not_mem.mpr fun x hx => ?_
    obtain ⟨p, -, bs, t, hx⟩ := mem_loads_deliver (loads_queueSupply hvw) hx
    rw [loads_emitUnits] at hx
    cases hx
  rw [copyStream, if_neg (by simp [hne, hn.ne'])]
  split
  · rw [hnone, List.length_nil]
  · simp only [Program.trace_load, loads_load, if_neg hvw, if_true, List.length_cons]
    rw [hnone, List.length_nil]

/-- **How many words of dest a fill by words loads**: the first one unless dest starts with it, and
the last one unless dest ends with it. -/
theorem length_loads_fillWords {x : Byte} (hn : 0 < n) (t : τ) :
    (loads w ((fillWords w x dest n : Program h ι ε Unit).trace E t)).length
      = (if dest % h = 0 then 0 else 1) + if (h : ℤ) ∣ dest + n then 0 else 1 := by
  rw [fillWords, if_neg hn.ne']
  split
  · rw [length_loads_deliver_emitWord (fun _ _ _ => rfl) _ _ hn, Nat.zero_add]
  · simp only [Program.trace_load, loads_load, if_true, List.length_cons]
    rw [length_loads_deliver_emitWord (fun _ _ _ => rfl) _ _ hn, Nat.add_comm]

end Loads

end WordAccess
