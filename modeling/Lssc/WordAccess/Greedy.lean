import Lssc.WordAccess.Cuts
import Mathlib.Data.Nat.Find
import Mathlib.Data.Nat.Prime.Basic
import Mathlib.Order.Bounds.Basic

/-!
# Greedy cuts

`greedyCutter` takes the widest naturally aligned unit that fits: a width that divides the word
size, divides the address, and does not reach past the end. The greedy pieces never straddle a
word boundary, which is `chop_greedy_append`: cutting greedily can be done word by word.

`GreedyUp` and `GreedyDown` say what the greedy decomposition of a range is, from its start or from
its end, without saying how to compute it. Each describes one list only.

## Main definitions

* `greedyCutter`
* `GreedyUp`, `GreedyDown`
* `Tiles` — aligned pieces that make up a range

## Main results

* `greedyCutter_isGreatest` — what the greedy width is, for a power of two
* `chop_greedy_append` — greedy cuts respect word boundaries
* `greedyUp_iff`, `greedyDown_iff` — greedy cuts are greedy decompositions
* `tiles_cuts`, `tiles_cutsDown`
-/

namespace WordAccess

variable {h : ℕ} [NeZero h]

/-! ### Greedy widths -/

variable (h) in
/-- Take the widest unit that divides the word size, divides the address and fits. -/
def greedyCutter : Cutter where
  width a n := Nat.findGreatest (fun p => p ∣ h ∧ (p : ℤ) ∣ a ∧ p ≤ n) h
  pos a n hn := by
    refine Nat.le_findGreatest (Nat.pos_of_neZero h) ⟨one_dvd h, ?_, hn⟩
    rw [Nat.cast_one]
    exact Int.one_dvd a
  le a n := by
    rcases Nat.eq_zero_or_pos (Nat.findGreatest (fun p => p ∣ h ∧ (p : ℤ) ∣ a ∧ p ≤ n) h)
      with hzero | hpos
    · omega
    · exact (Nat.findGreatest_of_ne_zero rfl hpos.ne').2.2

theorem greedyCutter_spec (a : ℤ) {n : ℕ} (hn : 0 < n) :
    (greedyCutter h).width a n ∣ h ∧ ((greedyCutter h).width a n : ℤ) ∣ a ∧
      (greedyCutter h).width a n ≤ n :=
  Nat.findGreatest_of_ne_zero rfl ((greedyCutter h).pos a n hn).ne'

theorem le_greedyCutter_width {a : ℤ} {n q : ℕ} (hq : q ∣ h) (hqa : (q : ℤ) ∣ a) (hqn : q ≤ n) :
    q ≤ (greedyCutter h).width a n :=
  Nat.le_findGreatest (Nat.le_of_dvd (Nat.pos_of_neZero h) hq) ⟨hq, hqa, hqn⟩

/-- The greedy width is the only unit no other one beats. -/
theorem greedyCutter_width_eq {a : ℤ} {n p : ℕ} (hp : p ∣ h) (hpa : (p : ℤ) ∣ a) (hpn : p ≤ n)
    (hmax : ∀ q, q ∣ h → (q : ℤ) ∣ a → q ≤ n → q ≤ p) : (greedyCutter h).width a n = p := by
  have hppos : 0 < p := Nat.pos_of_dvd_of_pos hp (Nat.pos_of_neZero h)
  obtain ⟨hw, hwa, hwn⟩ := greedyCutter_spec (h := h) a (Nat.lt_of_lt_of_le hppos hpn)
  exact le_antisymm (hmax _ hw hwa hwn) (le_greedyCutter_width hp hpa hpn)

/-- **What the greedy width is**, for a word size that is a power of two: the largest power of
two up to the word size that divides the address and fits. -/
theorem greedyCutter_isGreatest {e : ℕ} (he : h = 2 ^ e) (a : ℤ) {n : ℕ} (hn : 0 < n) :
    IsGreatest {p : ℕ | (∃ k, p = 2 ^ k) ∧ p ≤ h ∧ (p : ℤ) ∣ a ∧ a + p ≤ a + n}
      ((greedyCutter h).width a n) := by
  obtain ⟨hw, hwa, hwn⟩ := greedyCutter_spec (h := h) a hn
  constructor
  · obtain ⟨k, -, hk⟩ := (Nat.dvd_prime_pow Nat.prime_two).mp (hw.trans (dvd_of_eq he))
    exact ⟨⟨k, hk⟩, Nat.le_of_dvd (Nat.pos_of_neZero h) hw, hwa, by omega⟩
  · rintro q ⟨⟨k, rfl⟩, hqh, hqa, hqn⟩
    refine le_greedyCutter_width ?_ hqa (by omega)
    rw [he] at hqh ⊢
    exact pow_dvd_pow 2 ((Nat.pow_le_pow_iff_right (by norm_num)).mp hqh)

/-- The greedy width is `2 ^ e` if the next power of two does not fit, does not divide the address
or is no unit any more. -/
theorem greedyCutter_width_two_pow {f e : ℕ} (hf : h = 2 ^ f) (he : 2 ^ e ≤ h) {a : ℤ} {n : ℕ}
    (ha : ((2 ^ e : ℕ) : ℤ) ∣ a) (hn : 2 ^ e ≤ n)
    (hmax : n < 2 ^ (e + 1) ∨ ¬((2 ^ (e + 1) : ℕ) : ℤ) ∣ a ∨ h < 2 ^ (e + 1)) :
    (greedyCutter h).width a n = 2 ^ e := by
  have hdvd : 2 ^ e ∣ h := by
    rw [hf] at he ⊢
    exact pow_dvd_pow 2 ((Nat.pow_le_pow_iff_right (by norm_num)).mp he)
  refine greedyCutter_width_eq hdvd ha hn fun q hq hqa hqn => ?_
  obtain ⟨k, -, rfl⟩ := (Nat.dvd_prime_pow Nat.prime_two).mp (hq.trans (dvd_of_eq hf))
  refine Nat.pow_le_pow_right (by norm_num) ?_
  by_contra hek
  have hnext : 2 ^ (e + 1) ∣ 2 ^ k := pow_dvd_pow 2 (by omega)
  have hle : 2 ^ (e + 1) ≤ 2 ^ k := Nat.le_of_dvd (by positivity) hnext
  rcases hmax with hfit | hal | hunit
  · omega
  · exact hal ((Int.natCast_dvd_natCast.mpr hnext).trans hqa)
  · have := Nat.le_of_dvd (Nat.pos_of_neZero h) hq
    omega

theorem greedyCutter_neg (a : ℤ) (n : ℕ) :
    (greedyCutter h).width (-a) n = (greedyCutter h).width a n := by
  simp only [greedyCutter, Int.dvd_neg]

omit [NeZero h] in
theorem dvd_emod {q : ℕ} {a : ℤ} (hq : q ∣ h) (hqa : (q : ℤ) ∣ a) : (q : ℤ) ∣ a % h := by
  have hqh : (q : ℤ) ∣ h := by exact_mod_cast hq
  rw [Int.emod_def]
  exact Int.dvd_sub hqa (Dvd.dvd.mul_right hqh _)

omit [NeZero h] in
/-- A unit that divides `h` and `a` divides what is left of the word of `a`. -/
theorem le_of_dvd_of_emod_add {q n : ℕ} {a : ℤ} (hq : q ∣ h) (hqa : (q : ℤ) ∣ a) (hn : 0 < n)
    (hend : a % h + n = h) : q ≤ n := by
  have hqh : (q : ℤ) ∣ h := by exact_mod_cast hq
  have hqn : (q : ℤ) ∣ n := by
    rw [show (n : ℤ) = h - a % h by omega]
    exact Int.dvd_sub hqh (dvd_emod hq hqa)
  exact Nat.le_of_dvd hn (by exact_mod_cast hqn)

/-- **Greedy cuts respect word boundaries**: a row that ends at a boundary is cut independently
of what follows it. -/
theorem chop_greedy_append {a : ℤ} (xs ys : List Byte)
    (hxs : 0 < xs.length → a % h + xs.length = h) :
    (greedyCutter h).chop a (xs ++ ys)
      = (greedyCutter h).chop a xs ++ (greedyCutter h).chop (a + xs.length) ys := by
  induction a, xs using Cutter.chop.induct (greedyCutter h) with
  | case1 a xs hzero =>
    rw [List.eq_nil_of_length_eq_zero hzero]
    simp
  | case2 a xs hzero ih =>
    have hend := hxs (by omega)
    obtain ⟨hw, hwa, hwn⟩ := greedyCutter_spec (h := h) a (show 0 < xs.length by omega)
    have hwidth : (greedyCutter h).width a (xs ++ ys).length
        = (greedyCutter h).width a xs.length :=
      greedyCutter_width_eq hw hwa (by simp; omega) fun q hq hqa _ =>
        le_greedyCutter_width hq hqa (le_of_dvd_of_emod_add hq hqa (by omega) hend)
    have hnonneg := emod_nonneg_natCast h a
    have happend : 0 < (xs ++ ys).length := by simp; omega
    have hleft : 0 < xs.length := by omega
    rw [Cutter.chop_of_pos _ a happend, hwidth, Cutter.chop_of_pos _ a hleft,
      List.take_append_of_le_length hwn,
      List.drop_append_of_le_length hwn, ih, List.length_drop, List.cons_append]
    · congr 3
      omega
    · intro hrest
      rw [List.length_drop] at hrest ⊢
      rw [add_emod_of_lt (by omega)]
      omega

/-! ### Greedy decompositions -/

/-- The greedy decomposition of `[a, e)` from its start: each piece has the largest power of two
up to `h` for its width that divides its address and fits. -/
inductive GreedyUp (h : ℕ) (e : ℤ) : ℤ → List (ℤ × ℕ) → Prop
  | nil : GreedyUp h e e []
  | cons {a : ℤ} {p : ℕ} {l : List (ℤ × ℕ)} :
      IsGreatest {q : ℕ | (∃ k, q = 2 ^ k) ∧ q ≤ h ∧ (q : ℤ) ∣ a ∧ a + q ≤ e} p →
        GreedyUp h e (a + p) l → GreedyUp h e a ((a, p) :: l)

/-- The greedy decomposition of `[a, e)` from its end: each piece has the largest power of two up
to `h` for its width that divides the address it ends at and fits. -/
inductive GreedyDown (h : ℕ) (a : ℤ) : ℤ → List (ℤ × ℕ) → Prop
  | nil : GreedyDown h a a []
  | cons {e : ℤ} {p : ℕ} {l : List (ℤ × ℕ)} :
      IsGreatest {q : ℕ | (∃ k, q = 2 ^ k) ∧ q ≤ h ∧ (q : ℤ) ∣ e ∧ a ≤ e - q} p →
        GreedyDown h a (e - p) l → GreedyDown h a e ((e - p, p) :: l)

omit [NeZero h] in
theorem GreedyUp.eq_nil {e : ℤ} {l : List (ℤ × ℕ)} (hl : GreedyUp h e e l) : l = [] := by
  cases hl with
  | nil => rfl
  | cons hp hrest =>
    obtain ⟨⟨k, rfl⟩, -, -, hfit⟩ := hp.1
    have := Nat.two_pow_pos k
    omega

omit [NeZero h] in
theorem GreedyUp.unique {a e : ℤ} {l l' : List (ℤ × ℕ)} (hl : GreedyUp h e a l)
    (hl' : GreedyUp h e a l') : l = l' := by
  induction hl generalizing l' with
  | nil => exact hl'.eq_nil.symm
  | cons hp hrest ih =>
    cases hl' with
    | nil => exact (GreedyUp.cons hp hrest).eq_nil
    | cons hp' hrest' =>
      obtain rfl := hp.unique hp'
      rw [ih hrest']

omit [NeZero h] in
theorem GreedyDown.eq_nil {a : ℤ} {l : List (ℤ × ℕ)} (hl : GreedyDown h a a l) : l = [] := by
  cases hl with
  | nil => rfl
  | cons hp hrest =>
    obtain ⟨⟨k, rfl⟩, -, -, hfit⟩ := hp.1
    have := Nat.two_pow_pos k
    omega

omit [NeZero h] in
theorem GreedyDown.unique {a e : ℤ} {l l' : List (ℤ × ℕ)} (hl : GreedyDown h a e l)
    (hl' : GreedyDown h a e l') : l = l' := by
  induction hl generalizing l' with
  | nil => exact hl'.eq_nil.symm
  | cons hp hrest ih =>
    cases hl' with
    | nil => exact (GreedyDown.cons hp hrest).eq_nil
    | cons hp' hrest' =>
      obtain rfl := hp.unique hp'
      rw [ih hrest']

/-- **The greedy cuts are the greedy decomposition**, and nothing else is. -/
theorem greedyUp_iff {f : ℕ} (hf : h = 2 ^ f) {a : ℤ} {n : ℕ} {l : List (ℤ × ℕ)} :
    GreedyUp h (a + n) a l ↔ (greedyCutter h).cuts a n = l := by
  have hcuts : GreedyUp h (a + n) a ((greedyCutter h).cuts a n) := by
    induction a, n using Cutter.cuts.induct (greedyCutter h) with
    | case1 a =>
      rw [Cutter.cuts_zero, Nat.cast_zero, add_zero]
      exact .nil
    | case2 a n hn ih =>
      have hle := (greedyCutter h).le a n
      rw [Cutter.cuts_of_pos _ _ (by omega)]
      refine .cons (greedyCutter_isGreatest hf a (by omega)) ?_
      rwa [show a + (greedyCutter h).width a n + ((n - (greedyCutter h).width a n : ℕ) : ℤ) = a + n
        by omega] at ih
  exact ⟨hcuts.unique, fun heq => heq ▸ hcuts⟩

theorem greedyDown_iff {f : ℕ} (hf : h = 2 ^ f) {e : ℤ} {n : ℕ} {l : List (ℤ × ℕ)} :
    GreedyDown h (e - n) e l ↔ (greedyCutter h).cutsDown e n = l := by
  have hcuts : GreedyDown h (e - n) e ((greedyCutter h).cutsDown e n) := by
    induction e, n using Cutter.cutsDown.induct (greedyCutter h) with
    | case1 e =>
      rw [Cutter.cutsDown, if_pos rfl, Nat.cast_zero, sub_zero]
      exact .nil
    | case2 e n hn ih =>
      have hle := (greedyCutter h).le e n
      obtain ⟨⟨hpow, hunit, hal, hfit⟩, hmax⟩ :=
        greedyCutter_isGreatest hf e (show 0 < n by omega)
      rw [Cutter.cutsDown, if_neg hn]
      refine .cons ⟨⟨hpow, hunit, hal, by omega⟩, fun q hq => ?_⟩ ?_
      · obtain ⟨hqpow, hqunit, hqal, hqfit⟩ := hq
        exact hmax ⟨hqpow, hqunit, hqal, by omega⟩
      · rwa [show e - (greedyCutter h).width e n - ((n - (greedyCutter h).width e n : ℕ) : ℤ)
          = e - n by omega] at ih
  exact ⟨hcuts.unique, fun heq => heq ▸ hcuts⟩

/-! ### Tilings -/

/-- `l` makes up `[a, a + n)`: naturally aligned pieces inside it that hold every address once. -/
structure Tiles (a : ℤ) (n : ℕ) (l : List (ℤ × ℕ)) : Prop where
  aligned : ∀ s ∈ l, (s.2 : ℤ) ∣ s.1
  inside : ∀ s ∈ l, a ≤ s.1 ∧ s.1 + s.2 ≤ a + n
  once : ∀ x, a ≤ x → x < a + n → l.countP (fun s => s.1 ≤ x ∧ x < s.1 + s.2) = 1

theorem spec_of_mem_cuts_greedy {a : ℤ} {n : ℕ} {s : ℤ × ℕ}
    (hs : s ∈ (greedyCutter h).cuts a n) : s.2 ∣ h ∧ (s.2 : ℤ) ∣ s.1 := by
  induction a, n using Cutter.cuts.induct (greedyCutter h) with
  | case1 a => rw [Cutter.cuts_zero] at hs; cases hs
  | case2 a n hn ih =>
    rw [Cutter.cuts_of_pos _ _ (by omega)] at hs
    rcases List.mem_cons.mp hs with rfl | hs
    · obtain ⟨hunit, hal, -⟩ := greedyCutter_spec (h := h) a (show 0 < n by omega)
      exact ⟨hunit, hal⟩
    · exact ih hs

/-- A unit lies in one word. -/
theorem inWordOf_of_mem_cuts_greedy {a : ℤ} {n : ℕ} {s : ℤ × ℕ}
    (hs : s ∈ (greedyCutter h).cuts a n) : InWordOf h a n s := by
  obtain ⟨hunit, hal⟩ := spec_of_mem_cuts_greedy hs
  obtain ⟨hlow, hhigh, hpos⟩ := (greedyCutter h).mem_cuts hs
  have hlt := emod_lt_natCast h s.1
  have hnonneg := emod_nonneg_natCast h s.1
  have hfits : s.2 ≤ h - (s.1 % h).toNat := le_of_dvd_of_emod_add hunit hal (by omega) (by omega)
  exact ⟨s.1 - s.1 % h, ⟨dvd_sub_emod s.1, s.1, by omega, by omega, hlow, by omega⟩, by omega,
    by omega⟩

theorem tiles_cuts (a : ℤ) (n : ℕ) : Tiles a n ((greedyCutter h).cuts a n) where
  aligned s hs := (spec_of_mem_cuts_greedy hs).2
  inside s hs := by
    have := (greedyCutter h).mem_cuts hs
    omega
  once x hlow hhigh := by rw [Cutter.countP_cuts, if_pos ⟨hlow, hhigh⟩]

omit [NeZero h] in
theorem Tiles.reflect {a : ℤ} {n : ℕ} {l : List (ℤ × ℕ)} (hl : Tiles a n l) :
    Tiles (0 - a - n) n (l.map (reflectExtent 0)) where
  aligned := by
    simp only [List.forall_mem_map, reflectExtent]
    exact fun s hs => Int.dvd_sub (Int.dvd_sub (Int.dvd_zero _) (hl.aligned s hs)) (Int.dvd_refl _)
  inside := by
    simp only [List.forall_mem_map, reflectExtent]
    intro s hs
    have := hl.inside s hs
    omega
  once x hlow hhigh := by
    rw [List.countP_map, ← hl.once (-1 - x) (by omega) (by omega)]
    refine List.countP_congr fun s _ => ?_
    rw [Function.comp_apply, decide_eq_true_iff, decide_eq_true_iff, reflectExtent]
    omega

theorem tiles_cutsDown (a : ℤ) (n : ℕ) : Tiles a n ((greedyCutter h).cutsDown (a + n) n) := by
  have hreflect := (tiles_cuts (h := h) (0 - (a + n)) n).reflect
  rwa [← Cutter.cutsDown_eq _ greedyCutter_neg, show 0 - (0 - (a + (n : ℤ))) - n = a by ring]
    at hreflect

end WordAccess
