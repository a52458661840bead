import Lssc.Lft
import Lssc.WordAccess.Stream

/-!
# Peeling a word into units

`head` and `heel` of `lssc_lft.c` store the low bytes of a word in the greedy aligned units.

`heel` walks down the bits of `n`: at unit `p` the bits above have been dealt with, and what is left
is `n % (2 * p)`. `head` walks up the bits of the address: at unit `p` all lower bits of the address
are clear, except that the units below `MMIN_ALIGN` are skipped when the address is known to be
aligned to that. `Cleared` says so, and it is what the three ways through a `HEAD` step hand on
to the next.

## Main results

* `Lft.bare_heel`, `Lft.bare_head`
-/

namespace Lssc

open WordAccess

variable {g : Geometry} {e n : ℕ} {dest : ℤ}

theorem two_pow_dvd_mwordSize {k : ℕ} (hk : 2 ^ k ≤ g.mwordSize) : 2 ^ k ∣ g.mwordSize := by
  obtain ⟨f, -, hf⟩ := g.exists_mwordSize_eq
  rw [hf] at hk ⊢
  exact pow_dvd_pow 2 ((Nat.pow_le_pow_iff_right (by norm_num)).mp hk)

/-- A unit below the word size is followed by another unit. -/
theorem two_pow_succ_dvd_mwordSize {k : ℕ} (hk : 2 ^ k < g.mwordSize) :
    2 ^ (k + 1) ∣ g.mwordSize := by
  obtain ⟨f, -, hf⟩ := g.exists_mwordSize_eq
  rw [hf] at hk ⊢
  exact pow_dvd_pow 2 ((Nat.pow_lt_pow_iff_right (by norm_num)).mp hk)

theorem and_two_pow_ne_zero_iff : n &&& 2 ^ e ≠ 0 ↔ n % 2 ^ (e + 1) = n % 2 ^ e + 2 ^ e := by
  rw [Nat.and_two_pow, Nat.testBit_eq_decide_div_mod_eq, Nat.mod_pow_succ]
  rcases Nat.mod_two_eq_zero_or_one (n / 2 ^ e) with hbit | hbit <;> simp [hbit]

theorem and_two_pow_eq_zero_iff : n &&& 2 ^ e = 0 ↔ n % 2 ^ (e + 1) = n % 2 ^ e := by
  rw [Nat.and_two_pow, Nat.testBit_eq_decide_div_mod_eq, Nat.mod_pow_succ]
  rcases Nat.mod_two_eq_zero_or_one (n / 2 ^ e) with hbit | hbit <;> simp [hbit]

namespace Lft

/-! ### From the widest unit down -/

/-- A line of `heel`, before lines that deal with the lower bits of `n`. -/
theorem bare_heelUnit {next : ℤ × MWord g → Code g Unit} (hn : n < g.mwordSize)
    (hdest : ∀ k ≤ e, 2 ^ k ≤ n → ((2 ^ k : ℕ) : ℤ) ∣ dest) (val : MWord g)
    (hnext : ∀ (dest : ℤ) (val : MWord g),
      (∀ k < e, 2 ^ k ≤ n → ((2 ^ k : ℕ) : ℤ) ∣ dest) →
        (next (dest, val)).bare = emitUnits dest (bytes (n % 2 ^ e) val)) :
    (heelUnit (2 ^ e) n dest val >>= next).bare
      = emitUnits dest (bytes (n % 2 ^ (e + 1)) val) := by
  obtain ⟨f, -, hf⟩ := g.exists_mwordSize_eq
  by_cases hbit : n &&& 2 ^ e = 0
  · rw [heelUnit, if_neg (by simp [hbit]), pure_bind, and_two_pow_eq_zero_iff.mp hbit]
    exact hnext dest val fun k hk => hdest k hk.le
  · have hmod := and_two_pow_ne_zero_iff.mp hbit
    have hle : 2 ^ e ≤ n := by have := Nat.mod_le n (2 ^ (e + 1)); omega
    have hlt := Nat.mod_lt n (show 0 < 2 ^ (e + 1) by positivity)
    have hwidth : (greedyCutter g.mwordSize).width dest (n % 2 ^ (e + 1)) = 2 ^ e :=
      greedyCutter_width_two_pow hf (by omega) (hdest e le_rfl hle) (by omega) (Or.inl hlt)
    have hrest : ∀ k < e, 2 ^ k ≤ n → ((2 ^ k : ℕ) : ℤ) ∣ dest + (2 ^ e : ℕ) := fun k hk hkn =>
      Int.dvd_add (hdest k hk.le hkn) (Int.natCast_dvd_natCast.mpr (pow_dvd_pow 2 hk.le))
    rw [heelUnit, if_pos ⟨by omega, hbit⟩,
      emitUnits_bytes (by positivity) (by omega) hwidth val, hmod, Nat.add_sub_cancel_right,
      ← hnext _ _ hrest, Nat.mul_comm (2 ^ e) 8]
    rfl

/-- `heel` before an address that is aligned to more than `n` bytes. -/
theorem bare_heel (hn : n < g.mwordSize)
    (hdest : ∀ k, 2 ^ k ≤ n → ((2 ^ k : ℕ) : ℤ) ∣ dest) (val : MWord g) :
    (heel dest val n).bare = emitUnits dest (bytes n val) := by
  have hsmall : n % 2 ^ (3 + 1) = n := Nat.mod_eq_of_lt (Nat.lt_of_lt_of_le hn g.mwordSize_le)
  rw [heel, ← congrArg (bytes · val) hsmall]
  refine bare_heelUnit (e := 3) hn (fun k _ => hdest k) val fun dest val hdest => ?_
  refine bare_heelUnit (e := 2) hn (fun k _ => hdest k (by omega)) val fun dest val hdest => ?_
  refine bare_heelUnit (e := 1) hn (fun k _ => hdest k (by omega)) val fun dest val hdest => ?_
  have hlast : (if 1 < g.mwordSize ∧ n &&& 1 ≠ 0 then storeLow 1 dest val else pure () :
      Code g Unit).bare = (heelUnit (2 ^ 0) n dest val >>= fun _ => pure ()).bare := by
    rw [pow_zero, heelUnit]
    split <;> rfl
  refine hlast.trans (bare_heelUnit hn (fun k _ => hdest k (by omega)) val fun dest val _ => ?_)
  rw [pow_zero, Nat.mod_one, bytes_zero, emitUnits_nil]
  rfl

/-! ### From the narrowest unit up -/

/-- What `head` knows of an address before unit `2 ^ e`. -/
structure Cleared (g : Geometry) (inside : Bool) (e : ℕ) (a : ℤ) : Prop where
  /-- The bits below are clear. -/
  dvd : ∀ k ≤ e, 2 ^ k ≤ g.mwordSize → ((2 ^ k : ℕ) : ℤ) ∣ a
  /-- The brace is entered unless there is nothing to do for it. -/
  outside : inside = false → (g.mminAlign : ℤ) ∣ a

theorem exists_mminAlign_eq (g : Geometry) : ∃ m, g.mminAlign = 2 ^ m := by
  obtain ⟨f, -, hf⟩ := g.exists_mwordSize_eq
  obtain ⟨m, -, hm⟩ := (Nat.dvd_prime_pow Nat.prime_two).mp (g.mminAlign_dvd.trans (dvd_of_eq hf))
  exact ⟨m, hm⟩

theorem land_mminAlign_eq_zero_iff (g : Geometry) (a : ℤ) :
    Int.land a (g.mminAlign - 1) = 0 ↔ (g.mminAlign : ℤ) ∣ a := by
  obtain ⟨m, hm⟩ := exists_mminAlign_eq g
  rw [hm]
  push_cast
  rw [land_two_pow_sub_one]
  exact ⟨Int.dvd_of_emod_eq_zero, Int.emod_eq_zero_of_dvd⟩

namespace Cleared

variable {inside : Bool} {a : ℤ}

theorem start (g : Geometry) (a : ℤ) :
    Cleared g (Int.land a (g.mminAlign - 1) ≠ 0) 0 a where
  dvd k hk _ := by
    rw [Nat.le_zero.mp hk, pow_zero, Nat.cast_one]
    exact Int.one_dvd a
  outside hin := (land_mminAlign_eq_zero_iff g a).mp (by simpa using hin)

/-- The bit of the next unit asks for the next alignment. -/
theorem land_ne_zero_iff (ha : Cleared g inside e a) (he : 2 ^ e < g.mwordSize) :
    Int.land a (2 ^ e : ℕ) ≠ 0 ↔ ¬((2 ^ (e + 1) : ℕ) : ℤ) ∣ a := by
  have hlow := ha.dvd e le_rfl he.le
  push_cast at hlow ⊢
  exact land_two_pow_ne_zero_iff hlow

/-- A unit that the preprocessor drops, or that lies in the brace that is not entered. -/
theorem off (ha : Cleared g inside e a)
    (hoff : ¬(2 ^ e < g.mwordSize ∧ (g.mminAlign ≤ 2 ^ e ∨ inside))) :
    Cleared g inside (e + 1) a where
  dvd k hk hkh := by
    rcases Nat.le_succ_iff.mp hk with hk | rfl
    · exact ha.dvd k hk hkh
    · obtain ⟨m, hm⟩ := exists_mminAlign_eq g
      have hlt : 2 ^ e < 2 ^ (e + 1) := Nat.pow_lt_pow_right (by norm_num) (by omega)
      rw [not_and_or, not_or] at hoff
      obtain ⟨hmin, hin⟩ := hoff.resolve_left (by omega)
      have hem : e < m := by
        rw [hm, not_le] at hmin
        exact (Nat.pow_lt_pow_iff_right (by norm_num)).mp hmin
      refine Int.dvd_trans ?_ (ha.outside (by simpa using hin))
      rw [hm]
      exact Int.natCast_dvd_natCast.mpr (pow_dvd_pow 2 hem)
  outside := ha.outside

/-- A unit that is not needed. -/
theorem skip (ha : Cleared g inside e a) (hbit : ((2 ^ (e + 1) : ℕ) : ℤ) ∣ a) :
    Cleared g inside (e + 1) a where
  dvd k hk hkh := by
    rcases Nat.le_succ_iff.mp hk with hk | rfl
    · exact ha.dvd k hk hkh
    · exact hbit
  outside := ha.outside

/-- A unit that is stored. -/
theorem store (ha : Cleared g inside e a) (he : 2 ^ e < g.mwordSize)
    (hon : g.mminAlign ≤ 2 ^ e ∨ inside) (hbit : ¬((2 ^ (e + 1) : ℕ) : ℤ) ∣ a) :
    Cleared g inside (e + 1) (a + (2 ^ e : ℕ)) where
  dvd k hk hkh := by
    have hlow := ha.dvd e le_rfl he.le
    rcases Nat.le_succ_iff.mp hk with hk | rfl
    · exact Int.dvd_add (ha.dvd k hk hkh) (Int.natCast_dvd_natCast.mpr (pow_dvd_pow 2 hk))
    · obtain ⟨y, rfl⟩ := hlow
      have hpos : ((2 ^ e : ℕ) : ℤ) ≠ 0 := by positivity
      rw [pow_succ, Nat.cast_mul] at hbit ⊢
      rw [Int.mul_dvd_mul_iff_left hpos] at hbit
      rw [show ((2 ^ e : ℕ) : ℤ) * y + (2 ^ e : ℕ) = (2 ^ e : ℕ) * (y + 1) by ring,
        Int.mul_dvd_mul_iff_left hpos]
      push_cast at hbit ⊢
      omega
  outside hin := by
    obtain ⟨m, hm⟩ := exists_mminAlign_eq g
    have hmin := hon.resolve_right (by simp [hin])
    refine Int.dvd_add (ha.outside hin) (Int.natCast_dvd_natCast.mpr ?_)
    rw [hm] at hmin ⊢
    exact pow_dvd_pow 2 ((Nat.pow_le_pow_iff_right (by norm_num)).mp hmin)

end Cleared

/-- A `HEAD` step, before steps that deal with the higher bits of the address. -/
theorem bare_step {inside : Bool} {next : ℤ → MWord g → ℕ → Code g Unit}
    (hnext : ∀ (dest : ℤ) (val : MWord g) (n : ℕ), Cleared g inside (e + 1) dest →
      n < g.mwordSize → dest % g.mwordSize + n ≤ g.mwordSize →
        (next dest val n).bare = emitUnits dest (bytes n val))
    (hdest : Cleared g inside e dest) (hn : n < g.mwordSize)
    (hend : dest % g.mwordSize + n ≤ g.mwordSize) (val : MWord g) :
    (step inside (2 ^ e) next dest val n).bare = emitUnits dest (bytes n val) := by
  obtain ⟨f, -, hf⟩ := g.exists_mwordSize_eq
  by_cases hon : 2 ^ e < g.mwordSize ∧ (g.mminAlign ≤ 2 ^ e ∨ inside)
  swap
  · rw [step, if_neg hon]
    exact hnext _ _ _ (hdest.off hon) hn hend
  rw [step, if_pos hon, HEAD]
  by_cases hbit : ((2 ^ (e + 1) : ℕ) : ℤ) ∣ dest
  · rw [if_neg fun hland => (hdest.land_ne_zero_iff hon.1).mp hland hbit]
    exact hnext _ _ _ (hdest.skip hbit) hn hend
  rw [if_pos ((hdest.land_ne_zero_iff hon.1).mpr hbit)]
  by_cases hshort : n < 2 ^ e
  · -- the rest is shorter than the unit, so the other peel takes over
    rw [if_pos hshort]
    refine bare_heel hn (fun k hk => hdest.dvd k ?_ (by omega)) val
    exact (Nat.pow_le_pow_iff_right (by norm_num)).mp (by omega : 2 ^ k ≤ 2 ^ e)
  have hpos : 0 < 2 ^ e := by positivity
  have hwidth : (greedyCutter g.mwordSize).width dest n = 2 ^ e :=
    greedyCutter_width_two_pow hf hon.1.le (hdest.dvd e le_rfl hon.1.le) (by omega)
      (Or.inr (Or.inl hbit))
  rw [if_neg hshort, emitUnits_bytes hpos (by omega) hwidth, Nat.mul_comm (2 ^ e) 8]
  by_cases hdone : n - 2 ^ e = 0
  · simp [storeLow, hdone]
  · have hoffset : (dest + (2 ^ e : ℕ)) % (g.mwordSize : ℤ) = dest % g.mwordSize + (2 ^ e : ℕ) :=
      add_emod_of_lt (by omega)
    have hrest := hnext (dest + (2 ^ e : ℕ)) (val >>> (8 * 2 ^ e)) (n - 2 ^ e)
      (hdest.store hon.1 hon.2 hbit) (by omega) (by omega)
    rw [← hrest]
    simp [storeLow, hdone]

/-- `head`, for bytes that do not reach past the word of their address. -/
theorem bare_head (hn : n < g.mwordSize) (hend : dest % g.mwordSize + n ≤ g.mwordSize)
    (val : MWord g) : (head dest val n).bare = emitUnits dest (bytes n val) := by
  rw [head]
  refine bare_step (e := 0) (fun dest val n hdest hn hend => ?_) (Cleared.start g dest) hn hend val
  refine bare_step (e := 1) (fun dest val n hdest hn hend => ?_) hdest hn hend val
  refine bare_step (e := 2) (fun dest val n hdest hn hend => ?_) hdest hn hend val
  refine bare_step (e := 3) (fun dest val n hdest hn hend => ?_) hdest hn hend val
  refine bare_heel hn (fun k hk => hdest.dvd k ?_ (by omega)) val
  have hsmall := g.mwordSize_le
  exact (Nat.pow_le_pow_iff_right (by norm_num)).mp (by omega : 2 ^ k ≤ 2 ^ 4)

end Lft

end Lssc
