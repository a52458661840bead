import Lssc.Memmove
import Lssc.WordAccess.Sharing

/-!
# Copies over their own source

What each copy does when dest lies inside src, or src inside dest, in the direction it was not
made for. `memmove` avoids these calls, but `lssc.h` promises its routines to wrappers it does not
know, and a wrapper has to know which of them it may make.

A forward copy onto dest above src does one of two things. Less than a word above, it is still
right: every word of src is loaded just before it is stored over. From a word on, it repeats the
first `dest - src` bytes of src all over dest, byte for byte as a copy byte by byte does. A reverse
copy is the same in the mirror.

## Main results

* `final_lsscLft_seen`, `final_lsscLf_seen` — where the forward copies end
* `copies_overlapping` — every byte that a copy leaves, for all ranges
* `isCopy_iff` — the ranges for which each copy is right
* `forward_eq_reverse_iff` — the ranges for which the direction does not matter
* `pieces_iff` — when a range may be copied in two pieces
-/

namespace Lssc

open WordAccess Program

variable {g : Geometry}

/-! ### Where the forward copies end -/

section Forward

variable (dest src : ℤ) (n : ℕ) (M : Memory)

/-- The terms of a program that is alone. -/
def alone : Terms where
  rely := Set.univ
  may _ _ := True

theorem final_lsscLft_seen : finalMemory (lsscLft g dest src n) M
    = M.write dest ((M.seen g.mwordSize dest src).slice src n) := by
  rw [finalMemory, ← final_bare, bare_lsscLft]
  exact (withstands_copyStream_units (t := alone) (fun _ _ => trivial)
    fun _ _ _ => trivial).final

theorem final_lsscLf_seen : finalMemory (lsscLf g dest src n) M
    = M.write dest ((M.seen g.mwordSize dest src).slice src n) := by
  rw [final_lsscLf_eq, final_lsscLft_seen]

/-- Byte `k` of dest after a forward copy, and everything else. -/
structure ForwardResult (h : ℕ) (M N : Memory) (dest src : ℤ) (n : ℕ) : Prop where
  /-- The bytes of src, or its first `dest - src` bytes over and over. -/
  inside : ∀ k : ℕ, k < n →
    N (dest + k) = if h ≤ dest - src then M (src + k % (dest - src)) else M (src + k)
  outside : ∀ x, x < dest ∨ dest + n ≤ x → N x = M x

/-- Memories with the same bytes in a range and outside of it are equal. -/
theorem memory_ext {N N' : Memory} (hin : ∀ k : ℕ, k < n → N (dest + k) = N' (dest + k))
    (hout : ∀ x, x < dest ∨ dest + n ≤ x → N x = N' x) : N = N' := by
  funext x
  by_cases hx : dest ≤ x ∧ x < dest + n
  · obtain ⟨k, hk⟩ := Int.eq_ofNat_of_zero_le (sub_nonneg.mpr hx.1)
    have hbyte := hin k (by omega)
    rwa [show dest + (k : ℤ) = x by omega] at hbyte
  · exact hout x (by omega)

theorem forwardResult_write {h : ℕ} :
    ForwardResult h M (M.write dest ((M.seen h dest src).slice src n)) dest src n where
  inside k hk := by
    rw [M.write_slice_add _ _ _ hk, Memory.seen, add_sub_cancel_left]
  outside x hx := M.write_of_outside (by rwa [Memory.length_slice])

end Forward

theorem forwardResult_copies (g : Geometry) (M : Memory) (dest src : ℤ) (n : ℕ) :
    ForwardResult g.mwordSize M (finalMemory (lsscLf g dest src n) M) dest src n ∧
      ForwardResult g.mwordSize M (finalMemory (lsscLft g dest src n) M) dest src n := by
  constructor
  · rw [final_lsscLf_seen]
    exact forwardResult_write dest src n M
  · rw [final_lsscLft_seen]
    exact forwardResult_write dest src n M

/-! ### Where the reverse copies end -/

/-- Byte `k` of dest from its end after a reverse copy, and everything else. -/
structure ReverseResult (h : ℕ) (M N : Memory) (dest src : ℤ) (n : ℕ) : Prop where
  /-- The bytes of src, or its last `src - dest` bytes over and over. -/
  inside : ∀ k : ℕ, k < n → N (dest + n - 1 - k)
    = if h ≤ src - dest then M (src + n - 1 - k % (src - dest)) else M (src + n - 1 - k)
  outside : ∀ x, x < dest ∨ dest + n ≤ x → N x = M x

theorem ForwardResult.reflect {h : ℕ} {M N : Memory} {dest src : ℤ} {n : ℕ}
    (hN : ForwardResult h (M.reflect 0) N (0 - dest - n) (0 - src - n) n) :
    ReverseResult h M (N.reflect 0) dest src n where
  inside k hk := by
    have hbyte := hN.inside k hk
    rw [show 0 - dest - (n : ℤ) - (0 - src - n) = src - dest by ring] at hbyte
    rw [Memory.reflect, show 0 - 1 - (dest + n - 1 - (k : ℤ)) = 0 - dest - n + k by ring, hbyte,
      Memory.reflect, Memory.reflect]
    congr 2
    · ring
    · ring
  outside x hx := by
    rw [Memory.reflect, hN.outside _ (by omega), Memory.reflect]
    congr 1
    ring

theorem ReverseResult.reflect {h : ℕ} {M N : Memory} {dest src : ℤ} {n : ℕ}
    (hN : ReverseResult h (M.reflect 0) N (0 - dest - n) (0 - src - n) n) :
    ForwardResult h M (N.reflect 0) dest src n where
  inside k hk := by
    have hbyte := hN.inside k hk
    rw [show 0 - src - (n : ℤ) - (0 - dest - n) = dest - src by ring] at hbyte
    rw [Memory.reflect, show 0 - 1 - (dest + (k : ℤ)) = 0 - dest - n + n - 1 - k by ring, hbyte,
      Memory.reflect, Memory.reflect]
    congr 2
    · ring
    · ring
  outside x hx := by
    rw [Memory.reflect, hN.outside _ (by omega), Memory.reflect]
    congr 1
    ring

theorem reverseResult_copies (g : Geometry) (M : Memory) (dest src : ℤ) (n : ℕ) :
    ReverseResult g.mwordSize M (finalMemory (lsscLr g dest src n) M) dest src n ∧
      ReverseResult g.mwordSize M (finalMemory (lsscLrt g dest src n) M) dest src n := by
  have hforward := forwardResult_write (h := g.mwordSize) (0 - dest - n) (0 - src - n) n
    (M.reflect 0)
  constructor
  · rw [finalMemory_lsscLr (Int.dvd_zero _), final_lsscLf_seen]
    exact hforward.reflect
  · rw [finalMemory_lsscLrt (Int.dvd_zero _), final_lsscLft_seen]
    exact hforward.reflect

/-- **What a copy does**, whatever dest and src have to do with each other: less than a word
against its direction, it copies, and from a word on it repeats the bytes it came by first. -/
theorem copies_overlapping (g : Geometry) (M : Memory) (dest src : ℤ) (n : ℕ) :
    (ForwardResult g.mwordSize M (finalMemory (lsscLf g dest src n) M) dest src n ∧
      ForwardResult g.mwordSize M (finalMemory (lsscLft g dest src n) M) dest src n) ∧
    ReverseResult g.mwordSize M (finalMemory (lsscLr g dest src n) M) dest src n ∧
      ReverseResult g.mwordSize M (finalMemory (lsscLrt g dest src n) M) dest src n :=
  ⟨forwardResult_copies g M dest src n, reverseResult_copies g M dest src n⟩

/-! ### Which ranges are copied -/

section Exact

variable {h : ℕ} {dest src : ℤ} {m n : ℕ}

/-- A memory with a single byte that is not zero. -/
def spot (a : ℤ) : Memory := fun x => if x = a then 1 else 0

theorem spot_ne {a x y : ℤ} (hx : x = a) (hy : y ≠ a) : spot a x ≠ spot a y := by
  rw [spot, spot, if_pos hx, if_neg hy]
  decide

theorem ForwardResult.forall_isCopy_iff [NeZero h] {F : Memory → Memory}
    (hF : ∀ M, ForwardResult h M (F M) dest src n) :
    (∀ M, Memory.IsCopy M (F M) dest src n) ↔ dest - src < h ∨ n ≤ dest - src := by
  constructor
  · intro hcopy
    by_contra! hfar
    obtain ⟨hle, hlt⟩ := hfar
    have hpos : (0 : ℤ) < h := by exact_mod_cast Nat.pos_of_neZero h
    obtain ⟨k, hk⟩ := Int.eq_ofNat_of_zero_le (hpos.le.trans hle)
    -- byte `dest - src` of dest is byte `0` of src
    have hbyte := (hF (spot src)).inside k (by omega)
    rw [if_pos hle, hk, Int.emod_self, add_zero, (hcopy _).inside k (by omega)] at hbyte
    exact spot_ne (a := src) rfl (by omega) hbyte.symm
  · intro hcond M
    refine ⟨fun k hk => ?_, (hF M).outside⟩
    rw [(hF M).inside k hk]
    split
    · rw [Int.emod_eq_of_lt (by omega) (by omega)]
    · rfl

theorem ReverseResult.forall_isCopy_iff [NeZero h] {F : Memory → Memory}
    (hF : ∀ M, ReverseResult h M (F M) dest src n) :
    (∀ M, Memory.IsCopy M (F M) dest src n) ↔ src - dest < h ∨ n ≤ src - dest := by
  constructor
  · intro hcopy
    by_contra! hfar
    obtain ⟨hle, hlt⟩ := hfar
    have hpos : (0 : ℤ) < h := by exact_mod_cast Nat.pos_of_neZero h
    obtain ⟨k, hk⟩ := Int.eq_ofNat_of_zero_le (hpos.le.trans hle)
    have hbyte := (hF (spot (src + n - 1))).inside k (by omega)
    have hback := (hcopy (spot (src + n - 1))).inside (n - 1 - k) (by omega)
    rw [show dest + ((n - 1 - k : ℕ) : ℤ) = dest + n - 1 - k by omega] at hback
    rw [if_pos hle, hk, Int.emod_self, sub_zero, hback] at hbyte
    exact spot_ne (a := src + n - 1) rfl (by omega) hbyte.symm
  · intro hcond M
    refine ⟨fun k hk => ?_, (hF M).outside⟩
    have hbyte := (hF M).inside (n - 1 - k) (by omega)
    rw [show dest + n - 1 - ((n - 1 - k : ℕ) : ℤ) = dest + k by omega,
      show src + n - 1 - ((n - 1 - k : ℕ) : ℤ) = src + k by omega] at hbyte
    rw [hbyte]
    split
    · rw [Int.emod_eq_of_lt (by omega) (by omega)]
      congr 1
      omega
    · rfl

end Exact

/-- **The ranges for which each copy is right**, whatever they hold: those that `memmove` picks it
for, the disjoint ones, and those less than a word apart. -/
theorem isCopy_iff (g : Geometry) (dest src : ℤ) (n : ℕ) :
    ((∀ M, Memory.IsCopy M (finalMemory (lsscLf g dest src n) M) dest src n)
      ↔ dest - src < g.mwordSize ∨ n ≤ dest - src) ∧
    ((∀ M, Memory.IsCopy M (finalMemory (lsscLft g dest src n) M) dest src n)
      ↔ dest - src < g.mwordSize ∨ n ≤ dest - src) ∧
    ((∀ M, Memory.IsCopy M (finalMemory (lsscLr g dest src n) M) dest src n)
      ↔ src - dest < g.mwordSize ∨ n ≤ src - dest) ∧
    ((∀ M, Memory.IsCopy M (finalMemory (lsscLrt g dest src n) M) dest src n)
      ↔ src - dest < g.mwordSize ∨ n ≤ src - dest) :=
  ⟨ForwardResult.forall_isCopy_iff fun M => (forwardResult_copies g M dest src n).1,
    ForwardResult.forall_isCopy_iff fun M => (forwardResult_copies g M dest src n).2,
    ReverseResult.forall_isCopy_iff fun M => (reverseResult_copies g M dest src n).1,
    ReverseResult.forall_isCopy_iff fun M => (reverseResult_copies g M dest src n).2⟩

/-- **Where the direction matters**: for overlapping ranges that are a word or more apart, and for
no others. -/
theorem forward_eq_reverse_iff (g : Geometry) (dest src : ℤ) (n : ℕ) :
    (∀ M, finalMemory (lsscLft g dest src n) M = finalMemory (lsscLrt g dest src n) M)
      ↔ |dest - src| < g.mwordSize ∨ n ≤ |dest - src| := by
  have hforward := ForwardResult.forall_isCopy_iff fun M => (forwardResult_copies g M dest src n).2
  have hreverse := ReverseResult.forall_isCopy_iff fun M => (reverseResult_copies g M dest src n).2
  have hpos : (0 : ℤ) < g.mwordSize := by exact_mod_cast g.mwordSize_pos
  constructor
  · intro heq
    -- one of the two is right, hence both
    rcases le_total dest src with hle | hle
    · have hcopy := fun M => heq M ▸ hforward.mpr (Or.inl (by omega)) M
      have := hreverse.mp hcopy
      rw [abs_of_nonpos (by omega)]
      omega
    · have hcopy := fun M => (heq M).symm ▸ hreverse.mpr (Or.inl (by omega)) M
      have := hforward.mp hcopy
      rw [abs_of_nonneg (by omega)]
      omega
  · intro hcond M
    have hl : Memory.IsCopy M (finalMemory (lsscLft g dest src n) M) dest src n := by
      refine hforward.mpr ?_ M
      have := le_abs_self (dest - src)
      rcases le_total dest src with hle | hle
      · omega
      · rwa [abs_of_nonneg (by omega)] at hcond
    have hr : Memory.IsCopy M (finalMemory (lsscLrt g dest src n) M) dest src n := by
      refine hreverse.mpr ?_ M
      rcases le_total dest src with hle | hle
      · rw [abs_of_nonpos (by omega)] at hcond
        omega
      · omega
    refine memory_ext dest n (fun k hk => ?_) fun x hx => ?_
    · rw [hl.inside k hk, hr.inside k hk]
    · rw [hl.outside x hx, hr.outside x hx]

/-! ### Copying in pieces -/

section Pieces

variable {h m n : ℕ} {F : ℤ → ℤ → ℕ → Memory → Memory} (dest src : ℤ)

/-- A range copied forward in two pieces, and at once. -/
theorem ForwardResult.two_pieces_iff [NeZero h]
    (hF : ∀ dest src n M, ForwardResult h M (F dest src n M) dest src n) :
    (∀ M, F (dest + m) (src + m) n (F dest src m M) = F dest src (m + n) M)
      ↔ dest ≤ src ∨ h ≤ dest - src ∨ m = 0 ∨ n = 0 ∨ m + n ≤ dest - src := by
  have hδ : dest + m - (src + m) = dest - src := by ring
  constructor
  · intro heq
    by_contra! hnear
    obtain ⟨hpos, hlt, hm, hn, hov⟩ := hnear
    -- a byte that the second piece reads where the first one has been stored
    obtain ⟨i, hi⟩ := Int.eq_ofNat_of_zero_le (le_max_left 0 (dest - src - m))
    obtain ⟨j, hj⟩ := Int.eq_ofNat_of_zero_le (show 0 ≤ src + m + i - dest by omega)
    have hsecond := (hF (dest + m) (src + m) n (F dest src m (spot (dest + j)))).inside i (by omega)
    have hfirst := (hF dest src m (spot (dest + j))).inside j (by omega)
    have hwhole := (hF dest src (m + n) (spot (dest + j))).inside (m + i) (by omega)
    rw [if_neg (by omega)] at hsecond hfirst hwhole
    rw [heq, show dest + m + (i : ℤ) = dest + ((m + i : ℕ) : ℤ) by omega, hwhole,
      show src + m + (i : ℤ) = dest + j by omega, hfirst] at hsecond
    exact spot_ne (by omega) (by omega) hsecond
  · intro hcond M
    have hfirst := hF dest src m M
    have hsecond := hF (dest + m) (src + m) n (F dest src m M)
    have hwhole := hF dest src (m + n) M
    refine memory_ext dest (m + n) (fun k hk => ?_) fun x hx => ?_
    · rw [hwhole.inside k hk]
      rcases Nat.lt_or_ge k m with hkm | hkm
      · rw [hsecond.outside _ (by omega), hfirst.inside k hkm]
      · obtain ⟨i, rfl⟩ := Nat.exists_eq_add_of_le hkm
        have hbyte := hsecond.inside i (by omega)
        rw [hδ, show dest + m + (i : ℤ) = dest + ((m + i : ℕ) : ℤ) by omega] at hbyte
        rw [hbyte]
        by_cases hfar : h ≤ dest - src
        · have hpos : 0 < dest - src := by
            have := Nat.pos_of_neZero h
            omega
          obtain ⟨r, hr⟩ := Int.eq_ofNat_of_zero_le (Int.emod_nonneg (i : ℤ) hpos.ne')
          have hrlt := Int.emod_lt_of_pos (i : ℤ) hpos
          have hmod : ((m + i : ℕ) : ℤ) % (dest - src) = ((m + r : ℕ) : ℤ) % (dest - src) := by
            rw [Nat.cast_add, ← Int.add_emod_emod, hr, Nat.cast_add]
          rw [if_pos hfar, if_pos hfar, hmod, hr]
          -- the second piece reads below dest, or what the first one has stored
          rcases lt_or_ge ((m + r : ℕ) : ℤ) (dest - src) with hbelow | habove
          · rw [hfirst.outside _ (by omega), Int.emod_eq_of_lt (by omega) hbelow, Nat.cast_add,
              add_assoc]
          · obtain ⟨j, hj⟩ := Int.eq_ofNat_of_zero_le (sub_nonneg.mpr habove)
            rw [show src + m + (r : ℤ) = dest + j by omega, hfirst.inside j (by omega),
              if_pos hfar, show ((m + r : ℕ) : ℤ) = j + (dest - src) by omega, Int.add_emod_right]
        · rw [if_neg hfar, if_neg hfar, hfirst.outside _ (by omega), Nat.cast_add, add_assoc]
    · rw [hsecond.outside x (by omega), hfirst.outside x (by omega), hwhole.outside x (by omega)]

/-- A range copied in reverse in two pieces, and at once. -/
theorem ReverseResult.two_pieces_iff [NeZero h]
    (hF : ∀ dest src n M, ReverseResult h M (F dest src n M) dest src n) :
    (∀ M, F dest src m (F (dest + m) (src + m) n M) = F dest src (m + n) M)
      ↔ src ≤ dest ∨ h ≤ src - dest ∨ m = 0 ∨ n = 0 ∨ m + n ≤ src - dest := by
  have hforward := ForwardResult.two_pieces_iff (h := h) (m := n) (n := m)
    (F := fun dest src n M => (F (0 - dest - n) (0 - src - n) n (M.reflect 0)).reflect 0)
    (0 - dest - (m + n : ℕ)) (0 - src - (m + n : ℕ))
    fun dest src n M => ReverseResult.reflect (hF _ _ n (M.reflect 0))
  have hplace : ∀ a : ℤ, 0 - (0 - a - ((m + n : ℕ) : ℤ)) - n = a + m ∧
      0 - (0 - a - ((m + n : ℕ) : ℤ) + n) - m = a ∧
      0 - (0 - a - ((m + n : ℕ) : ℤ)) - ((m + n : ℕ) : ℤ) = a := fun a =>
    ⟨by push_cast; ring, by push_cast; ring, by push_cast; ring⟩
  simp only [hplace, Memory.reflect_reflect, Nat.add_comm n m] at hforward
  have hmirror : (∀ M, F dest src m (F (dest + m) (src + m) n M) = F dest src (m + n) M) ↔
      ∀ M : Memory, (F dest src m (F (dest + m) (src + m) n (M.reflect 0))).reflect 0
        = (F dest src (m + n) (M.reflect 0)).reflect 0 := by
    constructor
    · intro heq M
      rw [heq]
    · intro heq M
      have hback := congrArg (Memory.reflect 0) (heq (M.reflect 0))
      simpa using hback
  rw [hmirror, hforward]
  omega

end Pieces

/-- **When a range may be copied in two pieces**, one call after the other in the direction of the
copy: always, but where the copy at once is right against its direction. -/
theorem pieces_iff (g : Geometry) (dest src : ℤ) (m n : ℕ) :
    ((∀ M, finalMemory (do lsscLf g dest src m; lsscLf g (dest + m) (src + m) n) M
        = finalMemory (lsscLf g dest src (m + n)) M)
      ↔ dest ≤ src ∨ g.mwordSize ≤ dest - src ∨ m = 0 ∨ n = 0 ∨ m + n ≤ dest - src) ∧
    ((∀ M, finalMemory (do lsscLft g dest src m; lsscLft g (dest + m) (src + m) n) M
        = finalMemory (lsscLft g dest src (m + n)) M)
      ↔ dest ≤ src ∨ g.mwordSize ≤ dest - src ∨ m = 0 ∨ n = 0 ∨ m + n ≤ dest - src) ∧
    ((∀ M, finalMemory (do lsscLr g (dest + m) (src + m) n; lsscLr g dest src m) M
        = finalMemory (lsscLr g dest src (m + n)) M)
      ↔ src ≤ dest ∨ g.mwordSize ≤ src - dest ∨ m = 0 ∨ n = 0 ∨ m + n ≤ src - dest) ∧
    ((∀ M, finalMemory (do lsscLrt g (dest + m) (src + m) n; lsscLrt g dest src m) M
        = finalMemory (lsscLrt g dest src (m + n)) M)
      ↔ src ≤ dest ∨ g.mwordSize ≤ src - dest ∨ m = 0 ∨ n = 0 ∨ m + n ≤ src - dest) := by
  simp only [finalMemory, final_bind]
  exact ⟨ForwardResult.two_pieces_iff dest src fun dest src n M =>
      (forwardResult_copies g M dest src n).1,
    ForwardResult.two_pieces_iff dest src fun dest src n M =>
      (forwardResult_copies g M dest src n).2,
    ReverseResult.two_pieces_iff dest src fun dest src n M =>
      (reverseResult_copies g M dest src n).1,
    ReverseResult.two_pieces_iff dest src fun dest src n M =>
      (reverseResult_copies g M dest src n).2⟩

end Lssc
