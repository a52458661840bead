import Lssc.Reflect
import Lssc.Streams
import Lssc.WordAccess.Delivery

/-!
# `memcpy` and `memmove`

The memories that the four copies end in, and the wrapper `memmove` of `README.md`, which picks the
direction.

A copy reads ahead of what it writes, and it is right as long as it does not run into the bytes it
has written itself: forward, dest must not start inside src, and in reverse, dest must not end
inside it. Disjoint ranges are both. For every pair of ranges one of the two holds, and `memmove`
tests which.

## Main definitions

* `dispatch` — the test of `memmove`, over any two copies
* `memcpy`, `memmove`, `plainMemmove`

## Main results

* `final_lsscLft`, `final_lsscLf`, `final_lsscLrt`, `final_lsscLr` — what each copy is right for
* `memmove_isCopy` — `memmove` is right for all ranges
* `lsscLft_isCopy`, `lsscLrt_isCopy`, `lsscLf_isCopy`, `lsscLr_isCopy` — each copy is a `memcpy`
* `finalMemory_threadSafe_eq_plain` — thread-safe and plain copies end in the same memory, also
  where neither is right
-/

namespace Lssc

open WordAccess Program

variable {g : Geometry}

/-- `memcpy`, as the README builds it. -/
def memcpy (g : Geometry) (dest src : ℤ) (n : ℕ) : Code g ℤ := do
  lsscLft g dest src n
  pure dest

/-- `if (src < dest) reverse(dest, src, n); else forward(dest, src, n); return dest;` -/
def dispatch (reverse forward : ℤ → ℤ → ℕ → Code g Unit) (dest src : ℤ) (n : ℕ) : Code g ℤ := do
  (if src < dest then reverse dest src n else forward dest src n)
  pure dest

/-- `memmove`, as the README builds it. -/
def memmove (g : Geometry) : ℤ → ℤ → ℕ → Code g ℤ := dispatch (lsscLrt g) (lsscLft g)

/-- `memmove`, built from the routines that are not thread-safe. -/
def plainMemmove (g : Geometry) : ℤ → ℤ → ℕ → Code g ℤ := dispatch (lsscLr g) (lsscLf g)

/-! ### Where the copies end -/

section Copies

variable {dest src : ℤ} {n : ℕ}

theorem final_lsscLft (hov : dest ≤ src ∨ src + n ≤ dest) (M : Memory) :
    finalMemory (lsscLft g dest src n) M = M.write dest (M.slice src n) := by
  rw [finalMemory, ← final_bare, bare_lsscLft, final_copyStream_units hov]

/-- Whole words or units, a forward copy ends in the same memory. -/
theorem final_lsscLf_eq (dest src : ℤ) (n : ℕ) (M : Memory) :
    finalMemory (lsscLf g dest src n) M = finalMemory (lsscLft g dest src n) M := by
  rw [finalMemory, finalMemory, ← final_bare, bare_lsscLf, final_copyStream_words,
    ← bare_lsscLft, final_bare]

theorem final_lsscLf (hov : dest ≤ src ∨ src + n ≤ dest) (M : Memory) :
    finalMemory (lsscLf g dest src n) M = M.write dest (M.slice src n) := by
  rw [final_lsscLf_eq, final_lsscLft hov]

theorem final_lsscLrt (hov : src ≤ dest ∨ dest + n ≤ src) (M : Memory) :
    finalMemory (lsscLrt g dest src n) M = M.write dest (M.slice src n) := by
  have hwrite := (M.reflect 0).reflect_write 0 dest (M.slice src n)
  rw [Memory.length_slice, Memory.reflect_reflect] at hwrite
  rw [finalMemory_lsscLrt (Int.dvd_zero _), final_lsscLft (by omega), Memory.slice_reflect, hwrite]

/-- Whole words or units, a reverse copy ends in the same memory. -/
theorem final_lsscLr_eq_lsscLrt (dest src : ℤ) (n : ℕ) (M : Memory) :
    finalMemory (lsscLr g dest src n) M = finalMemory (lsscLrt g dest src n) M := by
  rw [finalMemory_lsscLr (Int.dvd_zero _), final_lsscLf_eq, finalMemory_lsscLrt (Int.dvd_zero _)]

theorem final_lsscLr (hov : src ≤ dest ∨ dest + n ≤ src) (M : Memory) :
    finalMemory (lsscLr g dest src n) M = M.write dest (M.slice src n) := by
  rw [final_lsscLr_eq_lsscLrt, final_lsscLrt hov]

end Copies

/-! ### Moving -/

/-- Whichever copy is picked is right for the ranges it is picked for. -/
theorem final_dispatch {reverse forward : ℤ → ℤ → ℕ → Code g Unit} (dest src : ℤ) (n : ℕ)
    (M : Memory)
    (hreverse : src ≤ dest → finalMemory (reverse dest src n) M = M.write dest (M.slice src n))
    (hforward : dest ≤ src → finalMemory (forward dest src n) M = M.write dest (M.slice src n)) :
    finalMemory (dispatch reverse forward dest src n) M = M.write dest (M.slice src n) := by
  rw [finalMemory, dispatch, final_bind, final_pure]
  split
  · exact hreverse (by omega)
  · exact hforward (by omega)

/-- **`memmove` moves**, whatever the ranges have to do with each other. -/
theorem memmove_isCopy (g : Geometry) (M : Memory) (dest src : ℤ) (n : ℕ) :
    Memory.IsCopy M (finalMemory (memmove g dest src n) M) dest src n ∧
      Memory.IsCopy M (finalMemory (plainMemmove g dest src n) M) dest src n := by
  constructor
  · rw [memmove, final_dispatch dest src n M (fun hle => final_lsscLrt (.inl hle) M)
      fun hle => final_lsscLft (.inl hle) M]
    exact M.isCopy_write dest src n
  · rw [plainMemmove, final_dispatch dest src n M (fun hle => final_lsscLr (.inl hle) M)
      fun hle => final_lsscLf (.inl hle) M]
    exact M.isCopy_write dest src n

/-! ### Copying -/

section Disjoint

variable {dest src : ℤ} {n : ℕ}

/-- **`lssc_lft` is `memcpy`.** -/
theorem lsscLft_isCopy (hdisj : src + n ≤ dest ∨ dest + n ≤ src) (M : Memory) :
    Memory.IsCopy M (finalMemory (lsscLft g dest src n) M) dest src n := by
  rw [final_lsscLft (by omega)]
  exact M.isCopy_write dest src n

/-- From `[3, 14)` to the range behind it, which begins in the same word. -/
theorem lsscLft_isCopy_adjacent :
    Memory.IsCopy (fun x => BitVec.ofInt 8 x)
      (finalMemory (lsscLft .x86_64 14 3 11) fun x => BitVec.ofInt 8 x) 14 3 11 :=
  lsscLft_isCopy (by decide) _

/-- **`lssc_lrt` is `memcpy`.** -/
theorem lsscLrt_isCopy (hdisj : src + n ≤ dest ∨ dest + n ≤ src) (M : Memory) :
    Memory.IsCopy M (finalMemory (lsscLrt g dest src n) M) dest src n := by
  rw [final_lsscLrt (by omega)]
  exact M.isCopy_write dest src n

/-- From `[14, 25)` to the range before it, which ends in the same word. -/
theorem lsscLrt_isCopy_adjacent :
    Memory.IsCopy (fun x => BitVec.ofInt 8 x)
      (finalMemory (lsscLrt .x86_64 3 14 11) fun x => BitVec.ofInt 8 x) 3 14 11 :=
  lsscLrt_isCopy (by decide) _

/-- **`lssc_lf` is `memcpy`**, the words it stores back included. -/
theorem lsscLf_isCopy (hdisj : src + n ≤ dest ∨ dest + n ≤ src) (M : Memory) :
    Memory.IsCopy M (finalMemory (lsscLf g dest src n) M) dest src n := by
  rw [final_lsscLf (by omega)]
  exact M.isCopy_write dest src n

/-- The word at `12` holds the end of src and the start of dest. -/
theorem lsscLf_isCopy_adjacent :
    Memory.IsCopy (fun x => BitVec.ofInt 8 x)
      (finalMemory (lsscLf .i386 14 3 11) fun x => BitVec.ofInt 8 x) 14 3 11 :=
  lsscLf_isCopy (by decide) _

/-- **`lssc_lr` is `memcpy`**, the words it stores back included. -/
theorem lsscLr_isCopy (hdisj : src + n ≤ dest ∨ dest + n ≤ src) (M : Memory) :
    Memory.IsCopy M (finalMemory (lsscLr g dest src n) M) dest src n := by
  rw [final_lsscLr (by omega)]
  exact M.isCopy_write dest src n

/-- The word at `12` holds the start of src and the end of dest. -/
theorem lsscLr_isCopy_adjacent :
    Memory.IsCopy (fun x => BitVec.ofInt 8 x)
      (finalMemory (lsscLr .i386 3 14 11) fun x => BitVec.ofInt 8 x) 3 14 11 :=
  lsscLr_isCopy (by decide) _

end Disjoint

/-! ### Words and units -/

/-- **Thread-safe and plain copies end in the same memory**, for all ranges. -/
theorem finalMemory_threadSafe_eq_plain (g : Geometry) (M : Memory) (dest src : ℤ) (n : ℕ) :
    finalMemory (lsscLft g dest src n) M = finalMemory (lsscLf g dest src n) M ∧
      finalMemory (lsscLrt g dest src n) M = finalMemory (lsscLr g dest src n) M :=
  ⟨(final_lsscLf_eq dest src n M).symm, (final_lsscLr_eq_lsscLrt dest src n M).symm⟩

end Lssc
