import Lssc.Streams
import Lssc.WordAccess.Delivery

/-!
# `memset` and `bzero`

The memories that the fills end in. A plain fill stores whole words, and a thread-safe one stores
aligned units of dest alone, but both are one write of a constant row, wherever dest starts and
ends. The byte is `ch` modulo `256` because it goes through `(unsigned char)`.

## Main definitions

* `memset`, `bzero` — the wrappers of `README.md`

## Main results

* `final_initLf`, `final_initLft`, `final_zeroLf`, `final_zeroLft` — where each fill ends
* `init_isFill` — `init_lf` and `init_lft` are `memset`
* `zero_isFill` — `zero_lf` and `zero_lft` are `bzero`
-/

namespace Lssc

open WordAccess Program

variable {g : Geometry}

/-- `memset`, as the README builds it. -/
def memset (g : Geometry) (dest c : ℤ) (n : ℕ) : Code g ℤ := do
  initLft g dest c n
  pure dest

/-- `bzero`, as the README builds it. -/
def bzero (g : Geometry) (dest : ℤ) (n : ℕ) : Code g Unit := zeroLft g dest n

/-! ### Where the fills end -/

section Fills

variable (dest ch : ℤ) (n : ℕ) (M : Memory)

theorem final_initLf : finalMemory (initLf g dest ch n) M
    = M.write dest (List.replicate n (BitVec.ofInt 8 ch)) := by
  rw [finalMemory, ← final_bare, bare_initLf, final_fillWords]

theorem final_initLft : finalMemory (initLft g dest ch n) M
    = M.write dest (List.replicate n (BitVec.ofInt 8 ch)) := by
  rw [finalMemory, ← final_bare, bare_initLft, final_fillUnits]

theorem final_zeroLf : finalMemory (zeroLf g dest n) M = M.write dest (List.replicate n 0) := by
  rw [finalMemory, ← final_bare, bare_zeroLf, final_fillWords]

theorem final_zeroLft : finalMemory (zeroLft g dest n) M = M.write dest (List.replicate n 0) := by
  rw [finalMemory, ← final_bare, bare_zeroLft, final_fillUnits]

end Fills

/-! ### Filling and clearing -/

/-- `(unsigned char)ch`. -/
theorem toNat_uchar (ch : ℤ) : ((BitVec.ofInt 8 ch).toNat : ℤ) = ch % 256 := by
  have hnonneg : 0 ≤ ch % 256 := Int.emod_nonneg ch (by decide)
  rw [BitVec.toNat_ofInt]
  exact Int.toNat_of_nonneg hnonneg

/-- **Both fills are `memset`**, for every `ch`. -/
theorem init_isFill (g : Geometry) (M : Memory) (dest ch : ℤ) (n : ℕ) :
    Memory.IsFill M (finalMemory (initLf g dest ch n) M) dest n (ch % 256) ∧
      Memory.IsFill M (finalMemory (initLft g dest ch n) M) dest n (ch % 256) := by
  have hfill := M.isFill_write dest n (BitVec.ofInt 8 ch)
  rw [toNat_uchar] at hfill
  constructor
  · rw [final_initLf]
    exact hfill
  · rw [final_initLft]
    exact hfill

/-- **Both clears are `bzero`.** -/
theorem zero_isFill (g : Geometry) (M : Memory) (dest : ℤ) (n : ℕ) :
    Memory.IsFill M (finalMemory (zeroLf g dest n) M) dest n 0 ∧
      Memory.IsFill M (finalMemory (zeroLft g dest n) M) dest n 0 := by
  constructor
  · rw [final_zeroLf]
    exact M.isFill_write dest n 0
  · rw [final_zeroLft]
    exact M.isFill_write dest n 0

end Lssc
