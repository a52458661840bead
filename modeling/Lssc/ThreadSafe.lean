import Lssc.Reflect
import Lssc.Streams
import Lssc.WordAccess.Delivery

/-!
# What the thread-safe routines store

`lssc_lft`, `lssc_lrt`, `init_lft` and `zero_lft` may run while other threads use the bytes next to
src and dest. Two things make that safe. They store nowhere but in dest, and each byte of dest
once. And what they store comes from src alone, although they do load words that lie only partly
in src, and words of dest.

The second is a statement about all runs in which the bytes outside src change between any two
loads. Such a run is one against an oracle that is honest about src. The test program
`lssc_mt.c` samples these runs.

## Main results

* `stores_threadSafe` — where the thread-safe routines store, in any environment
* `stores_undisturbed` — what they store does not depend on the bytes around src
-/

namespace Lssc

open WordAccess Program

variable {g : Geometry} {dest src : ℤ} {n : ℕ}

/-! ### Where -/

section Where

variable {σ : Type} (E : Environment g.mwordSize σ) (t : σ)

theorem extents_stores_lsscLft (hne : dest ≠ src) :
    extents (stores ((lsscLft g dest src n).trace E t))
      = (greedyCutter g.mwordSize).cuts dest n := by
  rw [← trace_bare, bare_lsscLft, stores_copyStream_units hne]

theorem extents_stores_lsscLrt (hne : dest ≠ src) :
    extents (stores ((lsscLrt g dest src n).trace E t))
      = (greedyCutter g.mwordSize).cutsDown (dest + n) n := by
  rw [trace_lsscLrt (Int.dvd_zero _), stores_map_reflect, extents_map_reflectRange,
    extents_stores_lsscLft _ _ (by omega), Cutter.cutsDown_eq _ greedyCutter_neg, sub_sub]

theorem extents_stores_initLft (ch : ℤ) :
    extents (stores ((initLft g dest ch n).trace E t))
      = (greedyCutter g.mwordSize).cuts dest n := by
  rw [← trace_bare, bare_initLft, stores_fillUnits]

theorem extents_stores_zeroLft :
    extents (stores ((zeroLft g dest n).trace E t)) = (greedyCutter g.mwordSize).cuts dest n := by
  rw [← trace_bare, bare_zeroLft, stores_fillUnits]

/-- **Where the thread-safe routines store**: in the units of the greedy decomposition of dest,
forward or in reverse. Those make up dest, and they are the same in every environment, for every
src and for every `MMIN_ALIGN`. -/
theorem stores_threadSafe (g : Geometry) {dest src : ℤ} (hne : dest ≠ src) (n : ℕ) (ch : ℤ)
    {σ : Type} (E : Environment g.mwordSize σ) (t : σ) :
    (∀ l, extents (stores ((lsscLft g dest src n).trace E t)) = l
      ↔ GreedyUp g.mwordSize (dest + n) dest l) ∧
    (∀ l, extents (stores ((initLft g dest ch n).trace E t)) = l
      ↔ GreedyUp g.mwordSize (dest + n) dest l) ∧
    (∀ l, extents (stores ((zeroLft g dest n).trace E t)) = l
      ↔ GreedyUp g.mwordSize (dest + n) dest l) ∧
    (∀ l, extents (stores ((lsscLrt g dest src n).trace E t)) = l
      ↔ GreedyDown g.mwordSize dest (dest + n) l) ∧
    (∀ l, GreedyUp g.mwordSize (dest + n) dest l → Tiles dest n l) ∧
    ∀ l, GreedyDown g.mwordSize dest (dest + n) l → Tiles dest n l := by
  obtain ⟨f, -, hf⟩ := g.exists_mwordSize_eq
  have hup : ∀ l, GreedyUp g.mwordSize (dest + n) dest l
      ↔ (greedyCutter g.mwordSize).cuts dest n = l := fun l => greedyUp_iff hf
  have hdown : ∀ l, GreedyDown g.mwordSize dest (dest + n) l
      ↔ (greedyCutter g.mwordSize).cutsDown (dest + n) n = l := fun l => by
    rw [← greedyDown_iff hf, add_sub_cancel_right]
  simp only [hup, hdown]
  refine ⟨fun l => ?_, fun l => ?_, fun l => ?_, fun l => ?_, fun l hl => ?_, fun l hl => ?_⟩
  · rw [extents_stores_lsscLft E t hne]
  · rw [extents_stores_initLft]
  · rw [extents_stores_zeroLft]
  · rw [extents_stores_lsscLrt E t hne]
  · exact hl ▸ tiles_cuts dest n
  · exact hl ▸ tiles_cutsDown dest n

/-- Thirteen bytes from `7` to `3`, in both directions. -/
theorem stores_threadSafe_overlapping :
    (∀ l, extents (stores (accesses (lsscLft .x86_64 3 7 13) fun x => BitVec.ofInt 8 x)) = l
      ↔ GreedyUp 8 16 3 l) ∧
    ∀ l, extents (stores (accesses (lsscLrt .x86_64 3 7 13) fun x => BitVec.ofInt 8 x)) = l
      ↔ GreedyDown 8 3 16 l :=
  have hstores := stores_threadSafe .x86_64 (show (3 : ℤ) ≠ 7 by decide) 13 0
    (Memory.environment 8) fun x => BitVec.ofInt 8 x
  ⟨hstores.1, hstores.2.2.2.1⟩

end Where

/-! ### What -/

/-- The stores of a run in which load number `t` is answered by `ω t`. -/
def storesAgainst {α : Type} (ω : ℕ → ℤ → MWord g) (p : Code g α) : List (ℤ × List Byte) :=
  stores (p.trace (oracleEnvironment ω) 0)

section What

variable {M : Memory} {ω : ℕ → ℤ → MWord g}

theorem storesAgainst_lsscLft (hω : HonestOracle ω M src n) :
    storesAgainst ω (lsscLft g dest src n)
      = if dest = src then [] else (greedyCutter g.mwordSize).chop dest (M.slice src n) := by
  rw [storesAgainst, ← trace_bare, bare_lsscLft]
  split
  · rw [copyStream, if_pos (Or.inl ‹_›), trace_pure, stores_nil]
  · exact stores_copyStream_oracle hω ‹_› 0

theorem storesAgainst_lsscLrt (hω : HonestOracle ω M src n) :
    storesAgainst ω (lsscLrt g dest src n)
      = (if 0 - dest - (n : ℤ) = 0 - src - n then []
          else (greedyCutter g.mwordSize).chop (0 - dest - n) (M.slice src n).reverse).map
            (reflectRange 0) := by
  rw [storesAgainst, trace_lsscLrt (Int.dvd_zero _), stores_map_reflect, mirror_oracleEnvironment,
    ← Memory.slice_reflect 0, ← storesAgainst_lsscLft (hω.mirror 0)]
  rfl

/-- **No byte outside src shows in what the thread-safe copies store**, at whatever load it is
changed: the stores are the same whether the bytes around src are those of `N t` at load number
`t`, or those of `N' t`. -/
theorem stores_undisturbed (g : Geometry) (M : Memory) (dest src : ℤ) (n : ℕ)
    (N N' : ℕ → Memory) :
    storesAgainst (disturb g.mwordSize M src n N) (lsscLft g dest src n)
        = storesAgainst (disturb g.mwordSize M src n N') (lsscLft g dest src n) ∧
      storesAgainst (disturb g.mwordSize M src n N) (lsscLrt g dest src n)
        = storesAgainst (disturb g.mwordSize M src n N') (lsscLrt g dest src n) := by
  have hN : HonestOracle (disturb g.mwordSize M src n N) M src n := honestOracle_disturb N
  have hN' : HonestOracle (disturb g.mwordSize M src n N') M src n := honestOracle_disturb N'
  constructor
  · rw [storesAgainst_lsscLft hN, storesAgainst_lsscLft hN']
  · rw [storesAgainst_lsscLrt hN, storesAgainst_lsscLrt hN']

end What

end Lssc
