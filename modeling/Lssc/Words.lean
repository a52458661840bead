import Lssc.Reflect
import Lssc.Streams
import Lssc.WordAccess.Footprint

/-!
# Which words the routines touch

A copy loads every word that holds a byte of src, once and in the order it copies in. It loads no
other word but words of dest, and stores nothing outside words of dest. So no routine touches a
word, let alone a page, that holds no byte of src or dest, whatever the memory answers.

## Main definitions

* `CopyFootprint`, `FillFootprint` — what a trace may touch

## Main results

* `words_touched`
-/

namespace Lssc

open WordAccess Program

/-- The accesses of a copy: every word of src is loaded through `s`, in the order `r`, only words
of dest are loaded through `d`, and nothing lies outside the words of src and dest. -/
structure CopyFootprint (r : ℤ → ℤ → Prop) (h : ℕ) (dest src : ℤ) (n : ℕ) (t : List (Access Ptr)) :
    Prop where
  loads_s : EachWord r h src n (extents (loads .s t))
  loads_d : ∀ s ∈ extents (loads .d t), s.2 = h ∧ WordMeets h dest n s.1
  within : ∀ x ∈ t, InWordOf h src n x.extent ∨ InWordOf h dest n x.extent

/-- The accesses of a fill: only words of dest are loaded, and nothing lies outside them. -/
structure FillFootprint (h : ℕ) (dest : ℤ) (n : ℕ) (t : List (Access Ptr)) : Prop where
  loads_d : ∀ s ∈ extents (loads .d t), s.2 = h ∧ WordMeets h dest n s.1
  within : ∀ x ∈ t, InWordOf h dest n x.extent

/-- What is stored through words of dest or in them completes a footprint. -/
theorem CopyFootprint.of_stores {r : ℤ → ℤ → Prop} {h : ℕ} {dest src : ℤ} {n : ℕ}
    {t : List (Access Ptr)} (hs : EachWord r h src n (extents (loads .s t)))
    (hd : ∀ s ∈ extents (loads .d t), s.2 = h ∧ WordMeets h dest n s.1)
    (hstores : ∀ s ∈ extents (stores t), InWordOf h dest n s) :
    CopyFootprint r h dest src n t where
  loads_s := hs
  loads_d := hd
  within := by
    refine forall_extent t (fun v s hv => ?_) fun s hs => Or.inr (hstores s hs)
    cases v with
    | s => exact Or.inl (hs.inWordOf hv)
    | d => exact Or.inr ((hd s hv).2.inWordOf (hd s hv).1)

theorem CopyFootprint.reflect {h : ℕ} {dest dest' src src' K : ℤ} {n : ℕ} {t : List (Access Ptr)}
    (hK : (h : ℤ) ∣ K) (hdest : dest + dest' + n = K) (hsrc : src + src' + n = K)
    (ht : CopyFootprint (· < ·) h dest src n t) :
    CopyFootprint (· > ·) h dest' src' n (t.map (Access.reflect K)) where
  loads_s := by
    rw [loads_map_reflect, extents_map_reflectRange]
    exact ht.loads_s.reflect hK hsrc
  loads_d := by
    rw [loads_map_reflect, extents_map_reflectRange, List.forall_mem_map]
    rintro ⟨x, p⟩ hx
    obtain ⟨rfl, hmeets⟩ := ht.loads_d _ hx
    exact ⟨rfl, hmeets.reflect hK hdest⟩
  within := by
    rw [List.forall_mem_map]
    intro x hx
    rw [Access.extent_reflect]
    exact (ht.within x hx).imp (·.reflect hK hsrc) (·.reflect hK hdest)

theorem FillFootprint.of_stores {h : ℕ} {dest : ℤ} {n : ℕ} {t : List (Access Ptr)}
    (hloads : ∀ v, ∀ s ∈ extents (loads v t), s.2 = h ∧ WordMeets h dest n s.1)
    (hstores : ∀ s ∈ extents (stores t), InWordOf h dest n s) : FillFootprint h dest n t where
  loads_d := hloads .d
  within := by
    refine forall_extent t (fun v s hv => ?_) hstores
    exact (hloads v s hv).2.inWordOf (hloads v s hv).1

section Routines

variable {g : Geometry} {dest src : ℤ} {n : ℕ} {σ : Type} (E : Environment g.mwordSize σ) (t : σ)

/-! ### The forward copies -/

theorem extents_stores_lsscLf (hne : dest ≠ src) :
    extents (stores ((lsscLf g dest src n).trace E t))
      = (words g.mwordSize dest n).map fun x => (x, g.mwordSize) := by
  rw [← trace_bare, bare_lsscLf, stores_copyStream_words hne]

/-- The footprint of a stream, for an emitter that loads no word but the one it stores to. -/
theorem copyFootprint_copyStream {emit : MWord g → ℤ → List Byte → Code g Unit}
    (hs : ∀ (c : MWord g) (a : ℤ) (bs : List Byte) (t : σ),
      loads .s ((emit c a bs).trace E t) = [])
    (hd : ∀ (c : MWord g) (a : ℤ) (bs : List Byte) (t : σ),
      ∀ x ∈ loads .d ((emit c a bs).trace E t),
        x.1 = a - a % g.mwordSize ∧ x.2.length = g.mwordSize)
    (hstores : ∀ s ∈ extents (stores ((copyStream .s .d emit dest src n).trace E t)),
      InWordOf g.mwordSize dest n s)
    (hne : dest ≠ src) :
    CopyFootprint (· < ·) g.mwordSize dest src n
      ((copyStream .s .d emit dest src n).trace E t) := by
  refine .of_stores ?_ (List.forall_mem_map.mpr fun x hx => ?_) hstores
  · rw [loads_copyStream_src (by decide) hs hne]
    exact eachWord_words src n
  · obtain ⟨hword, hlen⟩ := loads_copyStream_dest (by decide) hd t hx
    exact ⟨hlen, mem_words_iff_wordMeets.mp hword⟩

theorem copyFootprint_lsscLf (hne : dest ≠ src) :
    CopyFootprint (· < ·) g.mwordSize dest src n ((lsscLf g dest src n).trace E t) := by
  have hs : ∀ (c : MWord g) (a : ℤ) (bs : List Byte) (t : σ),
      loads .s ((emitWord .d c a bs : Code g Unit).trace E t) = [] := fun c a bs t =>
    List.eq_nil_iff_forall_not_mem.mpr fun x hx => by cases (loads_emitWord _ _ c a bs t hx).1
  rw [← trace_bare, bare_lsscLf]
  refine copyFootprint_copyStream E t hs (fun c a bs t x hx => ?_) (fun s hs => ?_) hne
  · exact (loads_emitWord _ _ c a bs t hx).2
  · rw [stores_copyStream_words hne] at hs
    exact (eachWord_words dest n).inWordOf hs

theorem copyFootprint_lsscLft (hne : dest ≠ src) :
    CopyFootprint (· < ·) g.mwordSize dest src n ((lsscLft g dest src n).trace E t) := by
  rw [← trace_bare, bare_lsscLft]
  refine copyFootprint_copyStream E t (fun _ => loads_emitUnits Ptr.s) (fun c a bs t x hx => ?_)
    (fun s hs => ?_) hne
  · rw [loads_emitUnits] at hx
    cases hx
  · rw [stores_copyStream_units hne] at hs
    exact inWordOf_of_mem_cuts_greedy hs

/-! ### The reverse copies -/

theorem eachWord_stores_lsscLr (hne : dest ≠ src) :
    EachWord (· > ·) g.mwordSize dest n
      (extents (stores ((lsscLr g dest src n).trace E t))) := by
  rw [trace_lsscLr (Int.dvd_zero _), stores_map_reflect, extents_map_reflectRange,
    extents_stores_lsscLf _ _ (by omega)]
  exact (eachWord_words _ n).reflect (Int.dvd_zero _) (by omega)

theorem copyFootprint_lsscLr (hne : dest ≠ src) :
    CopyFootprint (· > ·) g.mwordSize dest src n ((lsscLr g dest src n).trace E t) := by
  rw [trace_lsscLr (Int.dvd_zero _)]
  exact (copyFootprint_lsscLf _ t (by omega)).reflect (Int.dvd_zero _) (by omega) (by omega)

theorem copyFootprint_lsscLrt (hne : dest ≠ src) :
    CopyFootprint (· > ·) g.mwordSize dest src n ((lsscLrt g dest src n).trace E t) := by
  rw [trace_lsscLrt (Int.dvd_zero _)]
  exact (copyFootprint_lsscLft _ t (by omega)).reflect (Int.dvd_zero _) (by omega) (by omega)

/-! ### The fills -/

theorem fillFootprint_fillWords (x : Byte) :
    FillFootprint g.mwordSize dest n ((fillWords .d x dest n : Code g Unit).trace E t) := by
  refine .of_stores (fun v => List.forall_mem_map.mpr fun y hy => ?_) fun s hs => ?_
  · obtain ⟨hword, hlen⟩ := loads_fillWords v t hy
    exact ⟨hlen, mem_words_iff_wordMeets.mp hword⟩
  · rw [stores_fillWords] at hs
    exact (eachWord_words dest n).inWordOf hs

theorem fillFootprint_fillUnits (x : Byte) :
    FillFootprint g.mwordSize dest n ((fillUnits x dest n : Code g Unit).trace E t) := by
  refine .of_stores (fun v s hs => ?_) fun s hs => ?_
  · rw [loads_fillUnits] at hs
    cases hs
  · rw [stores_fillUnits] at hs
    exact inWordOf_of_mem_cuts_greedy hs

end Routines

/-- **Which words the routines touch**, in any environment: the copies load every word of src once,
the plain routines store every word of dest once, and no other word is touched. -/
theorem words_touched (g : Geometry) {dest src : ℤ} (hne : dest ≠ src) (n : ℕ) (ch : ℤ)
    {σ : Type} (E : Environment g.mwordSize σ) (t : σ) :
    (CopyFootprint (· < ·) g.mwordSize dest src n ((lsscLf g dest src n).trace E t) ∧
      CopyFootprint (· < ·) g.mwordSize dest src n ((lsscLft g dest src n).trace E t) ∧
      CopyFootprint (· > ·) g.mwordSize dest src n ((lsscLr g dest src n).trace E t) ∧
      CopyFootprint (· > ·) g.mwordSize dest src n ((lsscLrt g dest src n).trace E t)) ∧
    (FillFootprint g.mwordSize dest n ((initLf g dest ch n).trace E t) ∧
      FillFootprint g.mwordSize dest n ((initLft g dest ch n).trace E t) ∧
      FillFootprint g.mwordSize dest n ((zeroLf g dest n).trace E t) ∧
      FillFootprint g.mwordSize dest n ((zeroLft g dest n).trace E t)) ∧
    EachWord (· < ·) g.mwordSize dest n (extents (stores ((lsscLf g dest src n).trace E t))) ∧
    EachWord (· < ·) g.mwordSize dest n (extents (stores ((initLf g dest ch n).trace E t))) ∧
    EachWord (· < ·) g.mwordSize dest n (extents (stores ((zeroLf g dest n).trace E t))) ∧
    EachWord (· > ·) g.mwordSize dest n (extents (stores ((lsscLr g dest src n).trace E t))) := by
  refine ⟨⟨copyFootprint_lsscLf E t hne, copyFootprint_lsscLft E t hne,
    copyFootprint_lsscLr E t hne, copyFootprint_lsscLrt E t hne⟩, ⟨?_, ?_, ?_, ?_⟩, ?_, ?_, ?_,
    eachWord_stores_lsscLr E t hne⟩
  · rw [← trace_bare, bare_initLf]
    exact fillFootprint_fillWords E t _
  · rw [← trace_bare, bare_initLft]
    exact fillFootprint_fillUnits E t _
  · rw [← trace_bare, bare_zeroLf]
    exact fillFootprint_fillWords E t _
  · rw [← trace_bare, bare_zeroLft]
    exact fillFootprint_fillUnits E t _
  · rw [extents_stores_lsscLf E t hne]
    exact eachWord_words dest n
  · rw [← trace_bare, bare_initLf, stores_fillWords]
    exact eachWord_words dest n
  · rw [← trace_bare, bare_zeroLf, stores_fillWords]
    exact eachWord_words dest n

/-- Thirteen bytes from `7` to `3`, which overlap. -/
theorem words_touched_overlapping :
    CopyFootprint (· < ·) 8 3 7 13
        (accesses (lsscLft .x86_64 3 7 13) fun x => BitVec.ofInt 8 x) ∧
      CopyFootprint (· > ·) 8 3 7 13
        (accesses (lsscLrt .x86_64 3 7 13) fun x => BitVec.ofInt 8 x) :=
  have htouched := words_touched .x86_64 (show (3 : ℤ) ≠ 7 by decide) 13 0
    (Memory.environment 8) fun x => BitVec.ofInt 8 x
  ⟨htouched.1.2.1, htouched.1.2.2.2⟩

end Lssc
