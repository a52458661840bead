import Lssc.Bench
import Lssc.Words
import Lssc.WordAccess.Counting

/-!
# How many accesses a copy takes

`lssc_bench.c` times the routines against `byte_copy`. What can be said without a machine is how
many accesses they make. A copy onto its source makes none. Otherwise the words of src and dest
decide and nothing else: not the bytes, not the distance, not whether the memory is disturbed.

The plain routines are charged twice for the words that dest does not fill. They are loaded, so
that what lies around dest can be put back. For a copy that is too much for one byte, or for two
bytes that lie in two words each. From three bytes on it always pays, though only just: three bytes
may take six accesses, which is what `byte_copy` takes.

## Main results

* `length_trace_plain` — the number of accesses of the plain routines
* `length_le_byteCopy_iff` — which copies never take more accesses than `byte_copy`
-/

namespace Lssc

open WordAccess Program

theorem length_accesses (t : List (Access Ptr)) :
    t.length = (loads .s t).length + (loads .d t).length + (stores t).length := by
  induction t with
  | nil => rfl
  | cons x t ih =>
    cases x with
    | load via a bs =>
      cases via with
      | s =>
        simp only [loads_load, stores_load, List.length_cons, if_true, reduceCtorEq, if_false, ih]
        omega
      | d =>
        simp only [loads_load, stores_load, List.length_cons, if_true, reduceCtorEq, if_false, ih]
        omega
    | store a bs =>
      simp only [loads_store, stores_store, List.length_cons, ih]
      omega

variable {g : Geometry} {dest src : ℤ} {n : ℕ} {σ : Type}

section Counts

variable (E : Environment g.mwordSize σ) (t : σ)

/-! ### The forward copies -/

theorem length_loads_s {p : Code g Unit}
    (hp : CopyFootprint (· < ·) g.mwordSize dest src n (p.trace E t)) :
    (loads .s (p.trace E t)).length = (words g.mwordSize src n).length := by
  have hlen := hp.loads_s.length_eq (eachWord_words src n)
  rwa [extents, List.length_map, List.length_map] at hlen

/-- **The accesses of `lssc_lf`.** -/
theorem length_trace_lsscLf (hne : dest ≠ src) (hn : 0 < n) :
    ((lsscLf g dest src n).trace E t).length
      = (words g.mwordSize src n).length + (words g.mwordSize dest n).length
        + (if src % g.mwordSize = 0 ∧ dest % g.mwordSize = 0 then 0 else 1)
        + if (g.mwordSize : ℤ) ∣ dest + n then 0 else 1 := by
  have hstores := congrArg List.length (extents_stores_lsscLf (n := n) E t hne)
  have hd : (loads .d ((copyStream .s .d (emitWord .d) dest src n : Code g Unit).trace E t)).length
      = _ := length_loads_copyStream_words (by decide) hne hn t
  rw [extents, List.length_map, List.length_map] at hstores
  rw [← bare_lsscLf, trace_bare] at hd
  rw [length_accesses, length_loads_s E t (copyFootprint_lsscLf E t hne), hstores, hd]
  omega

/-- **The accesses of `lssc_lft`**, which loads no word of dest but the first. -/
theorem length_trace_lsscLft (hne : dest ≠ src) (hn : 0 < n) :
    ((lsscLft g dest src n).trace E t).length
      = (words g.mwordSize src n).length + ((greedyCutter g.mwordSize).cuts dest n).length
        + if src % g.mwordSize = 0 ∧ dest % g.mwordSize = 0 then 0 else 1 := by
  have hstores : extents (stores ((copyStream .s .d (fun _ => emitUnits) dest src n :
      Code g Unit).trace E t)) = _ := stores_copyStream_units hne t
  have hd : (loads .d ((copyStream .s .d (fun _ => emitUnits) dest src n :
      Code g Unit).trace E t)).length = _ := length_loads_copyStream_units (by decide) hne hn t
  rw [← bare_lsscLft, trace_bare] at hd hstores
  replace hstores := congrArg List.length hstores
  rw [extents, List.length_map] at hstores
  rw [length_accesses, length_loads_s E t (copyFootprint_lsscLft E t hne), hstores, hd]
  omega

theorem loads_s_fillWords (x : Byte) :
    loads .s ((fillWords .d x dest n : Code g Unit).trace E t) = [] := by
  have hstream : ∀ (c : MWord g) (t : σ), loads .s ((deliver (constSupply x) (emitWord .d c)
      ((wordCutter g.mwordSize).cuts dest n) () : Code g Unit).trace E t) = [] := by
    intro c t
    refine List.eq_nil_iff_forall_not_mem.mpr fun y hy => ?_
    obtain ⟨p, -, bs, t, hy⟩ := mem_loads_deliver (fun _ _ _ => rfl) hy
    cases (loads_emitWord Ptr.d Ptr.s c p.1 bs t hy).1
  rw [fillWords]
  split
  · rfl
  split
  · exact hstream 0 t
  · rw [Program.trace_load, loads_load, if_neg (by decide)]
    exact hstream _ _

theorem length_trace_fillWords (x : Byte) :
    ((fillWords .d x dest n : Code g Unit).trace E t).length
      = if n = 0 then 0
        else (words g.mwordSize dest n).length + (if dest % g.mwordSize = 0 then 0 else 1)
          + if (g.mwordSize : ℤ) ∣ dest + n then 0 else 1 := by
  by_cases hn : n = 0
  · rw [if_pos hn, fillWords, if_pos hn]
    rfl
  · have hstores : extents (stores ((fillWords .d x dest n : Code g Unit).trace E t)) = _ :=
      stores_fillWords t
    replace hstores := congrArg List.length hstores
    rw [extents, List.length_map, List.length_map] at hstores
    rw [if_neg hn, length_accesses, loads_s_fillWords, hstores,
      length_loads_fillWords (Nat.pos_of_ne_zero hn), List.length_nil]
    omega

/-- From three bytes on, a forward copy makes two accesses for each byte at most. -/
theorem length_trace_forward_le (dest src : ℤ) (hn : n = 0 ∨ 3 ≤ n) :
    ((lsscLf g dest src n).trace E t).length ≤ 2 * n ∧
      ((lsscLft g dest src n).trace E t).length ≤ 2 * n := by
  by_cases hnone : dest = src ∨ n = 0
  · obtain ⟨hlf, hlft⟩ := trace_forward_nil E t hnone
    rw [hlf, hlft]
    exact ⟨Nat.zero_le _, Nat.zero_le _⟩
  · obtain ⟨hne, hn0⟩ := not_or.mp hnone
    have hthree : 3 ≤ n := by omega
    have hsrc := length_words_add_le (h := g.mwordSize) src hthree
      (c := src % g.mwordSize = 0 ∧ dest % g.mwordSize = 0) fun h1 => by
        rw [h1, Nat.cast_one, Int.emod_one, Int.emod_one]
        exact ⟨rfl, rfl⟩
    have hdest := length_words_add_le (h := g.mwordSize) dest hthree
      (c := (g.mwordSize : ℤ) ∣ dest + n) fun h1 => by
        rw [h1, Nat.cast_one]
        exact one_dvd _
    have hunits := (greedyCutter g.mwordSize).length_cuts_le dest n
    rw [length_trace_lsscLf E t hne (by omega), length_trace_lsscLft E t hne (by omega)]
    omega

/-- One byte, or two in two words, take more than two accesses for each byte. -/
theorem lt_length_trace_forward (hw : 2 ≤ g.mwordSize) (hn : n = 1 ∨ n = 2) :
    2 * n < ((lsscLf g (g.mwordSize - 1) (2 * g.mwordSize - 1) n).trace E t).length ∧
      2 * n < ((lsscLft g (g.mwordSize - 1) (2 * g.mwordSize - 1) n).trace E t).length := by
  have hlast : ((g.mwordSize : ℤ) - 1) % g.mwordSize = g.mwordSize - 1 :=
    Int.emod_eq_of_lt (by omega) (by omega)
  have hlast' : (2 * (g.mwordSize : ℤ) - 1) % g.mwordSize = g.mwordSize - 1 := by
    rw [← Int.sub_emod_right,
      show 2 * (g.mwordSize : ℤ) - 1 - g.mwordSize = g.mwordSize - 1 by ring, hlast]
  have hwords : ∀ a : ℤ, a % g.mwordSize = g.mwordSize - 1 →
      (words g.mwordSize a n).length = n := by
    intro a ha
    rw [length_words a (by omega), ha]
    rcases hn with rfl | rfl
    · rw [Nat.div_eq_iff (by omega)]
      omega
    · rw [Nat.div_eq_iff (by omega)]
      omega
  have hunits := length_words_le_cuts_greedy (h := g.mwordSize) (g.mwordSize - 1) n
  rw [hwords _ hlast] at hunits
  rw [length_trace_lsscLf E t (by omega) (by omega), length_trace_lsscLft E t (by omega) (by omega),
    hwords _ hlast, hwords _ hlast', if_neg (by omega)]
  omega

end Counts

/-! ### Both directions -/

/-- **The accesses of the plain routines**, in any environment: none if there is nothing to do.
Otherwise they store the words of dest, and the copies load those of src. They also load the word
dest starts in, unless it starts with a word, and for the copies src too, and the word dest ends in,
unless it ends with a word. In reverse the ends change places. -/
theorem length_trace_plain (g : Geometry) (dest src ch : ℤ) (n : ℕ)
    (E : Environment g.mwordSize σ) (t : σ) :
    ((lsscLf g dest src n).trace E t).length
        = (if dest = src ∨ n = 0 then 0
          else ((src % g.mwordSize).toNat + n + g.mwordSize - 1) / g.mwordSize
            + ((dest % g.mwordSize).toNat + n + g.mwordSize - 1) / g.mwordSize
            + (if (g.mwordSize : ℤ) ∣ src ∧ (g.mwordSize : ℤ) ∣ dest then 0 else 1)
            + (if (g.mwordSize : ℤ) ∣ dest + n then 0 else 1)) ∧
      ((lsscLr g dest src n).trace E t).length
        = (if dest = src ∨ n = 0 then 0
          else ((src % g.mwordSize).toNat + n + g.mwordSize - 1) / g.mwordSize
            + ((dest % g.mwordSize).toNat + n + g.mwordSize - 1) / g.mwordSize
            + (if (g.mwordSize : ℤ) ∣ src + n ∧ (g.mwordSize : ℤ) ∣ dest + n then 0 else 1)
            + (if (g.mwordSize : ℤ) ∣ dest then 0 else 1)) ∧
      ((initLf g dest ch n).trace E t).length
        = (if n = 0 then 0
          else ((dest % g.mwordSize).toNat + n + g.mwordSize - 1) / g.mwordSize
            + (if (g.mwordSize : ℤ) ∣ dest then 0 else 1)
            + (if (g.mwordSize : ℤ) ∣ dest + n then 0 else 1)) ∧
      ((zeroLf g dest n).trace E t).length
        = (if n = 0 then 0
          else ((dest % g.mwordSize).toNat + n + g.mwordSize - 1) / g.mwordSize
            + (if (g.mwordSize : ℤ) ∣ dest then 0 else 1)
            + (if (g.mwordSize : ℤ) ∣ dest + n then 0 else 1)) := by
  have hmirror : ∀ a : ℤ, (g.mwordSize : ℤ) ∣ 0 - a - n ↔ (g.mwordSize : ℤ) ∣ a + n := fun a => by
    rw [show 0 - a - (n : ℤ) = -(a + n) by ring, Int.dvd_neg]
  have hstart : (g.mwordSize : ℤ) ∣ 0 - dest - n + n ↔ (g.mwordSize : ℤ) ∣ dest := by
    rw [sub_add_cancel, zero_sub, Int.dvd_neg]
  refine ⟨?_, ?_, ?_, ?_⟩
  · split
    · rw [(trace_forward_nil E t ‹_›).1, List.length_nil]
    · obtain ⟨hne, hn⟩ := not_or.mp ‹_›
      rw [length_trace_lsscLf E t hne (Nat.pos_of_ne_zero hn), length_words _ (by omega),
        length_words _ (by omega)]
      simp only [Int.dvd_iff_emod_eq_zero]
  · rw [trace_lsscLr (Int.dvd_zero _), List.length_map]
    split
    · rw [(trace_forward_nil _ t (by omega)).1, List.length_nil]
    · obtain ⟨hne, hn⟩ := not_or.mp ‹_›
      rw [length_trace_lsscLf _ t (by omega) (Nat.pos_of_ne_zero hn),
        length_words_reflect (Int.dvd_zero _), length_words_reflect (Int.dvd_zero _),
        length_words _ (by omega), length_words _ (by omega)]
      simp only [← Int.dvd_iff_emod_eq_zero, hmirror, hstart]
  · rw [← trace_bare, bare_initLf, length_trace_fillWords]
    split
    · rfl
    · rw [length_words _ (by omega)]
      simp only [Int.dvd_iff_emod_eq_zero]
  · rw [← trace_bare, bare_zeroLf, length_trace_fillWords]
    split
    · rfl
    · rw [length_words _ (by omega)]
      simp only [Int.dvd_iff_emod_eq_zero]

/-- **Which copies never take more accesses than `byte_copy`**: those of no byte, and those of three
bytes or more. That is so for each routine, wherever src and dest lie. -/
theorem length_le_byteCopy_iff (g : Geometry) (hw : 2 ≤ g.mwordSize) (n : ℕ) :
    ∀ copy ∈ [lsscLf g, lsscLft g, lsscLr g, lsscLrt g],
      (∀ dest src M, (accesses (copy dest src n) M).length
          ≤ (accesses (byteCopy g dest src n) M).length)
        ↔ n = 0 ∨ 3 ≤ n := by
  have hbytes : ∀ dest src M, (accesses (byteCopy g dest src n) M).length = 2 * n := fun _ _ M =>
    length_trace_copyWords (g := g.byBytes) _ M _ _ n
  -- a copy that may take more does so for every `n` that is left
  have hboth : ∀ copy : ℤ → ℤ → ℕ → Code g Unit,
      (n = 0 ∨ 3 ≤ n → ∀ dest src M, (accesses (copy dest src n) M).length ≤ 2 * n) →
      (n = 1 ∨ n = 2 → ∃ dest src M, 2 * n < (accesses (copy dest src n) M).length) →
      ((∀ dest src M, (accesses (copy dest src n) M).length
          ≤ (accesses (byteCopy g dest src n) M).length) ↔ n = 0 ∨ 3 ≤ n) := by
    intro copy hle hlt
    simp only [hbytes]
    constructor
    · intro hall
      by_contra hfew
      obtain ⟨dest, src, M, hmore⟩ := hlt (by omega)
      exact absurd (hall dest src M) (by omega)
    · exact hle
  have hmirror : ∀ a : ℤ, 0 - (0 - a - n) - n = a := fun a => by ring
  simp only [List.forall_mem_cons, List.not_mem_nil, false_implies, implies_true, and_true]
  refine ⟨hboth _ ?_ ?_, hboth _ ?_ ?_, hboth _ ?_ ?_, hboth _ ?_ ?_⟩
  · exact fun hn dest src M => (length_trace_forward_le _ M dest src hn).1
  · exact fun hn => ⟨_, _, fun _ => 0, (lt_length_trace_forward _ _ hw hn).1⟩
  · exact fun hn dest src M => (length_trace_forward_le _ M dest src hn).2
  · exact fun hn => ⟨_, _, fun _ => 0, (lt_length_trace_forward _ _ hw hn).2⟩
  · intro hn dest src M
    rw [accesses, trace_lsscLr (Int.dvd_zero _), List.length_map]
    exact (length_trace_forward_le _ M _ _ hn).1
  · intro hn
    refine ⟨0 - (g.mwordSize - 1) - n, 0 - (2 * g.mwordSize - 1) - n, fun _ => 0, ?_⟩
    rw [accesses, trace_lsscLr (Int.dvd_zero _), List.length_map, hmirror, hmirror]
    exact (lt_length_trace_forward _ _ hw hn).1
  · intro hn dest src M
    rw [accesses, trace_lsscLrt (Int.dvd_zero _), List.length_map]
    exact (length_trace_forward_le _ M _ _ hn).2
  · intro hn
    refine ⟨0 - (g.mwordSize - 1) - n, 0 - (2 * g.mwordSize - 1) - n, fun _ => 0, ?_⟩
    rw [accesses, trace_lsscLrt (Int.dvd_zero _), List.length_map, hmirror, hmirror]
    exact (lt_length_trace_forward _ _ hw hn).2

theorem length_le_byteCopy_iff_three :
    (accesses (lsscLrt .x86_64 3 7 3) fun x => BitVec.ofInt 8 x).length
      ≤ (accesses (byteCopy .x86_64 3 7 3) fun x => BitVec.ofInt 8 x).length :=
  (length_le_byteCopy_iff .x86_64 (by decide) 3 (lsscLrt .x86_64) (by simp)).mpr (by decide) 3 7 _

end Lssc
