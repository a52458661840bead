import Lssc.Threads
import Lssc.WordAccess.Progress

/-!
# Calls that are half done

A call that is interrupted has been at one end of dest and not at the other. The forward copies and
the fills start at the beginning, the reverse copies at the end, and none of them leaves a gap: at
each moment there is a point in dest up to which everything is final, and beyond which nothing has
been touched. The plain routines store whole words, so next to dest they store bytes as well, but
there they store what has been there before.

This holds of threads that share a memory, each with a point of its own. What comes of it is that a
thread may be stopped between any two of its accesses, and what it has done is known from one
number. A schedule is access by access, so a store of a word is made as a whole or not at all, as
the C source has it. A machine that stores a word in parts can be stopped in between.

## Main definitions

* `Call.done` — the first `m` bytes of dest that a call stores

## Main results

* `Call.exists_storesAt` — where a call stores, one place after the other
* `threads_progress` — what is in memory at any moment of any schedule
-/

namespace Lssc

open WordAccess Program

variable {g : Geometry}

namespace Call

/-- The first `m` bytes of dest that a call stores: at its beginning, or at its end in reverse. -/
def done (c : Call) (m : ℕ) : Set ℤ :=
  match c with
  | lsscLr dest _ n | lsscLrt dest _ n => bytesIn (dest + n - m) m
  | memmove dest src n => if src < dest then bytesIn (dest + n - m) m else bytesIn dest m
  | lsscLf dest _ _ | lsscLft dest _ _ | initLf dest _ _ | initLft dest _ _ | zeroLf dest _
  | zeroLft dest _ | memcpy dest _ _ | memset dest _ _ | bzero dest _ => bytesIn dest m

/-! ### Where the routines store, on every path -/

section Routines

variable {dest src ch : ℤ} {n : ℕ}

/-- A routine that returns at once if dest is src. -/
theorem storesAt_copy {p : ℤ → Code g Unit} {F : List (ℤ × ℕ)}
    (hself : ∀ {σ : Type} (E : Environment g.mwordSize σ) (s : σ), (p src).trace E s = [])
    (hne : dest ≠ src → ∀ {σ : Type} (E : Environment g.mwordSize σ) (s : σ),
      extents (stores ((p dest).trace E s)) = F) :
    (p dest).StoresAt (if dest = src then [] else F) := by
  refine storesAt_of_extents fun E s => ?_
  split
  · subst dest
    rw [hself]
    rfl
  · exact hne ‹_› E s

theorem exists_storesAt_lsscLf :
    ∃ L, (Lssc.lsscLf g dest src n).StoresAt L ∧ FillsUp dest n L := by
  refine ⟨_, storesAt_copy (p := fun dest => Lssc.lsscLf g dest src n) trace_lsscLf_self
    fun hne _ E s => extents_stores_lsscLf E s hne, ?_⟩
  split
  · exact fillsUp_nil dest n
  · exact fillsUp_words dest n

theorem exists_storesAt_lsscLft :
    ∃ L, (Lssc.lsscLft g dest src n).StoresAt L ∧ FillsUp dest n L := by
  refine ⟨_, storesAt_copy (p := fun dest => Lssc.lsscLft g dest src n) trace_lsscLft_self
    fun hne _ E s => extents_stores_lsscLft E s hne, ?_⟩
  split
  · exact fillsUp_nil dest n
  · exact Cutter.fillsUp_cuts _ dest n

theorem exists_storesAt_lsscLr :
    ∃ L, (Lssc.lsscLr g dest src n).StoresAt L ∧ FillsDown dest n L := by
  refine ⟨_, storesAt_copy (p := fun dest => Lssc.lsscLr g dest src n)
    (F := ((words g.mwordSize (0 - dest - n) n).map fun x => (x, g.mwordSize)).map
      (reflectExtent 0)) trace_lsscLr_self fun hne _ E s => ?_, ?_⟩
  · rw [trace_lsscLr (Int.dvd_zero _), stores_map_reflect, extents_map_reflectRange,
      extents_stores_lsscLf _ _ (by omega)]
  · split
    · exact fillsDown_nil dest n
    · exact (fillsUp_words _ n).reflect

theorem exists_storesAt_lsscLrt :
    ∃ L, (Lssc.lsscLrt g dest src n).StoresAt L ∧ FillsDown dest n L := by
  refine ⟨_, storesAt_copy (p := fun dest => Lssc.lsscLrt g dest src n)
    (F := ((greedyCutter g.mwordSize).cuts (0 - dest - n) n).map (reflectExtent 0))
    trace_lsscLrt_self fun hne _ E s => ?_, ?_⟩
  · rw [trace_lsscLrt (Int.dvd_zero _), stores_map_reflect, extents_map_reflectRange,
      extents_stores_lsscLft _ _ (by omega)]
  · split
    · exact fillsDown_nil dest n
    · exact (Cutter.fillsUp_cuts _ _ n).reflect

/-- A routine that stores at the places `L` in every environment. -/
theorem exists_storesAt_fill {p : Code g Unit} {L : List (ℤ × ℕ)}
    (hp : ∀ {σ : Type} (E : Environment g.mwordSize σ) (s : σ),
      extents (stores (p.trace E s)) = L) (hL : FillsUp dest n L) :
    ∃ L, p.StoresAt L ∧ FillsUp dest n L :=
  ⟨L, storesAt_of_extents hp, hL⟩

theorem exists_storesAt_initLf :
    ∃ L, (Lssc.initLf g dest ch n).StoresAt L ∧ FillsUp dest n L :=
  exists_storesAt_fill (fun E s => by rw [← trace_bare, bare_initLf, stores_fillWords])
    (fillsUp_words dest n)

theorem exists_storesAt_zeroLf :
    ∃ L, (Lssc.zeroLf g dest n).StoresAt L ∧ FillsUp dest n L :=
  exists_storesAt_fill (fun E s => by rw [← trace_bare, bare_zeroLf, stores_fillWords])
    (fillsUp_words dest n)

theorem exists_storesAt_initLft :
    ∃ L, (Lssc.initLft g dest ch n).StoresAt L ∧ FillsUp dest n L :=
  exists_storesAt_fill (fun E s => extents_stores_initLft E s ch) (Cutter.fillsUp_cuts _ dest n)

theorem exists_storesAt_zeroLft :
    ∃ L, (Lssc.zeroLft g dest n).StoresAt L ∧ FillsUp dest n L :=
  exists_storesAt_fill (fun E s => extents_stores_zeroLft E s) (Cutter.fillsUp_cuts _ dest n)

/-- What has been done of stores that fill dest from its beginning. -/
theorem exists_done_up {p : Code g Unit} (hp : ∃ L, p.StoresAt L ∧ FillsUp dest n L) :
    ∃ L, p.StoresAt L ∧ ∀ past L', past ++ L' = L →
      ∃ m : ℕ, ∀ x ∈ bytesIn dest n, (Covers past x ↔ x ∈ bytesIn dest m) := by
  obtain ⟨L, hL, hfill⟩ := hp
  refine ⟨L, hL, fun past L' hpast => ?_⟩
  obtain ⟨m, -, hcov⟩ := hfill past L' hpast
  refine ⟨m, fun x ⟨hlow, hhigh⟩ => ?_⟩
  rw [hcov x hlow hhigh]
  exact ⟨fun hx => ⟨hlow, hx⟩, fun hx => hx.2⟩

/-- What has been done of stores that fill dest from its end. -/
theorem exists_done_down {p : Code g Unit} (hp : ∃ L, p.StoresAt L ∧ FillsDown dest n L) :
    ∃ L, p.StoresAt L ∧ ∀ past L', past ++ L' = L →
      ∃ m : ℕ, ∀ x ∈ bytesIn dest n, (Covers past x ↔ x ∈ bytesIn (dest + n - m) m) := by
  obtain ⟨L, hL, hfill⟩ := hp
  refine ⟨L, hL, fun past L' hpast => ?_⟩
  obtain ⟨m, -, hcov⟩ := hfill past L' hpast
  refine ⟨m, fun x ⟨hlow, hhigh⟩ => ?_⟩
  rw [hcov x hlow hhigh]
  exact ⟨fun hx => ⟨hx, by omega⟩, fun hx => hx.1⟩

end Routines

/-- **Where a call stores**, one place after the other: what it has stored of dest is always all
that lies on one side of a point. -/
theorem exists_storesAt (c : Call) :
    ∃ L, (c.code g).StoresAt L ∧ ∀ past L', past ++ L' = L →
      ∃ m, ∀ x ∈ c.target, (Covers past x ↔ x ∈ c.done m) := by
  cases c with
  | lsscLf dest src n => exact exists_done_up exists_storesAt_lsscLf
  | lsscLft dest src n => exact exists_done_up exists_storesAt_lsscLft
  | lsscLr dest src n => exact exists_done_down exists_storesAt_lsscLr
  | lsscLrt dest src n => exact exists_done_down exists_storesAt_lsscLrt
  | initLf dest ch n => exact exists_done_up exists_storesAt_initLf
  | initLft dest ch n => exact exists_done_up exists_storesAt_initLft
  | zeroLf dest n => exact exists_done_up exists_storesAt_zeroLf
  | zeroLft dest n => exact exists_done_up exists_storesAt_zeroLft
  | memcpy dest src n =>
    rw [code_memcpy]
    exact exists_done_up exists_storesAt_lsscLft
  | memmove dest src n =>
    rw [code_memmove]
    by_cases hlt : src < dest
    · simp only [done, if_pos hlt]
      exact exists_done_down exists_storesAt_lsscLrt
    · simp only [done, if_neg hlt]
      exact exists_done_up exists_storesAt_lsscLft
  | memset dest c n =>
    rw [code_memset]
    exact exists_done_up exists_storesAt_initLft
  | bzero dest n => exact exists_done_up exists_storesAt_zeroLft

/-- A call makes use of dest, if only because it is src. -/
theorem target_subset_footprint (g : Geometry) (c : Call) : c.target ⊆ c.footprint g := by
  have hcopy : ∀ {dest src : ℤ} {n : ℕ} {S : Set ℤ}, bytesIn dest n ⊆ S →
      bytesIn dest n ⊆ bytesIn src n ∪ {x | dest ≠ src ∧ x ∈ S} := by
    intro dest src n S hS x hx
    by_cases heq : dest = src
    · exact Or.inl (heq ▸ hx)
    · exact Or.inr ⟨heq, hS hx⟩
  cases c with
  | lsscLf dest src n | lsscLr dest src n => exact hcopy (bytesIn_subset_wordsIn dest n)
  | lsscLft dest src n | lsscLrt dest src n | memcpy dest src n | memmove dest src n =>
    exact hcopy subset_rfl
  | initLf dest ch n => exact fun x hx => Or.inr (bytesIn_subset_wordsIn dest n hx)
  | zeroLf dest n => exact fun x hx => Or.inr (bytesIn_subset_wordsIn dest n hx)
  | initLft dest ch n | memset dest ch n => exact fun x hx => Or.inr hx
  | zeroLft dest n | bzero dest n => exact fun x hx => Or.inr hx

end Call

/-! ### While they are going on -/

variable {κ : Type} [DecidableEq κ]

/-- **Where each thread is in dest**: while threads make one call each, after any number of accesses
in any order, there is a point in each dest on one side of which the bytes are final, and on the
other as they were. No byte outside the dests has changed. -/
theorem threads_progress {c : κ → Call} (hc : Apart g fun i => [c i]) (M : Memory) (l : List κ) :
    (∃ m : κ → ℕ, ∀ i, ∀ x ∈ (c i).target,
      (x ∈ (c i).done (m i) →
        ((launch g (fun i => [c i]) M).run l).memory x = finalMemory ((c i).code g) M x) ∧
      (x ∉ (c i).done (m i) → ((launch g (fun i => [c i]) M).run l).memory x = M x)) ∧
    ∀ x, (∀ i, x ∉ (c i).target) → ((launch g (fun i => [c i]) M).run l).memory x = M x := by
  constructor
  · have hsep := separate_callTerms hc M
    choose L hL hdone using fun i => (c i).exists_storesAt (g := g)
    have hpoint : ∀ i, ∃ m, ∀ x ∈ (c i).target,
        (x ∈ (c i).done m →
          ((launch g (fun i => [c i]) M).run l).memory x = finalMemory ((c i).code g) M x) ∧
        (x ∉ (c i).done m → ((launch g (fun i => [c i]) M).run l).memory x = M x) := by
      intro i
      have hown : ∀ j, j ≠ i → ∀ x ∈ (c i).target, ∀ b, ¬(callTerms g c M j).may x b :=
        fun j hj x hx b hb => hsep i j hj.symm x b hb ((c i).target_subset_footprint g hx)
      obtain ⟨past, hpast⟩ := Pool.exists_progress hsep (withstands_callTerms g c M)
        ((callAll_singleton (c i)).symm ▸ hL i) (fun x _ b hb => hb.2) hown l
      obtain ⟨L', hL', -⟩ := hpast.rest
      obtain ⟨m, hm⟩ := hdone i past L' hL'
      refine ⟨m, fun x hx => ⟨fun hin => ?_, fun hout => ?_⟩⟩
      · exact hpast.final x hx ((hm x hx).mpr hin)
      · exact hpast.untouched x hx (mt (hm x hx).mp hout)
    exact Classical.axiomOfChoice hpoint
  · intro x hx
    rcases never_torn hc M l x with hsame | ⟨i, -, hfinal⟩
    · exact hsame
    · rw [hfinal, (c i).final_of_outside M (hx i)]

/-- Two bytes of the first dest have been stored, and all of the second. -/
theorem threads_progress_adjacent :
    ((∃ m : Fin 2 → ℕ, ∀ i, ∀ x ∈ (adjacent i).target,
      (x ∈ (adjacent i).done (m i) →
        ((launch .x86_64 (fun i => [adjacent i]) numbered).run halfway).memory x
          = finalMemory ((adjacent i).code .x86_64) numbered x) ∧
      (x ∉ (adjacent i).done (m i) →
        ((launch .x86_64 (fun i => [adjacent i]) numbered).run halfway).memory x = numbered x)) ∧
      ∀ x, (∀ i, x ∉ (adjacent i).target) →
        ((launch .x86_64 (fun i => [adjacent i]) numbered).run halfway).memory x = numbered x) ∧
    ((launch .x86_64 (fun i => [adjacent i]) numbered).run halfway).memory 15 = 4 ∧
      ((launch .x86_64 (fun i => [adjacent i]) numbered).run halfway).memory 16 = 16 ∧
      ((launch .x86_64 (fun i => [adjacent i]) numbered).run halfway).memory 31 = 0 :=
  ⟨threads_progress (apart_adjacent _) _ halfway, by decide +kernel⟩

end Lssc
