import Lssc.WordAccess.Cuts
import Lssc.WordAccess.Interleave

/-!
# How far a program has got

A program whose stores are at the same places on every path, in the same order, has at each moment
made some of them and not the rest. If each of them also leaves what is to be there in the end, then
the memory at that moment is known: final where it has stored, and as at the start elsewhere. That
holds of the bytes that no other program stores, whatever the others do in the meantime.

## Main definitions

* `Program.StoresAt` — the places of the stores, on every path
* `Covers` — the bytes of some places
* `FillsUp`, `FillsDown` — places that fill a range from one end to the other

## Main results

* `storesAt_of_extents` — places that are known in every environment
* `Pool.exists_progress` — what is in memory at any moment of any schedule
* `Cutter.fillsUp_cuts`, `fillsUp_words`, `FillsUp.reflect`
-/

namespace WordAccess

variable {κ ι ε α : Type} {h : ℕ}

namespace Program

/-- `p` stores at the places `L`, one after the other, whatever its loads are answered. -/
def StoresAt : List (ℤ × ℕ) → Program h ι ε α → Prop
  | L, ret _ => L = []
  | L, load _ _ k => ∀ w, (k w).StoresAt L
  | L, store a bs k => ∃ L', L = (a, bs.length) :: L' ∧ k.StoresAt L'
  | L, note _ k => k.StoresAt L

/-- The places are known on every path if they are in every environment. -/
theorem storesAt_of_extents {p : Program h ι ε α} {L : List (ℤ × ℕ)}
    (hp : ∀ {σ : Type} (E : Environment h σ) (s : σ), extents (stores (p.trace E s)) = L) :
    p.StoresAt L := by
  induction p generalizing L with
  | ret x => exact (hp (Memory.environment h) fun _ => 0).symm
  | load v a k ih =>
    intro w
    refine ih w fun E s => ?_
    rw [← trace_startFrom E w s]
    exact hp (startFrom E w s) none
  | store a bs k ih =>
    have hfirst := hp (Memory.environment h) fun _ => 0
    refine ⟨_, hfirst.symm, ih fun E s => ?_⟩
    have hrest := hp (startFrom E 0 s) none
    rw [← hfirst] at hrest
    rw [← trace_startFrom E 0 s]
    exact (List.cons.inj hrest).2
  | note e k ih => exact ih hp

end Program

open Program

/-- `x` is a byte of one of the places. -/
def Covers (L : List (ℤ × ℕ)) (x : ℤ) : Prop := ∃ r ∈ L, r.1 ≤ x ∧ x < r.1 + r.2

theorem covers_append {L L' : List (ℤ × ℕ)} {x : ℤ} :
    Covers (L ++ L') x ↔ Covers L x ∨ Covers L' x := by
  simp only [Covers, List.mem_append, or_and_right, exists_or]

theorem covers_singleton {r : ℤ × ℕ} {x : ℤ} : Covers [r] x ↔ r.1 ≤ x ∧ x < r.1 + r.2 := by
  simp only [Covers, List.mem_singleton, exists_eq_left]

namespace Pool

/-- Where `i` has stored so far, where it will, and what that means for the bytes `own`: they are as
in `W` where it has stored, and as in `M` where it has not. -/
structure Progress (L : List (ℤ × ℕ)) (own : Set ℤ) (W M : Memory) (p : Program h ι ε α)
    (N : Memory) (past : List (ℤ × ℕ)) : Prop where
  rest : ∃ L', past ++ L' = L ∧ p.StoresAt L'
  final : ∀ x ∈ own, Covers past x → N x = W x
  untouched : ∀ x ∈ own, ¬Covers past x → N x = M x

variable {L past : List (ℤ × ℕ)} {own : Set ℤ} {W M N : Memory} {p : Program h ι ε α} {t : Terms}
  {V : Memory} {Q : α → Memory → Prop}

/-- One access of the program itself. -/
theorem Progress.step (hN : Progress L own W M p N past) (hp : p.Withstands t V Q)
    (hW : ∀ x ∈ own, ∀ b, t.may x b → b = W x) :
    ∃ past', Progress L own W M (p.step N).1 (p.step N).2 past' := by
  obtain ⟨L', hL', hrest⟩ := hN.rest
  cases p with
  | ret x => exact ⟨past, hN⟩
  | load v a k => exact ⟨past, ⟨L', hL', hrest _⟩, hN.final, hN.untouched⟩
  | note e k => exact ⟨past, ⟨L', hL', hrest⟩, hN.final, hN.untouched⟩
  | store a bs k =>
    obtain ⟨L'', rfl, hrest⟩ := hrest
    refine ⟨past ++ [(a, bs.length)], ⟨L'', by rw [← hL', List.append_assoc]; rfl, hrest⟩, ?_, ?_⟩
    · intro x hx hcov
      change N.write a bs x = W x
      by_cases hin : a ≤ x ∧ x < a + bs.length
      · obtain ⟨i, hi⟩ := Int.eq_ofNat_of_zero_le (sub_nonneg.mpr hin.1)
        obtain rfl : x = a + i := by omega
        have hlt : i < bs.length := by omega
        rw [N.write_add hlt]
        exact hW _ hx _ (hp.1 i _ (List.getElem?_eq_getElem hlt))
      · rw [N.write_of_outside (by omega)]
        refine hN.final x hx ((covers_append.mp hcov).resolve_right fun hlast => hin ?_)
        exact covers_singleton.mp hlast
    · intro x hx hcov
      obtain ⟨hpast, hlast⟩ := not_or.mp (mt covers_append.mpr hcov)
      have hout := mt covers_singleton.mpr hlast
      change N.write a bs x = M x
      rw [N.write_of_outside (by omega), hN.untouched x hx hpast]

variable [DecidableEq κ] {s : Pool κ h ι ε α} {T : κ → Terms} {R : κ → α → Memory → Prop} {i : κ}

/-- **How far `i` has got** at any moment of any schedule, if what it may store in `own` is what
`W` has there, and nobody else may store there. -/
theorem exists_progress (hsep : Separate T)
    (hs : ∀ i, (s.threads i).Withstands (T i) s.memory (R i)) (hL : (s.threads i).StoresAt L)
    (hW : ∀ x ∈ own, ∀ b, (T i).may x b → b = W x)
    (hown : ∀ j, j ≠ i → ∀ x ∈ own, ∀ b, ¬(T j).may x b) (l : List κ) :
    ∃ past, Progress L own W s.memory ((s.run l).threads i) (s.run l).memory past := by
  have hstart : Progress L own W s.memory (s.threads i) s.memory [] := by
    refine ⟨⟨L, rfl, hL⟩, fun x _ hcov => ?_, fun _ _ _ => rfl⟩
    obtain ⟨r, hr, -⟩ := hcov
    cases hr
  -- the schedule is extended at its end, where the view of each program is at hand
  induction l using List.reverseRecOn with
  | nil => exact ⟨[], hstart⟩
  | append_singleton l j ih =>
    obtain ⟨past, hpast⟩ := ih
    obtain ⟨V, -, hj⟩ := (kept_run hsep hs l).views j
    rw [run_append, run_cons, run_nil]
    by_cases hij : j = i
    · subst hij
      rw [threads_turn_self, memory_turn]
      exact hpast.step hj hW
    · have hsame : ∀ x ∈ own, ((s.run l).turn j).memory x = (s.run l).memory x := fun x hx =>
        (hj.may_step (s.run l).memory x).resolve_right (hown j hij x hx _)
      refine ⟨past, ?_, fun x hx hcov => ?_, fun x hx hcov => ?_⟩
      · rw [threads_turn_of_ne (Ne.symm hij)]
        exact hpast.rest
      · rw [hsame x hx, hpast.final x hx hcov]
      · rw [hsame x hx, hpast.untouched x hx hcov]

end Pool

/-! ### Places that fill a range -/

/-- Whatever has been done of `L`, of `[a, a + n)` it is the first bytes. -/
def FillsUp (a : ℤ) (n : ℕ) (L : List (ℤ × ℕ)) : Prop :=
  ∀ past L', past ++ L' = L → ∃ m ≤ n, ∀ x, a ≤ x → x < a + n → (Covers past x ↔ x < a + m)

/-- Whatever has been done of `L`, of `[a, a + n)` it is the last bytes. -/
def FillsDown (a : ℤ) (n : ℕ) (L : List (ℤ × ℕ)) : Prop :=
  ∀ past L', past ++ L' = L → ∃ m ≤ n, ∀ x, a ≤ x → x < a + n → (Covers past x ↔ a + n - m ≤ x)

theorem not_covers_nil (x : ℤ) : ¬Covers [] x := by
  rintro ⟨r, hr, -⟩
  cases hr

theorem covers_cons {r : ℤ × ℕ} {L : List (ℤ × ℕ)} {x : ℤ} :
    Covers (r :: L) x ↔ (r.1 ≤ x ∧ x < r.1 + r.2) ∨ Covers L x := by
  simp only [Covers, List.mem_cons, or_and_right, exists_or, exists_eq_left]

theorem fillsUp_nil (a : ℤ) (n : ℕ) : FillsUp a n [] := by
  intro past L' hL
  obtain ⟨rfl, -⟩ := List.append_eq_nil_iff.mp hL
  refine ⟨0, Nat.zero_le _, fun x hlow _ => ?_⟩
  simp only [not_covers_nil, false_iff]
  omega

/-- **The pieces of a range fill it**, one after the other. -/
theorem Cutter.fillsUp_cuts (C : Cutter) (a : ℤ) (n : ℕ) : FillsUp a n (C.cuts a n) := by
  induction a, n using Cutter.cuts.induct C with
  | case1 a =>
    rw [C.cuts_zero]
    exact fillsUp_nil a 0
  | case2 a n hn ih =>
    have hle := C.le a n
    rw [C.cuts_of_pos a (Nat.pos_of_ne_zero hn)]
    intro past L' hL
    rcases List.append_eq_cons_iff.mp hL with ⟨rfl, -⟩ | ⟨past, rfl, hrest⟩
    · exact ⟨0, Nat.zero_le _, fun x hlow _ => by simp only [not_covers_nil, false_iff]; omega⟩
    · obtain ⟨m, hm, hcov⟩ := ih past L' hrest.symm
      refine ⟨C.width a n + m, by omega, fun x hlow hhigh => ?_⟩
      rw [covers_cons]
      dsimp only
      rcases lt_or_ge x (a + C.width a n) with hin | hout
      · exact iff_of_true (Or.inl ⟨hlow, hin⟩) (by omega)
      · rw [hcov x hout (by omega)]
        omega

/-- Places that hold the same bytes of the range fill it as well. -/
theorem FillsUp.map {a : ℤ} {n : ℕ} {L : List (ℤ × ℕ)} (hL : FillsUp a n L) {f : ℤ × ℕ → ℤ × ℕ}
    (hf : ∀ r ∈ L, ∀ x, a ≤ x → x < a + n →
      ((f r).1 ≤ x ∧ x < (f r).1 + (f r).2 ↔ r.1 ≤ x ∧ x < r.1 + r.2)) :
    FillsUp a n (L.map f) := by
  intro past L' hmap
  obtain ⟨l, l', rfl, rfl, rfl⟩ := List.map_eq_append_iff.mp hmap.symm
  obtain ⟨m, hm, hcov⟩ := hL l l' rfl
  refine ⟨m, hm, fun x hlow hhigh => ?_⟩
  rw [← hcov x hlow hhigh]
  constructor
  · rintro ⟨_, hmem, hin⟩
    obtain ⟨r, hr, rfl⟩ := List.mem_map.mp hmem
    exact ⟨r, hr, (hf r (List.mem_append_left _ hr) x hlow hhigh).mp hin⟩
  · rintro ⟨r, hr, hin⟩
    exact ⟨f r, List.mem_map_of_mem hr, (hf r (List.mem_append_left _ hr) x hlow hhigh).mpr hin⟩

/-- Of the range, a piece holds the bytes that its word holds. -/
theorem mem_word_iff_mem_piece [NeZero h] {a : ℤ} {n : ℕ} {r : ℤ × ℕ}
    (hr : r ∈ (wordCutter h).cuts a n) {x : ℤ} (hlow : a ≤ x) (hhigh : x < a + n) :
    r.1 - r.1 % h ≤ x ∧ x < r.1 - r.1 % h + h ↔ r.1 ≤ x ∧ x < r.1 + r.2 := by
  induction a, n using Cutter.cuts.induct (wordCutter h) with
  | case1 a => omega
  | case2 a n hn ih =>
    have hlt := emod_lt_natCast h a
    have hnonneg := emod_nonneg_natCast h a
    rw [Cutter.cuts_of_pos _ a (Nat.pos_of_ne_zero hn)] at hr
    rcases List.mem_cons.mp hr with rfl | hr
    · simp only [wordCutter]
      omega
    · obtain ⟨hstart, hend, hpos⟩ := (wordCutter h).mem_cuts hr
      have hword := le_sub_emod (dvd_add_wordCutter_width a n (by omega)) hstart
      rcases lt_or_ge x (a + (wordCutter h).width a n) with hin | hout
      · exact iff_of_false (by omega) (by omega)
      · exact ih hr hout (by omega)

theorem fillsUp_words [NeZero h] (a : ℤ) (n : ℕ) :
    FillsUp a n ((words h a n).map fun x => (x, h)) := by
  rw [words, List.map_map]
  exact ((wordCutter h).fillsUp_cuts a n).map fun r hr x => mem_word_iff_mem_piece hr

theorem covers_map_reflectExtent {K : ℤ} {L : List (ℤ × ℕ)} {x : ℤ} :
    Covers (L.map (reflectExtent K)) x ↔ Covers L (K - 1 - x) := by
  constructor
  · rintro ⟨_, hmem, hin⟩
    obtain ⟨r, hr, rfl⟩ := List.mem_map.mp hmem
    simp only [reflectExtent] at hin
    exact ⟨r, hr, by omega, by omega⟩
  · rintro ⟨r, hr, hin⟩
    refine ⟨_, List.mem_map_of_mem hr, ?_⟩
    simp only [reflectExtent]
    omega

/-- In the mirror, a range is filled from its end. -/
theorem FillsUp.reflect {K a : ℤ} {n : ℕ} {L : List (ℤ × ℕ)} (hL : FillsUp (K - a - n) n L) :
    FillsDown a n (L.map (reflectExtent K)) := by
  intro past L' hmap
  obtain ⟨l, l', rfl, rfl, rfl⟩ := List.map_eq_append_iff.mp hmap.symm
  obtain ⟨m, hm, hcov⟩ := hL l l' rfl
  refine ⟨m, hm, fun x hlow hhigh => ?_⟩
  rw [covers_map_reflectExtent, hcov _ (by omega) (by omega)]
  omega

theorem fillsDown_nil (a : ℤ) (n : ℕ) : FillsDown a n [] := by
  exact FillsUp.reflect (K := 0) (fillsUp_nil _ n)

end WordAccess
