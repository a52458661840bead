import Lssc.Memset
import Lssc.Overlap
import Lssc.ThreadSafe
import Lssc.Words
import Lssc.WordAccess.Interleave

/-!
# Calls among other threads

What a call of one of the routines relies on and what it stores, and what follows for threads that
make such calls over one memory.

A thread-safe routine relies on the bytes of src and stores bytes of dest. A plain one relies on
the words of dest as well and stores all their bytes, because it stores back what it has loaded
around dest. Within these bounds each call does what it does when it is alone, whatever the others
do in between its accesses. So threads whose calls keep out of each other's way may run at the same
time, whichever routines they use, and it does not show.

The bounds are exact: a byte that a call stores is not safe from it, whether it lies in dest or next
to it.

## Main definitions

* `Call`, `Call.code` — a call of a routine or of a wrapper
* `Call.reads`, `Call.writes` — the bytes it relies on and the bytes it stores
* `callAll` — the calls of a thread, one after the other

## Main results

* `Call.withstands` — a call withstands whatever is done outside these bytes
* `Call.exists_store_iff` — what a call stores, in any environment
-/

namespace Lssc

open WordAccess Program

variable {g : Geometry}

/-! ### What the routines withstand -/

section Routines

variable {t : Terms} {M : Memory} {dest src ch : ℤ} {n : ℕ}

theorem withstands_lsscLft (hrely : bytesIn src n ⊆ t.rely)
    (hmay : dest ≠ src → ∀ x ∈ bytesIn dest n,
      t.may x (finalMemory (lsscLft g dest src n) M x)) :
    (lsscLft g dest src n).Withstands t M fun _ V => V = finalMemory (lsscLft g dest src n) M := by
  rw [final_lsscLft_seen] at hmay ⊢
  rw [← withstands_bare, bare_lsscLft]
  exact withstands_copyStream_units hrely hmay

theorem withstands_lsscLf (hsrc : bytesIn src n ⊆ t.rely)
    (hdest : dest ≠ src → wordsIn g.mwordSize dest n ⊆ t.rely)
    (hmay : dest ≠ src → ∀ x ∈ wordsIn g.mwordSize dest n,
      t.may x (finalMemory (lsscLf g dest src n) M x)) :
    (lsscLf g dest src n).Withstands t M fun _ V => V = finalMemory (lsscLf g dest src n) M := by
  rw [final_lsscLf_seen] at hmay ⊢
  rw [← withstands_bare, bare_lsscLf]
  exact withstands_copyStream_words hsrc hdest hmay

theorem withstands_lsscLrt (hrely : bytesIn src n ⊆ t.rely)
    (hmay : dest ≠ src → ∀ x ∈ bytesIn dest n,
      t.may x (finalMemory (lsscLrt g dest src n) M x)) :
    (lsscLrt g dest src n).Withstands t M fun _ V => V = finalMemory (lsscLrt g dest src n) M := by
  rw [finalMemory_lsscLrt (Int.dvd_zero _)] at hmay ⊢
  rw [← withstands_bare, bare_lsscLrt_eq_mirror (Int.dvd_zero _), withstands_mirror]
  refine Withstands.mono (withstands_lsscLft ?_ ?_) ?_
  · exact fun x hx => hrely (mem_bytesIn_reflect.mpr hx)
  · intro hne x hx
    have hbyte := hmay (by omega) _ (mem_bytesIn_reflect.mpr hx)
    rwa [Memory.reflect, sub_sub_cancel] at hbyte
  · rintro _ V rfl
    rfl

theorem withstands_lsscLr (hsrc : bytesIn src n ⊆ t.rely)
    (hdest : dest ≠ src → wordsIn g.mwordSize dest n ⊆ t.rely)
    (hmay : dest ≠ src → ∀ x ∈ wordsIn g.mwordSize dest n,
      t.may x (finalMemory (lsscLr g dest src n) M x)) :
    (lsscLr g dest src n).Withstands t M fun _ V => V = finalMemory (lsscLr g dest src n) M := by
  rw [finalMemory_lsscLr (Int.dvd_zero _)] at hmay ⊢
  rw [← withstands_bare, bare_lsscLr_eq_mirror (Int.dvd_zero _), withstands_mirror]
  refine Withstands.mono (withstands_lsscLf ?_ ?_ ?_) ?_
  · exact fun x hx => hsrc (mem_bytesIn_reflect.mpr hx)
  · intro hne x hx
    exact hdest (by omega) ((mem_wordsIn_reflect (Int.dvd_zero _)).mpr hx)
  · intro hne x hx
    have hbyte := hmay (by omega) _ ((mem_wordsIn_reflect (Int.dvd_zero _)).mpr hx)
    rwa [Memory.reflect, sub_sub_cancel] at hbyte
  · rintro _ V rfl
    rfl

theorem withstands_initLft
    (hmay : ∀ x ∈ bytesIn dest n, t.may x (finalMemory (initLft g dest ch n) M x)) :
    (initLft g dest ch n).Withstands t M fun _ V => V = finalMemory (initLft g dest ch n) M := by
  rw [final_initLft] at hmay ⊢
  rw [← withstands_bare, bare_initLft]
  exact withstands_fillUnits hmay

theorem withstands_zeroLft
    (hmay : ∀ x ∈ bytesIn dest n, t.may x (finalMemory (zeroLft g dest n) M x)) :
    (zeroLft g dest n).Withstands t M fun _ V => V = finalMemory (zeroLft g dest n) M := by
  rw [final_zeroLft] at hmay ⊢
  rw [← withstands_bare, bare_zeroLft]
  exact withstands_fillUnits hmay

theorem withstands_initLf (hrely : wordsIn g.mwordSize dest n ⊆ t.rely)
    (hmay : ∀ x ∈ wordsIn g.mwordSize dest n,
      t.may x (finalMemory (initLf g dest ch n) M x)) :
    (initLf g dest ch n).Withstands t M fun _ V => V = finalMemory (initLf g dest ch n) M := by
  rw [final_initLf] at hmay ⊢
  rw [← withstands_bare, bare_initLf]
  exact withstands_fillWords hrely hmay

theorem withstands_zeroLf (hrely : wordsIn g.mwordSize dest n ⊆ t.rely)
    (hmay : ∀ x ∈ wordsIn g.mwordSize dest n, t.may x (finalMemory (zeroLf g dest n) M x)) :
    (zeroLf g dest n).Withstands t M fun _ V => V = finalMemory (zeroLf g dest n) M := by
  rw [final_zeroLf] at hmay ⊢
  rw [← withstands_bare, bare_zeroLf]
  exact withstands_fillWords hrely hmay

end Routines

/-! ### Calls -/

/-- A call of one of the routines, or of a wrapper. -/
inductive Call : Type
  | lsscLf (dest src : ℤ) (n : ℕ)
  | lsscLft (dest src : ℤ) (n : ℕ)
  | lsscLr (dest src : ℤ) (n : ℕ)
  | lsscLrt (dest src : ℤ) (n : ℕ)
  | initLf (dest ch : ℤ) (n : ℕ)
  | initLft (dest ch : ℤ) (n : ℕ)
  | zeroLf (dest : ℤ) (n : ℕ)
  | zeroLft (dest : ℤ) (n : ℕ)
  | memcpy (dest src : ℤ) (n : ℕ)
  | memmove (dest src : ℤ) (n : ℕ)
  | memset (dest c : ℤ) (n : ℕ)
  | bzero (dest : ℤ) (n : ℕ)
  deriving DecidableEq, Repr

namespace Call

/-- The call, without what it returns. -/
def code (g : Geometry) : Call → Code g Unit
  | lsscLf dest src n => Lssc.lsscLf g dest src n
  | lsscLft dest src n => Lssc.lsscLft g dest src n
  | lsscLr dest src n => Lssc.lsscLr g dest src n
  | lsscLrt dest src n => Lssc.lsscLrt g dest src n
  | initLf dest ch n => Lssc.initLf g dest ch n
  | initLft dest ch n => Lssc.initLft g dest ch n
  | zeroLf dest n => Lssc.zeroLf g dest n
  | zeroLft dest n => Lssc.zeroLft g dest n
  | memcpy dest src n => Lssc.memcpy g dest src n >>= fun _ => pure ()
  | memmove dest src n => Lssc.memmove g dest src n >>= fun _ => pure ()
  | memset dest c n => Lssc.memset g dest c n >>= fun _ => pure ()
  | bzero dest n => Lssc.bzero g dest n

/-- The bytes a call makes use of. -/
def reads : Call → Set ℤ
  | lsscLf _ src n | lsscLft _ src n | lsscLr _ src n | lsscLrt _ src n
  | memcpy _ src n | memmove _ src n => bytesIn src n
  | initLf .. | initLft .. | zeroLf .. | zeroLft .. | memset .. | bzero .. => ∅

/-- The bytes a call stores. -/
def writes (g : Geometry) : Call → Set ℤ
  | lsscLf dest src n | lsscLr dest src n => {x | dest ≠ src ∧ x ∈ wordsIn g.mwordSize dest n}
  | lsscLft dest src n | lsscLrt dest src n | memcpy dest src n | memmove dest src n =>
    {x | dest ≠ src ∧ x ∈ bytesIn dest n}
  | initLf dest _ n | zeroLf dest n => wordsIn g.mwordSize dest n
  | initLft dest _ n | zeroLft dest n | memset dest _ n | bzero dest n => bytesIn dest n

/-- The bytes a call is to change: dest. -/
def target : Call → Set ℤ
  | lsscLf dest _ n | lsscLft dest _ n | lsscLr dest _ n | lsscLrt dest _ n
  | initLf dest _ n | initLft dest _ n | zeroLf dest n | zeroLft dest n
  | memcpy dest _ n | memmove dest _ n | memset dest _ n | bzero dest n => bytesIn dest n

/-- The bytes nobody else may change. -/
def footprint (g : Geometry) (c : Call) : Set ℤ := c.reads ∪ c.writes g

/-! A wrapper is the routine it calls. -/

section Wrappers

variable (g) (dest src c : ℤ) (n : ℕ)

theorem code_memcpy : (memcpy dest src n).code g = (lsscLft dest src n).code g := by
  change (Lssc.lsscLft g dest src n >>= fun _ => pure dest) >>= (fun _ => pure ()) = _
  rw [bind_assoc]
  exact bind_pure _

theorem code_memmove : (memmove dest src n).code g
    = if src < dest then (lsscLrt dest src n).code g else (lsscLft dest src n).code g := by
  change ((if src < dest then Lssc.lsscLrt g dest src n else Lssc.lsscLft g dest src n) >>=
    fun _ => pure dest) >>= (fun _ => pure ()) = _
  rw [bind_assoc]
  exact bind_pure _

theorem code_memset : (memset dest c n).code g = (initLft dest c n).code g := by
  change (Lssc.initLft g dest c n >>= fun _ => pure dest) >>= (fun _ => pure ()) = _
  rw [bind_assoc]
  exact bind_pure _

theorem code_bzero : (bzero dest n).code g = (zeroLft dest n).code g := rfl

end Wrappers

/-- **A call withstands** whatever is done outside its footprint, and ends as it does when it is
alone. -/
theorem withstands (c : Call) {t : Terms} {M : Memory} (hrely : c.footprint g ⊆ t.rely)
    (hmay : ∀ x ∈ c.writes g, t.may x (finalMemory (c.code g) M x)) :
    (c.code g).Withstands t M fun _ V => V = finalMemory (c.code g) M := by
  obtain ⟨hreads, hwrites⟩ := Set.union_subset_iff.mp hrely
  cases c with
  | lsscLf dest src n =>
    exact withstands_lsscLf hreads (fun hne x hx => hwrites ⟨hne, hx⟩)
      fun hne x hx => hmay x ⟨hne, hx⟩
  | lsscLft dest src n => exact withstands_lsscLft hreads fun hne x hx => hmay x ⟨hne, hx⟩
  | lsscLr dest src n =>
    exact withstands_lsscLr hreads (fun hne x hx => hwrites ⟨hne, hx⟩)
      fun hne x hx => hmay x ⟨hne, hx⟩
  | lsscLrt dest src n => exact withstands_lsscLrt hreads fun hne x hx => hmay x ⟨hne, hx⟩
  | initLf dest ch n => exact withstands_initLf hwrites hmay
  | initLft dest ch n => exact withstands_initLft hmay
  | zeroLf dest n => exact withstands_zeroLf hwrites hmay
  | zeroLft dest n => exact withstands_zeroLft hmay
  | memcpy dest src n =>
    rw [code_memcpy] at hmay ⊢
    exact withstands_lsscLft hreads fun hne x hx => hmay x ⟨hne, hx⟩
  | memmove dest src n =>
    rw [code_memmove] at hmay ⊢
    by_cases hlt : src < dest
    · rw [if_pos hlt] at hmay ⊢
      exact withstands_lsscLrt hreads fun hne x hx => hmay x ⟨hne, hx⟩
    · rw [if_neg hlt] at hmay ⊢
      exact withstands_lsscLft hreads fun hne x hx => hmay x ⟨hne, hx⟩
  | memset dest c n =>
    rw [code_memset] at hmay ⊢
    exact withstands_initLft hmay
  | bzero dest n => exact withstands_zeroLft hmay

/-! ### What a call changes -/

section Outside

variable {M : Memory} {dest src x : ℤ} {n : ℕ}

theorem final_lsscLft_of_outside (hx : x ∉ bytesIn dest n) :
    finalMemory (Lssc.lsscLft g dest src n) M x = M x := by
  rw [final_lsscLft_seen, M.write_of_outside]
  rw [Memory.length_slice]
  by_contra hin
  exact hx ⟨by omega, by omega⟩

theorem final_lsscLrt_of_outside (hx : x ∉ bytesIn dest n) :
    finalMemory (Lssc.lsscLrt g dest src n) M x = M x := by
  rw [finalMemory_lsscLrt (Int.dvd_zero _), Memory.reflect, final_lsscLft_of_outside,
    Memory.reflect, sub_sub_cancel]
  intro hin
  exact hx (by simpa using mem_bytesIn_reflect.mp hin)

end Outside

/-- **No call changes a byte outside dest**, though some store such bytes. -/
theorem final_of_outside (c : Call) (M : Memory) {x : ℤ} (hx : x ∉ c.target) :
    finalMemory (c.code g) M x = M x := by
  have hfill : ∀ (dest : ℤ) (n : ℕ) (b : Byte), x ∉ bytesIn dest n →
      M.write dest (List.replicate n b) x = M x :=
    fun dest n b hx => (M.isFill_write dest n b).outside x (by
      by_contra hin
      exact hx ⟨by omega, by omega⟩)
  cases c with
  | lsscLf dest src n =>
    rw [code, final_lsscLf_eq]
    exact final_lsscLft_of_outside hx
  | lsscLft dest src n => exact final_lsscLft_of_outside hx
  | lsscLr dest src n =>
    rw [code, final_lsscLr_eq_lsscLrt]
    exact final_lsscLrt_of_outside hx
  | lsscLrt dest src n => exact final_lsscLrt_of_outside hx
  | initLf dest ch n =>
    rw [code, final_initLf]
    exact hfill _ _ _ hx
  | initLft dest ch n =>
    rw [code, final_initLft]
    exact hfill _ _ _ hx
  | zeroLf dest n =>
    rw [code, final_zeroLf]
    exact hfill _ _ _ hx
  | zeroLft dest n =>
    rw [code, final_zeroLft]
    exact hfill _ _ _ hx
  | memcpy dest src n =>
    rw [code_memcpy]
    exact final_lsscLft_of_outside hx
  | memmove dest src n =>
    rw [code_memmove]
    split
    · exact final_lsscLrt_of_outside hx
    · exact final_lsscLft_of_outside hx
  | memset dest c n =>
    rw [code_memset, code, final_initLft]
    exact hfill _ _ _ hx
  | bzero dest n =>
    rw [code_bzero, code, final_zeroLft]
    exact hfill _ _ _ hx

/-! ### What a call stores -/

section Stores

variable {l : List (ℤ × ℕ)} {dest x : ℤ} {n : ℕ}

/-- Tiles hold the bytes of their range. -/
theorem exists_mem_tiles_iff (hl : Tiles dest n l) :
    (∃ r ∈ l, r.1 ≤ x ∧ x < r.1 + r.2) ↔ x ∈ bytesIn dest n := by
  constructor
  · rintro ⟨r, hr, hx⟩
    have := hl.inside r hr
    exact ⟨by omega, by omega⟩
  · intro hx
    have hcount := hl.once x hx.1 hx.2
    obtain ⟨r, hr, hin⟩ := List.countP_pos_iff.mp (hcount ▸ Nat.one_pos)
    exact ⟨r, hr, of_decide_eq_true hin⟩

/-- The words of a range hold their bytes. -/
theorem exists_mem_eachWord_iff {h : ℕ} [NeZero h] {r : ℤ → ℤ → Prop} (hl : EachWord r h dest n l) :
    (∃ r ∈ l, r.1 ≤ x ∧ x < r.1 + r.2) ↔ x ∈ wordsIn h dest n := by
  constructor
  · rintro ⟨⟨a, p⟩, hr, hx⟩
    obtain rfl : p = h := hl.width _ hr
    have hword := (hl.mem a).mp hr
    change WordMeets _ _ _ _
    rwa [← eq_sub_emod hword.1 hx.1 hx.2]
  · intro hx
    have hlt := emod_lt_natCast h x
    have hnonneg := emod_nonneg_natCast h x
    refine ⟨_, (hl.mem _).mpr hx, ?_⟩
    dsimp only
    omega

end Stores

section Traces

variable {dest src : ℤ} {n : ℕ} {σ : Type} (E : Environment g.mwordSize σ) (s : σ)

theorem trace_lsscLf_self : (Lssc.lsscLf g src src n).trace E s = [] := by
  rw [← trace_bare, bare_lsscLf, copyStream, if_pos (Or.inl rfl)]
  rfl

theorem trace_lsscLft_self : (Lssc.lsscLft g src src n).trace E s = [] := by
  rw [← trace_bare, bare_lsscLft, copyStream, if_pos (Or.inl rfl)]
  rfl

theorem trace_lsscLr_self : (Lssc.lsscLr g src src n).trace E s = [] := by
  rw [trace_lsscLr (Int.dvd_zero _), trace_lsscLf_self, List.map_nil]

theorem trace_lsscLrt_self : (Lssc.lsscLrt g src src n).trace E s = [] := by
  rw [trace_lsscLrt (Int.dvd_zero _), trace_lsscLft_self, List.map_nil]

/-- A routine that returns at once if dest is src, and stores the bytes `S` otherwise. -/
theorem exists_store_copy_iff {p : ℤ → Code g Unit} {S : Set ℤ} {x : ℤ}
    (hself : (p src).trace E s = [])
    (hne : dest ≠ src → ((∃ r ∈ extents (stores ((p dest).trace E s)), r.1 ≤ x ∧ x < r.1 + r.2)
      ↔ x ∈ S)) :
    (∃ r ∈ extents (stores ((p dest).trace E s)), r.1 ≤ x ∧ x < r.1 + r.2)
      ↔ dest ≠ src ∧ x ∈ S := by
  by_cases heq : dest = src
  · subst heq
    simp [hself]
  · simp [hne heq, heq]

theorem exists_store_lsscLft_iff (x : ℤ) :
    (∃ r ∈ extents (stores ((Lssc.lsscLft g dest src n).trace E s)), r.1 ≤ x ∧ x < r.1 + r.2)
      ↔ dest ≠ src ∧ x ∈ bytesIn dest n :=
  exists_store_copy_iff E s (p := fun dest => Lssc.lsscLft g dest src n)
    (trace_lsscLft_self E s) fun hne => by
      rw [extents_stores_lsscLft E s hne]
      exact exists_mem_tiles_iff (tiles_cuts dest n)

theorem exists_store_lsscLrt_iff (x : ℤ) :
    (∃ r ∈ extents (stores ((Lssc.lsscLrt g dest src n).trace E s)), r.1 ≤ x ∧ x < r.1 + r.2)
      ↔ dest ≠ src ∧ x ∈ bytesIn dest n :=
  exists_store_copy_iff E s (p := fun dest => Lssc.lsscLrt g dest src n)
    (trace_lsscLrt_self E s) fun hne => by
      rw [extents_stores_lsscLrt E s hne]
      exact exists_mem_tiles_iff (tiles_cutsDown dest n)

end Traces

/-- **What a call stores** in any environment: the bytes of `writes`, and no others. -/
theorem exists_store_iff (c : Call) {σ : Type} (E : Environment g.mwordSize σ) (s : σ) (x : ℤ) :
    (∃ r ∈ extents (stores ((c.code g).trace E s)), r.1 ≤ x ∧ x < r.1 + r.2)
      ↔ x ∈ c.writes g := by
  cases c with
  | lsscLf dest src n =>
    refine exists_store_copy_iff E s (p := fun dest => Lssc.lsscLf g dest src n)
      (trace_lsscLf_self E s) fun hne => ?_
    rw [extents_stores_lsscLf E s hne]
    exact exists_mem_eachWord_iff (eachWord_words dest n)
  | lsscLft dest src n => exact exists_store_lsscLft_iff E s x
  | lsscLr dest src n =>
    exact exists_store_copy_iff E s (p := fun dest => Lssc.lsscLr g dest src n)
      (trace_lsscLr_self E s) fun hne => exists_mem_eachWord_iff (eachWord_stores_lsscLr E s hne)
  | lsscLrt dest src n => exact exists_store_lsscLrt_iff E s x
  | initLf dest ch n =>
    rw [code, ← trace_bare, bare_initLf, stores_fillWords]
    exact exists_mem_eachWord_iff (eachWord_words dest n)
  | initLft dest ch n =>
    rw [code, extents_stores_initLft]
    exact exists_mem_tiles_iff (tiles_cuts dest n)
  | zeroLf dest n =>
    rw [code, ← trace_bare, bare_zeroLf, stores_fillWords]
    exact exists_mem_eachWord_iff (eachWord_words dest n)
  | zeroLft dest n =>
    rw [code, extents_stores_zeroLft]
    exact exists_mem_tiles_iff (tiles_cuts dest n)
  | memcpy dest src n =>
    rw [code_memcpy]
    exact exists_store_lsscLft_iff E s x
  | memmove dest src n =>
    rw [code_memmove]
    split
    · exact exists_store_lsscLrt_iff E s x
    · exact exists_store_lsscLft_iff E s x
  | memset dest c n =>
    rw [code_memset, code, extents_stores_initLft]
    exact exists_mem_tiles_iff (tiles_cuts dest n)
  | bzero dest n =>
    rw [code_bzero, code, extents_stores_zeroLft]
    exact exists_mem_tiles_iff (tiles_cuts dest n)

/-- A call that may store the bytes it stores need not rely on anything for that. -/
theorem withstands_stores (c : Call) {t : Terms} {V : Memory}
    (hmay : ∀ x ∈ c.writes g, ∀ b, t.may x b) : (c.code g).Withstands t V fun _ _ => True := by
  refine withstands_of_stores fun E s r hr i b hb => hmay _ ?_ b
  have hlt := (List.getElem?_eq_some_iff.mp hb).1
  refine (c.exists_store_iff E s _).mp ⟨_, List.mem_map_of_mem hr, ?_⟩
  dsimp only
  omega

/-- **A byte next to dest that a call stores is stored as it was at the start.** Before that, the
call has stored no byte that it does not store anyway. -/
theorem exists_restore (c : Call) (M : Memory) {x : ℤ} (hx : x ∈ c.writes g) (hout : x ∉ c.target) :
    ∃ l a bs l', stores ((c.code g).trace (Memory.environment _) M) = l ++ (a, bs) :: l' ∧
      (a ≤ x ∧ x < a + bs.length) ∧ bs[(x - a).toNat]? = some (M x) ∧
      ∀ y, y ∉ c.writes g → l.foldl (fun N s => N.write s.1 s.2) M y = M y := by
  obtain ⟨r, hr, hin⟩ := (c.exists_store_iff (Memory.environment _) M x).mpr hx
  obtain ⟨⟨a, bs⟩, hmem, rfl⟩ := List.mem_map.mp hr
  obtain ⟨l, l', hsplit⟩ := List.append_of_mem hmem
  refine ⟨l, a, bs, l', hsplit, hin, ?_, ?_⟩
  · have hgrants := (c.withstands (t := { rely := Set.univ
                                          may := fun y b => b = finalMemory (c.code g) M y })
      (Set.subset_univ _) fun _ _ => rfl).may_of_mem_stores hmem
    have hlt : (x - a).toNat < bs.length := by
      dsimp only at hin
      omega
    have hbyte := hgrants _ _ (List.getElem?_eq_getElem hlt)
    rw [List.getElem?_eq_getElem hlt, hbyte, show a + ((x - a).toNat : ℤ) = x by omega,
      c.final_of_outside M hout]
  · intro y hy
    refine M.foldl_write_of_outside fun s hs hin => hy ?_
    refine (c.exists_store_iff (Memory.environment _) M y).mp ⟨_, List.mem_map_of_mem ?_, hin⟩
    rw [hsplit]
    exact List.mem_append_left _ hs

end Call

/-! ### The calls of a thread -/

/-- One call after the other. -/
def callAll (g : Geometry) : List Call → Code g Unit
  | [] => pure ()
  | c :: cs => c.code g >>= fun _ => callAll g cs

theorem callAll_singleton (c : Call) : callAll g [c] = c.code g := bind_pure _

theorem withstands_callAll {cs : List Call} {t : Terms} {M : Memory}
    (hrely : ∀ c ∈ cs, c.footprint g ⊆ t.rely) (hmay : ∀ c ∈ cs, ∀ x ∈ c.writes g, ∀ b, t.may x b) :
    (callAll g cs).Withstands t M fun _ V => V = finalMemory (callAll g cs) M := by
  induction cs generalizing M with
  | nil => rfl
  | cons c cs ih =>
    have hcall := c.withstands (M := M) (hrely c (List.mem_cons_self ..))
      fun x hx => hmay c (List.mem_cons_self ..) x hx _
    refine hcall.bind ?_
    rintro _ V rfl
    have hrest : finalMemory (callAll g (c :: cs)) M
        = finalMemory (callAll g cs) (finalMemory (c.code g) M) := final_bind ..
    rw [hrest]
    exact ih (fun c hc => hrely c (List.mem_cons_of_mem _ hc))
      fun c hc => hmay c (List.mem_cons_of_mem _ hc)

theorem withstands_stores_callAll {cs : List Call} {t : Terms} {V : Memory}
    (hmay : ∀ c ∈ cs, ∀ x ∈ c.writes g, ∀ b, t.may x b) :
    (callAll g cs).Withstands t V fun _ _ => True := by
  induction cs generalizing V with
  | nil => trivial
  | cons c cs ih =>
    refine (c.withstands_stores (hmay c (List.mem_cons_self ..))).bind fun _ V' _ => ?_
    exact ih fun c hc => hmay c (List.mem_cons_of_mem _ hc)

end Lssc
