import Lssc.Calls

/-!
# The harness of `lssc_asan.c`

`lssc_asan.c` runs the thread-safe routines under a sanitizer that aborts at a store to a poisoned
byte. dest is at the end of its allocation, so that what comes right behind it is poisoned, and the
margin below it is poisoned by hand. What the sanitizer knows of the margin is by granules of eight
bytes: in the granule that holds the first byte of dest, the bytes below dest stay addressable.

The sanitizer is no part of the repository. A `Shadow` is any map that has the properties the file
counts on.

The thread-safe routines pass, at all offsets and for all lengths. What else passes is a question
about the harness. The file says that the plain routines would abort it, and that a store past the
low edge reaches the poisoned granules because it is a whole word. That takes words of more than a
granule. With words of up to eight bytes no plain routine is ever caught at the low edge, and it
passes if dest ends with a word.

## Main definitions

* `Shadow`, `aborts` — the sanitizer
* `Kind`, `Kind.calls`, `check` — the harness
* `Kind.plainCalls` — the routines it leaves out

## Main results

* `check_calls` — the thread-safe routines pass
* `check_plainCalls_iff` — when the plain ones do
-/

namespace Lssc

open WordAccess Program

variable {g : Geometry}

/-! ### The sanitizer -/

/-- What is poisoned around `[dest, dest + n)`, at the end of a block with a poisoned margin. -/
structure Shadow (dest : ℤ) (n : ℕ) where
  poisoned : ℤ → Bool
  /-- The granules below that of dest. -/
  below : ∀ x, dest - 16 ≤ x → x < dest - dest % 8 → poisoned x
  /-- From the granule of dest on, everything up to the end of dest is addressable. -/
  addressable : ∀ x, dest - dest % 8 ≤ x → x < dest + n → poisoned x = false
  /-- What comes behind the block, to the byte. -/
  above : ∀ x, dest + n ≤ x → x < dest + n + 16 → poisoned x

/-- The sanitizer aborts at a store to a poisoned byte. -/
def aborts {dest : ℤ} {n : ℕ} (sh : Shadow dest n) (t : List (Access Ptr)) : Bool :=
  (stores t).any fun s => (List.range s.2.length).any fun i => sh.poisoned (s.1 + i)

/-! ### The harness -/

/-- What a routine is tested for. -/
inductive Kind : Type
  | copy
  | init
  | zero
  deriving DecidableEq, Repr

namespace Kind

/-- The routines that are called, one after the other. -/
def calls (dest pattern : ℤ) (n : ℕ) : Kind → List Call
  | copy => [.lsscLft dest pattern n, .lsscLrt dest pattern n]
  | init => [.initLft dest 0x5a n]
  | zero => [.zeroLft dest n]

/-- Their plain siblings, which the file does not include. -/
def plainCalls (dest pattern : ℤ) (n : ℕ) : Kind → List Call
  | copy => [.lsscLf dest pattern n, .lsscLr dest pattern n]
  | init => [.initLf dest 0x5a n]
  | zero => [.zeroLf dest n]

/-- `want`, for byte `i` of dest. -/
def want (N : Memory) (pattern : ℤ) : Kind → ℕ → Byte
  | copy, i => N (pattern + i)
  | init, _ => 0x5a
  | zero, _ => 0

end Kind

/-- The calls of a check. Each finds the block filled with `0xc3`, and any of them may abort. -/
def exercise (g : Geometry) {off n : ℕ} (p : ℤ) (sh : Shadow (p + off) n) :
    List Call → Memory → Option Memory
  | [], M => some M
  | c :: cs, M =>
    if aborts sh (accesses (c.code g) (M.write p (List.replicate (off + n) 0xc3))) then none
    else exercise g p sh cs (finalMemory (c.code g) (M.write p (List.replicate (off + n) 0xc3)))

/-- `check`, for the calls `cs`: nothing aborts, and the content is right. -/
def check (g : Geometry) {off n : ℕ} (p pattern : ℤ) (sh : Shadow (p + off) n) (k : Kind)
    (cs : List Call) (M : Memory) : Bool :=
  match exercise g p sh cs M with
  | none => false
  | some N => (List.range n).all fun i => N (p + off + i) == k.want N pattern i

/-! ### When it aborts -/

section Aborts

variable {dest : ℤ} {n : ℕ} {sh : Shadow dest n}

theorem aborts_iff (c : Call) (M : Memory) :
    aborts sh (accesses (c.code g) M) ↔ ∃ x ∈ c.writes g, sh.poisoned x := by
  rw [aborts, List.any_eq_true]
  constructor
  · rintro ⟨s, hs, hany⟩
    obtain ⟨i, hi, hpoisoned⟩ := List.any_eq_true.mp hany
    have hlt := List.mem_range.mp hi
    refine ⟨s.1 + i, ?_, hpoisoned⟩
    refine (c.exists_store_iff (Memory.environment _) M _).mp ⟨_, List.mem_map_of_mem hs, ?_⟩
    dsimp only
    omega
  · rintro ⟨x, hx, hpoisoned⟩
    obtain ⟨r, hr, hin⟩ := (c.exists_store_iff (Memory.environment _) M x).mpr hx
    obtain ⟨s, hs, rfl⟩ := List.mem_map.mp hr
    dsimp only at hin
    refine ⟨s, hs, List.any_eq_true.mpr ⟨(x - s.1).toNat, List.mem_range.mpr (by omega), ?_⟩⟩
    rwa [show s.1 + ((x - s.1).toNat : ℤ) = x by omega]

theorem not_exists_poisoned : ¬∃ x ∈ bytesIn dest n, sh.poisoned x := by
  rintro ⟨x, ⟨hlow, hhigh⟩, hpoisoned⟩
  rw [sh.addressable x (by omega) hhigh] at hpoisoned
  cases hpoisoned

/-- A word of dest is poisoned somewhere if dest ends inside a word, or if its first word begins
below the granule of its first byte. -/
theorem exists_poisoned_iff (hn : 0 < n) : (∃ x ∈ wordsIn g.mwordSize dest n, sh.poisoned x) ↔
    ¬(g.mwordSize : ℤ) ∣ dest + n ∨ dest % 8 < dest % g.mwordSize := by
  have hle := g.mwordSize_le
  constructor
  · rintro ⟨x, ⟨hdvd, y, hlow, hhigh, hdest, hend⟩, hpoisoned⟩
    have hlt := emod_lt_natCast g.mwordSize x
    have hnonneg := emod_nonneg_natCast g.mwordSize x
    by_cases hx : dest - dest % 8 ≤ x
    · left
      intro hdvd'
      by_cases hx' : x < dest + n
      · rw [sh.addressable x hx hx'] at hpoisoned
        cases hpoisoned
      · have hword := le_sub_emod hdvd' (not_lt.mp hx')
        omega
    · right
      have hword := eq_sub_emod hdvd (show x - x % g.mwordSize ≤ dest by omega) (by omega)
      omega
  · rintro (hnot | hlt)
    · have hpos := emod_nonneg_natCast g.mwordSize (dest + n)
      have hlt := emod_lt_natCast g.mwordSize (dest + n)
      have hne : (dest + n) % g.mwordSize ≠ 0 := fun hzero => hnot (Int.dvd_of_emod_eq_zero hzero)
      exact ⟨dest + n, ⟨dvd_sub_emod _, dest + n - 1, by omega, by omega, by omega, by omega⟩,
        sh.above _ le_rfl (by omega)⟩
    · refine ⟨dest - dest % g.mwordSize, ?_, sh.below _ ?_ ?_⟩
      · change WordMeets _ _ _ _
        rw [← eq_sub_emod (dvd_sub_emod dest) le_rfl (by have := g.mwordSize_pos; omega)]
        exact ⟨dvd_sub_emod _, dest, by have := emod_nonneg_natCast g.mwordSize dest; omega,
          by have := emod_lt_natCast g.mwordSize dest; omega, le_rfl, by omega⟩
      · have hlt' := emod_lt_natCast g.mwordSize dest
        omega
      · omega

end Aborts

/-! ### What passes -/

section Checks

variable {off n : ℕ} {p pattern : ℤ} {sh : Shadow (p + off) n} {k : Kind} {cs : List Call}

/-- The bytes that dest is to hold. -/
def Kind.bytes (N : Memory) (pattern : ℤ) (n : ℕ) : Kind → List Byte
  | copy => N.slice pattern n
  | init => List.replicate n 0x5a
  | zero => List.replicate n 0

theorem writes_of_mem_calls {dest : ℤ} {c : Call} (hc : c ∈ k.calls dest pattern n) :
    c.writes g ⊆ bytesIn dest n := by
  intro x hx
  cases k with
  | copy =>
    rcases List.mem_pair.mp hc with rfl | rfl
    · exact hx.2
    · exact hx.2
  | init =>
    obtain rfl := List.mem_singleton.mp hc
    exact hx
  | zero =>
    obtain rfl := List.mem_singleton.mp hc
    exact hx

theorem writes_of_mem_plainCalls {dest : ℤ} (hne : dest ≠ pattern) {c : Call}
    (hc : c ∈ k.plainCalls dest pattern n) : c.writes g = wordsIn g.mwordSize dest n := by
  ext x
  cases k with
  | copy =>
    rcases List.mem_pair.mp hc with rfl | rfl
    · exact and_iff_right hne
    · exact and_iff_right hne
  | init =>
    obtain rfl := List.mem_singleton.mp hc
    rfl
  | zero =>
    obtain rfl := List.mem_singleton.mp hc
    rfl

/-- All calls of a kind end alike, be they thread-safe or not. -/
theorem final_of_mem_calls {dest : ℤ} (hapart : pattern + n ≤ dest ∨ dest + n ≤ pattern) {c : Call}
    (hc : c ∈ k.calls dest pattern n ++ k.plainCalls dest pattern n) (N : Memory) :
    finalMemory (c.code g) N = N.write dest (k.bytes N pattern n) := by
  cases k with
  | copy =>
    simp only [Kind.calls, Kind.plainCalls, List.cons_append, List.nil_append, List.mem_cons,
      List.not_mem_nil, or_false] at hc
    rcases hc with rfl | rfl | rfl | rfl
    · exact final_lsscLft (by omega) N
    · exact final_lsscLrt (by omega) N
    · exact final_lsscLf (by omega) N
    · exact final_lsscLr (by omega) N
  | init =>
    simp only [Kind.calls, Kind.plainCalls, List.cons_append, List.nil_append, List.mem_cons,
      List.not_mem_nil, or_false] at hc
    rcases hc with rfl | rfl
    · exact final_initLft _ _ _ N
    · exact final_initLf _ _ _ N
  | zero =>
    simp only [Kind.calls, Kind.plainCalls, List.cons_append, List.nil_append, List.mem_cons,
      List.not_mem_nil, or_false] at hc
    rcases hc with rfl | rfl
    · exact final_zeroLft _ _ N
    · exact final_zeroLf _ _ N

/-- If nothing aborts, the last call leaves its bytes. -/
theorem exists_exercise_eq (hcs : cs ≠ [])
    (hfinal : ∀ c ∈ cs, ∀ N, finalMemory (c.code g) N = N.write (p + off) (k.bytes N pattern n))
    (hsafe : ∀ c ∈ cs, ¬∃ x ∈ c.writes g, sh.poisoned x) (M : Memory) :
    ∃ N : Memory, exercise g p sh cs M = some (N.write (p + off) (k.bytes N pattern n)) := by
  induction cs generalizing M with
  | nil => exact absurd rfl hcs
  | cons c cs ih =>
    have hc := mt (aborts_iff c (M.write p (List.replicate (off + n) 0xc3))).mp
      (hsafe c (List.mem_cons_self ..))
    rw [exercise, if_neg hc, hfinal c (List.mem_cons_self ..)]
    cases cs with
    | nil => exact ⟨_, rfl⟩
    | cons d cs =>
      exact ih (List.cons_ne_nil _ _) (fun c hc => hfinal c (List.mem_cons_of_mem _ hc))
        (fun c hc => hsafe c (List.mem_cons_of_mem _ hc)) _

theorem exercise_eq_none {c : Call} (hc : c ∈ cs) (habort : ∃ x ∈ c.writes g, sh.poisoned x)
    (M : Memory) : exercise g p sh cs M = none := by
  induction cs generalizing M with
  | nil => cases hc
  | cons d cs ih =>
    rw [exercise]
    split
    · rfl
    · rename_i hd
      rcases List.mem_cons.mp hc with rfl | hc
      · exact absurd ((aborts_iff _ _).mpr habort) hd
      · exact ih hc _

theorem content_write (hapart : pattern + n ≤ p + off ∨ p + off + n ≤ pattern) (N : Memory) :
    (List.range n).all (fun i => N.write (p + off) (k.bytes N pattern n) (p + off + i)
      == k.want (N.write (p + off) (k.bytes N pattern n)) pattern i) := by
  rw [List.all_eq_true]
  intro i hi
  have hlt := List.mem_range.mp hi
  rw [beq_iff_eq]
  cases k with
  | copy =>
    rw [Kind.bytes, Memory.write_slice_add _ _ _ _ hlt, Kind.want, Memory.write_of_outside]
    rw [Memory.length_slice]
    omega
  | init =>
    rw [Kind.bytes, N.write_add (by rwa [List.length_replicate]), List.getElem_replicate]
    rfl
  | zero =>
    rw [Kind.bytes, N.write_add (by rwa [List.length_replicate]), List.getElem_replicate]
    rfl

/-- **What passes**: calls that leave the right bytes, and do not store a poisoned one. -/
theorem check_iff (hapart : pattern + n ≤ p + off ∨ p + off + n ≤ pattern) (hcs : cs ≠ [])
    (hfinal : ∀ c ∈ cs, ∀ N, finalMemory (c.code g) N = N.write (p + off) (k.bytes N pattern n))
    (M : Memory) :
    check g p pattern sh k cs M ↔ ∀ c ∈ cs, ¬∃ x ∈ c.writes g, sh.poisoned x := by
  constructor
  · intro hcheck c hc habort
    rw [check, exercise_eq_none hc habort] at hcheck
    cases hcheck
  · intro hsafe
    obtain ⟨N, hN⟩ := exists_exercise_eq hcs hfinal hsafe M
    rw [check, hN]
    exact content_write hapart N

end Checks

/-- The first word of dest begins below the granule of its first byte only if a word is two
granules. -/
theorem emod_eight_lt_iff (g : Geometry) (dest : ℤ) :
    dest % 8 < dest % g.mwordSize ↔ ¬(g.mwordSize ≤ 8 ∨ dest % 16 < 8) := by
  have hsize := g.supported
  simp only [List.mem_cons, List.not_mem_nil, or_false] at hsize
  rcases hsize with hsize | hsize | hsize | hsize | hsize <;> rw [hsize] <;> omega

/-- **The thread-safe routines pass**, wherever dest begins and however long it is. -/
theorem check_calls (g : Geometry) {off n : ℕ} {p pattern : ℤ} (sh : Shadow (p + off) n) (k : Kind)
    (hapart : pattern + n ≤ p + off ∨ p + off + n ≤ pattern) (M : Memory) :
    check g p pattern sh k (k.calls (p + off) pattern n) M = true := by
  refine (check_iff hapart ?_ ?_ M).mpr ?_
  · cases k <;> exact List.cons_ne_nil _ _
  · exact fun c hc N => final_of_mem_calls hapart (List.mem_append_left _ hc) N
  · rintro c hc ⟨x, hx, hpoisoned⟩
    exact not_exists_poisoned ⟨x, writes_of_mem_calls hc hx, hpoisoned⟩

/-- **When the plain routines pass**: if dest ends with a word, and if no word is larger than a
granule or dest begins in the lower granule of its first word. The low edge alone is never enough
for words of up to eight bytes. -/
theorem check_plainCalls_iff (g : Geometry) {off n : ℕ} {p pattern : ℤ} (sh : Shadow (p + off) n)
    (k : Kind) (hn : 0 < n) (hapart : pattern + n ≤ p + off ∨ p + off + n ≤ pattern) (M : Memory) :
    check g p pattern sh k (k.plainCalls (p + off) pattern n) M = true ↔
      (g.mwordSize : ℤ) ∣ p + off + n ∧ (g.mwordSize ≤ 8 ∨ (p + off) % 16 < 8) := by
  have hcs : k.plainCalls (p + off) pattern n ≠ [] := by
    cases k <;> exact List.cons_ne_nil _ _
  have hwords : ∀ c ∈ k.plainCalls (p + off) pattern n,
      (∃ x ∈ c.writes g, sh.poisoned x) ↔ ∃ x ∈ wordsIn g.mwordSize (p + off) n, sh.poisoned x := by
    intro c hc
    rw [writes_of_mem_plainCalls (by omega) hc]
  rw [check_iff hapart hcs (fun c hc N => final_of_mem_calls hapart (List.mem_append_right _ hc) N)]
  rw [exists_poisoned_iff hn, emod_eight_lt_iff] at hwords
  constructor
  · intro hsafe
    obtain ⟨c, hc⟩ := List.exists_mem_of_ne_nil _ hcs
    have hnot := mt (hwords c hc).mpr (hsafe c hc)
    rwa [not_or, not_not, not_not] at hnot
  · rintro ⟨hdvd, hlow⟩ c hc habort
    rcases (hwords c hc).mp habort with hnot | hnot
    · exact hnot hdvd
    · exact hnot hlow

/-- A shadow, for the witnesses: everything but the granules of dest. -/
def exactShadow (dest : ℤ) (n : ℕ) : Shadow dest n where
  poisoned x := decide (x < dest - dest % 8 ∨ dest + n ≤ x)
  below x _ hx := decide_eq_true (Or.inl hx)
  addressable x hlow hhigh := decide_eq_false (by omega)
  above x hx _ := decide_eq_true (Or.inr hx)

theorem check_calls_nine :
    check .x86_64 64 512 (exactShadow (64 + (9 : ℕ)) 21) .copy
      (Kind.copy.calls (64 + (9 : ℕ)) 512 21) (fun _ => 1) = true :=
  check_calls .x86_64 _ .copy (by decide) _

theorem check_plainCalls_iff_nine :
    check .x86_64 64 512 (exactShadow (64 + (9 : ℕ)) 23) .copy
        (Kind.copy.plainCalls (64 + (9 : ℕ)) 512 23) (fun _ => 1) = true ↔
      (Geometry.x86_64.mwordSize : ℤ) ∣ 64 + (9 : ℕ) + (23 : ℕ) ∧
        (Geometry.x86_64.mwordSize ≤ 8 ∨ (64 + ((9 : ℕ) : ℤ)) % 16 < 8) :=
  check_plainCalls_iff .x86_64 _ .copy (by decide) (by decide) _

end Lssc
