import Lssc.Memset
import Lssc.Overlap
import Lssc.Translate

/-!
# The unit tests

`lssc.tests.c` runs each routine at sixteen offsets and for all lengths up to 253, and looks at
every byte of the two arrays afterwards.

That the routines pass is one thing. What it means to pass is the other. The test of a copy
compares with constants, but it asks for neither more nor less than a copy: it passes for the
memories that are right on both arrays. And its data are chosen well. The fills are 254 and 255 and
the lengths end at 253, so the bytes that are to be copied are different from each other and from
everything else, and a routine that passes has taken each of them from its place. What the data do
not tell apart are the bytes around them: those of one array might be exchanged with each other.

## Main definitions

* `fill`, `copyCase`, `initCase`, `zeroCase` — one round of the loops of each test
* `copyTest`, `initTest`, `zeroTest` — the loops

## Main results

* `copyCase_iff` — what the test of a copy asks for
* `copyCase_iff_place` — what its data tell apart
* `exists_test_offsets` — why sixteen offsets are enough for its lengths
* `tests_pass` — all eight tests pass
-/

namespace Lssc

open WordAccess Program

variable {g : Geometry}

/-! ### The tests -/

/-- The arrays of the test of a copy. -/
structure Arrays (g : Geometry) where
  src : ℤ
  dst : ℤ
  src_aligned : (g.mwordSize : ℤ) ∣ src
  dst_aligned : (g.mwordSize : ℤ) ∣ dst
  apart : src + 512 ≤ dst ∨ dst + 512 ≤ src

/-- `for (p = start; p < end; p++) *p= pp;` -/
def fillFrom (pp : MWord g) (p e : ℤ) : Code g Unit :=
  if p < e then do
    storeWord p pp
    fillFrom pp (p + g.mwordSize) e
  else pure ()
termination_by (e - p).toNat
decreasing_by have := g.mwordSize_pos; omega

/-- `fill`, whose loop for the word is that of `init_lf`. -/
def fill (dest : ℤ) (val : Byte) : Code g Unit := do
  let pp ← spread 8 charBit_pos (ucharWord g val.toNat)
  fillFrom pp dest (dest + 512)

/-- `src[i + k] = k`, for the `l` values from `k` on. -/
def number (a : ℤ) : ℕ → ℕ → Code g Unit
  | _, 0 => pure ()
  | k, l + 1 => do
    Program.store (a + k) [BitVec.ofNat 8 k] (pure ())
    number a (k + 1) l

/-- `TEST_ASSERT_EQUAL_INT(want, a[k])`, for `k` from `b` to `e`. -/
def assertEqual (N : Memory) (a : ℤ) (b e : ℕ) (want : ℕ → ℤ) : Bool :=
  (List.range' b (e - b)).all fun k => ((N (a + k)).toNat : ℤ) == want k

/-- The arrays before the copy is called. -/
def copyData (A : Arrays g) (i l : ℕ) (M : Memory) : Memory :=
  finalMemory (do
    fill A.src 254
    fill A.dst 255
    number (A.src + i) 0 l : Code g Unit) M

/-- The asserts of the test of a copy, on what the copy has left. -/
def copyAsserts (A : Arrays g) (i j l : ℕ) (N : Memory) : Bool :=
  assertEqual N A.src 0 i (fun _ => 254) && assertEqual N A.dst 0 j (fun _ => 255) &&
    assertEqual N (A.src + i) 0 l (fun k => k) && assertEqual N (A.dst + j) 0 l (fun k => k) &&
    assertEqual N A.src (i + l) 512 (fun _ => 254) && assertEqual N A.dst (j + l) 512 fun _ => 255

/-- One round of `copy_ShouldCopyWithoutFail`. -/
def copyCase (A : Arrays g) (copy : ℤ → ℤ → ℕ → Code g Unit) (i j l : ℕ) (M : Memory) : Bool :=
  copyAsserts A i j l (finalMemory (copy (A.dst + j) (A.src + i) l) (copyData A i l M))

/-- One round of `init_ShouldInitWithoutFail`. -/
def initCase (dst : ℤ) (init : ℤ → ℤ → ℕ → Code g Unit) (ch : ℤ) (j l : ℕ) (M : Memory) : Bool :=
  let N := finalMemory (do fill dst 255; init (dst + j) ch l : Code g Unit) M
  assertEqual N dst 0 j (fun _ => 255) && assertEqual N (dst + j) 0 l (fun _ => ch) &&
    assertEqual N dst (j + l) 512 fun _ => 255

/-- One round of `zero_ShouldZeroWithoutFail`. -/
def zeroCase (dst : ℤ) (zero : ℤ → ℕ → Code g Unit) (j l : ℕ) (M : Memory) : Bool :=
  let N := finalMemory (do fill dst 255; zero (dst + j) l : Code g Unit) M
  assertEqual N dst 0 j (fun _ => 255) && assertEqual N (dst + j) 0 l (fun _ => 0) &&
    assertEqual N dst (j + l) 512 fun _ => 255

/-! ### What the loops do -/

section Loops

variable (M : Memory)

theorem assertEqual_iff {N : Memory} {a : ℤ} {b e : ℕ} {want : ℕ → ℤ} :
    assertEqual N a b e want ↔ ∀ k : ℕ, b ≤ k → k < e → ((N (a + k)).toNat : ℤ) = want k := by
  rw [assertEqual, List.all_eq_true]
  constructor
  · intro hall k hlow hhigh
    exact beq_iff_eq.mp (hall k (List.mem_range'_1.mpr ⟨hlow, by omega⟩))
  · intro hall k hk
    obtain ⟨hlow, hhigh⟩ := List.mem_range'_1.mp hk
    exact beq_iff_eq.mpr (hall k hlow (by omega))

theorem final_fillFrom {x : Byte} {pp : MWord g} (hpp : Uniform x pp) (m : ℕ) (p : ℤ) :
    finalMemory (fillFrom pp p (p + (m * g.mwordSize : ℕ))) M
      = M.write p (List.replicate (m * g.mwordSize) x) := by
  have hpos := g.mwordSize_pos
  induction m generalizing p M with
  | zero =>
    rw [fillFrom, if_neg (by omega), Nat.zero_mul, List.replicate_zero, Memory.write_nil]
    rfl
  | succ m ih =>
    have hlt : p < p + ((m + 1) * g.mwordSize : ℕ) := by
      rw [lt_add_iff_pos_right]
      exact_mod_cast Nat.mul_pos m.succ_pos hpos
    rw [fillFrom, if_pos hlt, finalMemory, final_bind]
    change finalMemory (fillFrom pp _ _) (M.write p (bytes g.mwordSize pp)) = _
    rw [show p + ((m + 1) * g.mwordSize : ℕ) = p + g.mwordSize + (m * g.mwordSize : ℕ) by
      push_cast; ring, ih, hpp.bytes_eq le_rfl]
    have hjoin := M.write_write p (List.replicate g.mwordSize x)
      (List.replicate (m * g.mwordSize) x)
    rwa [List.length_replicate, List.replicate_append_replicate,
      show g.mwordSize + m * g.mwordSize = (m + 1) * g.mwordSize by ring] at hjoin

/-- `fill` fills an array, if words fit into it. -/
theorem final_fill (dest : ℤ) (val : Byte) :
    finalMemory (fill dest val : Code g Unit) M = M.write dest (List.replicate 512 val) := by
  obtain ⟨pp, hspread, hpp⟩ := exists_bare_spread (g := g) val.toNat
  obtain ⟨e, he, hsize⟩ := g.exists_mwordSize_eq
  obtain ⟨m, hm⟩ : g.mwordSize ∣ 512 := by
    rw [hsize]
    exact pow_dvd_pow 2 (show e ≤ 9 by omega)
  have hloop := final_fillFrom M hpp m dest
  rw [Nat.mul_comm, ← hm] at hloop
  rw [finalMemory, ← final_bare, fill, bare_bind, hspread, pure_bind, final_bare]
  rw [show BitVec.ofInt 8 val.toNat = val by simp] at hloop
  exact hloop

theorem final_number (a : ℤ) (k l : ℕ) :
    finalMemory (number a k l : Code g Unit) M
      = M.write (a + k) ((List.range' k l).map (BitVec.ofNat 8)) := by
  induction l generalizing k M with
  | zero => exact (M.write_nil _).symm
  | succ l ih =>
    change finalMemory (number a (k + 1) l) (M.write (a + k) [BitVec.ofNat 8 k]) = _
    have hjoin := M.write_write (a + k) [BitVec.ofNat 8 k]
      ((List.range' (k + 1) l).map (BitVec.ofNat 8))
    rw [ih, List.range'_succ, List.map_cons]
    rwa [List.length_singleton, add_assoc, Nat.cast_one, show (k : ℤ) + 1 = (k + 1 : ℕ) by omega]
      at hjoin

end Loops

theorem toNat_eq_iff {b : Byte} {c : ℕ} (hc : c < 256) :
    (b.toNat : ℤ) = c ↔ b = BitVec.ofNat 8 c := by
  rw [Nat.cast_inj, ← BitVec.toNat_inj, BitVec.toNat_ofNat, Nat.mod_eq_of_lt hc]

/-- The asserts about one array: `want` in `[b, b + l)`, and `f` everywhere else. -/
theorem asserts_iff {N : Memory} {a : ℤ} {b l f : ℕ} (hf : f < 256) (want : ℕ → ℕ)
    (hwant : ∀ k < l, want k < 256) (hbl : b + l ≤ 512) :
    (assertEqual N a 0 b (fun _ => f) && assertEqual N (a + b) 0 l (fun k => want k) &&
      assertEqual N a (b + l) 512 fun _ => f) ↔
    ∀ k : ℕ, k < 512 →
      N (a + k) = BitVec.ofNat 8 (if b ≤ k ∧ k < b + l then want (k - b) else f) := by
  rw [Bool.and_eq_true, Bool.and_eq_true, assertEqual_iff, assertEqual_iff, assertEqual_iff]
  constructor
  · rintro ⟨⟨hbefore, hinside⟩, hafter⟩ k hk
    by_cases hin : b ≤ k ∧ k < b + l
    · have hbyte := hinside (k - b) (Nat.zero_le _) (by omega)
      rw [toNat_eq_iff (hwant _ (by omega)),
        show a + b + ((k - b : ℕ) : ℤ) = a + k by omega] at hbyte
      rw [if_pos hin, hbyte]
    · rw [if_neg hin, ← toNat_eq_iff hf]
      rcases lt_or_ge k b with hlt | hge
      · exact hbefore k (Nat.zero_le _) hlt
      · exact hafter k (by omega) hk
  · intro hall
    refine ⟨⟨fun k _ hk => ?_, fun k _ hk => ?_⟩, fun k hlow hk => ?_⟩
    · rw [toNat_eq_iff hf, hall k (by omega), if_neg (by omega)]
    · have hbyte := hall (b + k) (by omega)
      rw [if_pos (by omega), Nat.add_sub_cancel_left] at hbyte
      rw [toNat_eq_iff (hwant k hk), ← hbyte, Nat.cast_add, add_assoc]
    · rw [toNat_eq_iff hf, hall k hk, if_neg (by omega)]

/-! ### The test of a copy -/

section Copies

variable {A : Arrays g} {i j l k : ℕ} {M N : Memory}

theorem copyData_eq (A : Arrays g) (i l : ℕ) (M : Memory) : copyData A i l M
    = ((M.write A.src (List.replicate 512 254)).write A.dst (List.replicate 512 255)).write
        (A.src + i) ((List.range l).map (BitVec.ofNat 8)) := by
  have hfill := final_fill (g := g) M A.src 254
  have hfill' := final_fill (g := g) (M.write A.src (List.replicate 512 254)) A.dst 255
  have hnumber := final_number (g := g) ((M.write A.src (List.replicate 512 254)).write A.dst
    (List.replicate 512 255)) (A.src + i) 0 l
  rw [Nat.cast_zero, add_zero, ← List.range_eq_range'] at hnumber
  rw [copyData, finalMemory, final_bind, final_bind]
  change finalMemory (number _ _ _) (finalMemory (fill _ _) (finalMemory (fill _ _) M)) = _
  rw [hfill, hfill', hnumber]

/-- The arrays are told apart by their fills, and the bytes to be copied are numbered. -/
theorem copyData_src (hk : k < 512) : copyData A i l M (A.src + k)
    = BitVec.ofNat 8 (if i ≤ k ∧ k < i + l then k - i else 254) := by
  have hapart := A.apart
  rw [copyData_eq]
  by_cases hin : i ≤ k ∧ k < i + l
  · rw [if_pos hin, show A.src + k = A.src + i + ((k - i : ℕ) : ℤ) by omega,
      Memory.write_add _ (by rw [List.length_map, List.length_range]; omega)]
    simp
  · rw [if_neg hin, Memory.write_of_outside, Memory.write_of_outside, Memory.write_add,
      List.getElem_replicate]
    · rfl
    · rwa [List.length_replicate]
    · rw [List.length_replicate]
      omega
    · rw [List.length_map, List.length_range]
      omega

theorem copyData_dst (hil : i + l ≤ 512) (hk : k < 512) :
    copyData A i l M (A.dst + k) = 255 := by
  have hapart := A.apart
  rw [copyData_eq, Memory.write_of_outside, Memory.write_add, List.getElem_replicate]
  · rwa [List.length_replicate]
  · rw [List.length_map, List.length_range]
    omega

/-- The two arrays as a copy leaves them. -/
theorem write_copyData_src (hjl : j + l ≤ 512) (hk : k < 512) :
    (copyData A i l M).write (A.dst + j) ((copyData A i l M).slice (A.src + i) l) (A.src + k)
      = BitVec.ofNat 8 (if i ≤ k ∧ k < i + l then k - i else 254) := by
  have hapart := A.apart
  rw [Memory.write_of_outside, copyData_src hk]
  rw [Memory.length_slice]
  omega

theorem write_copyData_dst (hil : i + l ≤ 512) (hk : k < 512) :
    (copyData A i l M).write (A.dst + j) ((copyData A i l M).slice (A.src + i) l) (A.dst + k)
      = BitVec.ofNat 8 (if j ≤ k ∧ k < j + l then k - j else 255) := by
  by_cases hin : j ≤ k ∧ k < j + l
  · rw [if_pos hin, show A.dst + k = A.dst + j + ((k - j : ℕ) : ℤ) by omega,
      Memory.write_slice_add _ _ _ _ (by omega),
      show A.src + i + ((k - j : ℕ) : ℤ) = A.src + (i + (k - j) : ℕ) by omega,
      copyData_src (by omega), if_pos (by omega), Nat.add_sub_cancel_left]
  · rw [if_neg hin, Memory.write_of_outside, copyData_dst hil hk]
    · rfl
    · rw [Memory.length_slice]
      omega

theorem exists_eq_add {a x : ℤ} {n : ℕ} (hx : x ∈ bytesIn a n) : ∃ k : ℕ, k < n ∧ x = a + k := by
  obtain ⟨hlow, hhigh⟩ := hx
  exact ⟨(x - a).toNat, by omega, by omega⟩

/-- What the test of a copy asks for: both arrays as a copy leaves them, byte by byte. -/
theorem copyAsserts_iff (M : Memory) (hl : l < 254) (hil : i + l ≤ 512) (hjl : j + l ≤ 512) :
    copyAsserts A i j l N ↔ ∀ x ∈ bytesIn A.src 512 ∪ bytesIn A.dst 512,
      N x = (copyData A i l M).write (A.dst + j) ((copyData A i l M).slice (A.src + i) l) x := by
  have hnumber : ∀ k < l, k < 256 := fun k hk => by omega
  have hsrc := asserts_iff (N := N) (a := A.src) (f := 254) (by decide) (fun k => k) hnumber hil
  have hdst := asserts_iff (N := N) (a := A.dst) (f := 255) (by decide) (fun k => k) hnumber hjl
  have hall : copyAsserts A i j l N ↔
      (∀ k : ℕ, k < 512 →
        N (A.src + k) = BitVec.ofNat 8 (if i ≤ k ∧ k < i + l then k - i else 254)) ∧
      ∀ k : ℕ, k < 512 →
        N (A.dst + k) = BitVec.ofNat 8 (if j ≤ k ∧ k < j + l then k - j else 255) := by
    rw [← hsrc, ← hdst]
    simp only [copyAsserts, Bool.and_eq_true]
    tauto
  rw [hall]
  constructor
  · rintro ⟨hsrc, hdst⟩ x (hx | hx)
    · obtain ⟨k, hk, rfl⟩ := exists_eq_add hx
      rw [hsrc k hk, write_copyData_src hjl hk]
    · obtain ⟨k, hk, rfl⟩ := exists_eq_add hx
      rw [hdst k hk, write_copyData_dst hil hk]
  · intro hx
    refine ⟨fun k hk => ?_, fun k hk => ?_⟩
    · rw [hx _ (Or.inl ⟨by omega, by omega⟩), write_copyData_src hjl hk]
    · rw [hx _ (Or.inr ⟨by omega, by omega⟩), write_copyData_dst hil hk]

end Copies

/-- **What the test of a copy asks for**: both arrays as a copy leaves them, and nothing else. -/
theorem copyCase_iff (A : Arrays g) (copy : ℤ → ℤ → ℕ → Code g Unit) {i j l : ℕ} (hl : l < 254)
    (hil : i + l ≤ 512) (hjl : j + l ≤ 512) (M : Memory) :
    copyCase A copy i j l M = true ↔ ∀ x ∈ bytesIn A.src 512 ∪ bytesIn A.dst 512,
      finalMemory (copy (A.dst + j) (A.src + i) l) (copyData A i l M) x
        = (copyData A i l M).write (A.dst + j) ((copyData A i l M).slice (A.src + i) l) x :=
  copyAsserts_iff M hl hil hjl

/-- One array behind the other. -/
def arrays : Arrays .x86_64 where
  src := 0
  dst := 512
  src_aligned := by decide
  dst_aligned := by decide
  apart := by decide

theorem copyCase_iff_zeroLft :
    copyCase arrays (fun dest _ n => zeroLft .x86_64 dest n) 3 14 11 (fun _ => 0) = true ↔
      ∀ x ∈ bytesIn arrays.src 512 ∪ bytesIn arrays.dst 512,
        finalMemory (zeroLft .x86_64 (arrays.dst + (14 : ℕ)) 11) (copyData arrays 3 11 fun _ => 0) x
          = (copyData arrays 3 11 fun _ => 0).write (arrays.dst + (14 : ℕ))
              ((copyData arrays 3 11 fun _ => 0).slice (arrays.src + (3 : ℕ)) 11) x :=
  copyCase_iff arrays _ (by decide) (by decide) (by decide) _

section Places

variable {A : Arrays g} {i j l k : ℕ} {M : Memory} {y : ℤ}

/-! The data of the test name the place they come from. -/

theorem copyData_eq_iff {c : ℕ} (hc : c < 256) (hl : l < 254) (hil : i + l ≤ 512)
    (hy : y ∈ bytesIn A.src 512 ∪ bytesIn A.dst 512) :
    copyData A i l M y = BitVec.ofNat 8 c ↔
      (y ∈ bytesIn (A.src + i) l ∧ y = A.src + i + c) ∨
      (y ∈ bytesIn A.src 512 ∧ y ∉ bytesIn (A.src + i) l ∧ c = 254) ∨
      (y ∈ bytesIn A.dst 512 ∧ c = 255) := by
  have hapart := A.apart
  simp only [mem_bytesIn]
  rw [← BitVec.toNat_inj, BitVec.toNat_ofNat, Nat.mod_eq_of_lt hc]
  rcases hy with hsrc | hdst
  · obtain ⟨m, hm, rfl⟩ := exists_eq_add hsrc
    rw [copyData_src hm, BitVec.toNat_ofNat]
    split <;> omega
  · obtain ⟨m, hm, rfl⟩ := exists_eq_add hdst
    rw [copyData_dst hil hm]
    change 255 = c ↔ _
    omega

theorem copyData_eq_ofNat_iff (hl : l < 254) (hil : i + l ≤ 512)
    (hy : y ∈ bytesIn A.src 512 ∪ bytesIn A.dst 512) (hk : k < l) :
    copyData A i l M y = BitVec.ofNat 8 k ↔ y = A.src + i + k := by
  rw [copyData_eq_iff (by omega) hl hil hy]
  simp only [mem_bytesIn]
  omega

theorem copyData_eq_254_iff (hl : l < 254) (hil : i + l ≤ 512)
    (hy : y ∈ bytesIn A.src 512 ∪ bytesIn A.dst 512) :
    copyData A i l M y = BitVec.ofNat 8 254 ↔
      y ∈ bytesIn A.src 512 ∧ y ∉ bytesIn (A.src + i) l := by
  rw [copyData_eq_iff (by decide) hl hil hy]
  simp only [mem_bytesIn, and_true]
  omega

theorem copyData_eq_255_iff (hl : l < 254) (hil : i + l ≤ 512)
    (hy : y ∈ bytesIn A.src 512 ∪ bytesIn A.dst 512) :
    copyData A i l M y = BitVec.ofNat 8 255 ↔ y ∈ bytesIn A.dst 512 := by
  rw [copyData_eq_iff (by decide) hl hil hy]
  simp only [mem_bytesIn, and_true]
  omega

/-! The arrays as a copy leaves them, in and around the bytes that are copied. -/

theorem copied_dest (hil : i + l ≤ 512) (hjl : j + l ≤ 512) (hk : k < l) :
    (copyData A i l M).write (A.dst + j) ((copyData A i l M).slice (A.src + i) l) (A.dst + j + k)
      = BitVec.ofNat 8 k := by
  rw [add_assoc, ← Nat.cast_add, write_copyData_dst hil (by omega), if_pos (by omega),
    Nat.add_sub_cancel_left]

theorem copied_src (hil : i + l ≤ 512) (hjl : j + l ≤ 512) (hk : k < l) :
    (copyData A i l M).write (A.dst + j) ((copyData A i l M).slice (A.src + i) l) (A.src + i + k)
      = BitVec.ofNat 8 k := by
  rw [add_assoc, ← Nat.cast_add, write_copyData_src hjl (by omega), if_pos (by omega),
    Nat.add_sub_cancel_left]

theorem copied_around_src (hjl : j + l ≤ 512) (hy : y ∈ bytesIn A.src 512)
    (hout : y ∉ bytesIn (A.src + i) l) :
    (copyData A i l M).write (A.dst + j) ((copyData A i l M).slice (A.src + i) l) y
      = BitVec.ofNat 8 254 := by
  obtain ⟨k, hk, rfl⟩ := exists_eq_add hy
  rw [write_copyData_src hjl hk, if_neg fun hin => hout ⟨by omega, by omega⟩]

theorem copied_around_dst (hil : i + l ≤ 512) (hy : y ∈ bytesIn A.dst 512)
    (hout : y ∉ bytesIn (A.dst + j) l) :
    (copyData A i l M).write (A.dst + j) ((copyData A i l M).slice (A.src + i) l) y
      = BitVec.ofNat 8 255 := by
  obtain ⟨k, hk, rfl⟩ := exists_eq_add hy
  rw [write_copyData_dst hil hk, if_neg fun hin => hout ⟨by omega, by omega⟩]

end Places

/-- **What the data of the test tell apart**, for a routine that moves bytes of the arrays, whatever
they are. It passes if each byte of dest comes from its place in src and stays there, and if what is
around them comes from around them: around src from around src, around dest from the array of
dest. -/
theorem copyCase_iff_place (A : Arrays g) {copy : ℤ → ℤ → ℕ → Code g Unit} {i j l : ℕ}
    (hl : l < 254) (hil : i + l ≤ 512) (hjl : j + l ≤ 512) (place : ℤ → ℤ)
    (hplace : ∀ x ∈ bytesIn A.src 512 ∪ bytesIn A.dst 512,
      place x ∈ bytesIn A.src 512 ∪ bytesIn A.dst 512)
    (hmoves : ∀ (M : Memory), ∀ x ∈ bytesIn A.src 512 ∪ bytesIn A.dst 512,
      finalMemory (copy (A.dst + j) (A.src + i) l) M x = M (place x)) (M : Memory) :
    copyCase A copy i j l M = true ↔
      (∀ k : ℕ, k < l → place (A.dst + j + k) = A.src + i + k ∧
        place (A.src + i + k) = A.src + i + k) ∧
      (∀ x ∈ bytesIn A.src 512, x ∉ bytesIn (A.src + i) l →
        place x ∈ bytesIn A.src 512 ∧ place x ∉ bytesIn (A.src + i) l) ∧
      ∀ x ∈ bytesIn A.dst 512, x ∉ bytesIn (A.dst + j) l → place x ∈ bytesIn A.dst 512 := by
  have hdst : ∀ k : ℕ, k < l → A.dst + j + k ∈ bytesIn A.src 512 ∪ bytesIn A.dst 512 :=
    fun k hk => Or.inr ⟨by omega, by omega⟩
  have hsrc : ∀ k : ℕ, k < l → A.src + i + k ∈ bytesIn A.src 512 ∪ bytesIn A.dst 512 :=
    fun k hk => Or.inl ⟨by omega, by omega⟩
  refine (copyAsserts_iff M hl hil hjl).trans ?_
  constructor
  · intro hall
    refine ⟨fun k hk => ⟨?_, ?_⟩, fun x hx hout => ?_, fun x hx hout => ?_⟩
    · rw [← copyData_eq_ofNat_iff hl hil (hplace _ (hdst k hk)) hk,
        ← hmoves (copyData A i l M) _ (hdst k hk), hall _ (hdst k hk), copied_dest hil hjl hk]
    · rw [← copyData_eq_ofNat_iff hl hil (hplace _ (hsrc k hk)) hk,
        ← hmoves (copyData A i l M) _ (hsrc k hk), hall _ (hsrc k hk), copied_src hil hjl hk]
    · rw [← copyData_eq_254_iff hl hil (hplace x (Or.inl hx)),
        ← hmoves (copyData A i l M) x (Or.inl hx), hall x (Or.inl hx),
        copied_around_src hjl hx hout]
    · rw [← copyData_eq_255_iff hl hil (hplace x (Or.inr hx)),
        ← hmoves (copyData A i l M) x (Or.inr hx), hall x (Or.inr hx),
        copied_around_dst hil hx hout]
  · rintro ⟨hplaces, hrest, hrest'⟩ x (hx | hx)
    · rw [hmoves _ x (Or.inl hx)]
      by_cases hin : x ∈ bytesIn (A.src + i) l
      · obtain ⟨k, hk, rfl⟩ := exists_eq_add hin
        rw [copied_src hil hjl hk, copyData_eq_ofNat_iff hl hil (hplace _ (hsrc k hk)) hk]
        exact (hplaces k hk).2
      · rw [copied_around_src hjl hx hin, copyData_eq_254_iff hl hil (hplace x (Or.inl hx))]
        exact hrest x hx hin
    · rw [hmoves _ x (Or.inr hx)]
      by_cases hin : x ∈ bytesIn (A.dst + j) l
      · obtain ⟨k, hk, rfl⟩ := exists_eq_add hin
        rw [copied_dest hil hjl hk, copyData_eq_ofNat_iff hl hil (hplace _ (hdst k hk)) hk]
        exact (hplaces k hk).1
      · rw [copied_around_dst hil hx hin, copyData_eq_255_iff hl hil (hplace x (Or.inr hx))]
        exact hrest' x hx hin

/-- `lssc_lf` takes eleven bytes from `3` to `526`. -/
theorem copyCase_iff_place_lsscLf :
    copyCase arrays (lsscLf .x86_64) 3 14 11 (fun x => BitVec.ofInt 8 x) = true := by
  have hsrc : arrays.src = 0 := rfl
  have hdst : arrays.dst = 512 := rfl
  have hfinal : ∀ M : Memory, finalMemory (lsscLf .x86_64 (arrays.dst + (14 : ℕ))
      (arrays.src + (3 : ℕ)) 11) M = M.write 526 (M.slice 3 11) := final_lsscLf (by decide)
  refine (copyCase_iff_place arrays (by decide) (by decide) (by decide)
    (fun x => if 526 ≤ x ∧ x < 537 then x - 523 else x) (fun x hx => ?_) (fun M x _ => ?_)
    _).mpr ⟨?_, ?_, ?_⟩
  · simp only [Set.mem_union, mem_bytesIn] at hx ⊢
    split <;> omega
  · rw [hfinal]
    split
    · obtain ⟨k, hk⟩ := Int.eq_ofNat_of_zero_le (show 0 ≤ x - 526 by omega)
      rw [show x = 526 + (k : ℤ) by omega, Memory.write_slice_add _ _ _ _ (by omega)]
      congr 1
      omega
    · rw [M.write_of_outside]
      rw [Memory.length_slice]
      omega
  · intro k hk
    exact ⟨by rw [if_pos (by omega)]; omega, if_neg (by omega)⟩
  · intro x hx hout
    simp only [mem_bytesIn] at hx hout ⊢
    split <;> omega
  · intro x hx hout
    simp only [mem_bytesIn] at hx hout ⊢
    split <;> omega

/-! ### The loops of the tests -/

/-- The loops of `copy_ShouldCopyWithoutFail`. Each round may find any memory. -/
def copyTest (A : Arrays g) (copy : ℤ → ℤ → ℕ → Code g Unit) (M : ℕ → ℕ → ℕ → Memory) : Bool :=
  (List.range 16).all fun i => (List.range 16).all fun j => (List.range 254).all fun l =>
    copyCase A copy i j l (M i j l)

/-- The loops of `init_ShouldInitWithoutFail`, where `char` has the given maximum. -/
def initTest (dst : ℤ) (init : ℤ → ℤ → ℕ → Code g Unit) (charMax : ℕ) (M : ℕ → ℕ → ℕ → Memory) :
    Bool :=
  (List.range (charMax + 1)).all fun ch => (List.range 16).all fun j =>
    (List.range 254).all fun l => initCase dst init ch j l (M ch j l)

/-- The loops of `zero_ShouldZeroWithoutFail`. -/
def zeroTest (dst : ℤ) (zero : ℤ → ℕ → Code g Unit) (M : ℕ → ℕ → Memory) : Bool :=
  (List.range 16).all fun j => (List.range 254).all fun l => zeroCase dst zero j l (M j l)

/-- A test that passes has passed in each of its rounds. -/
theorem copyCase_of_copyTest {A : Arrays g} {copy : ℤ → ℤ → ℕ → Code g Unit}
    {M : ℕ → ℕ → ℕ → Memory} (htest : copyTest A copy M = true) {i j l : ℕ} (hi : i < 16)
    (hj : j < 16) (hl : l < 254) : copyCase A copy i j l (M i j l) = true := by
  have hround := List.all_eq_true.mp htest i (List.mem_range.mpr hi)
  replace hround := List.all_eq_true.mp hround j (List.mem_range.mpr hj)
  exact List.all_eq_true.mp hround l (List.mem_range.mpr hl)

/-- **The sixteen offsets are all there are**, for the lengths of the test: any copy makes the
accesses of one that the test makes in some round, moved by whole words. -/
theorem exists_test_offsets (A : Arrays g) {dest src : ℤ} (hne : dest ≠ src) {n : ℕ}
    (hn : n < 254) :
    ∃ i j : ℕ, (∀ copy M, copyTest A copy M = true → copyCase A copy i j n (M i j n) = true) ∧
      ∃ K K' : ℤ, (g.mwordSize : ℤ) ∣ K ∧ (g.mwordSize : ℤ) ∣ K' ∧
        dest = A.dst + j + K ∧ src = A.src + i + K' ∧
        ∀ copy ∈ [lsscLf g, lsscLft g, lsscLr g, lsscLrt g], (copy dest src n).bare
          = (copy (A.dst + j) (A.src + i) n).bare.translate (moved K K') K := by
  have hle := g.mwordSize_le
  have hapart := A.apart
  have hoffset : ∀ a b : ℤ, (g.mwordSize : ℤ) ∣ b → ∃ i : ℕ, i < 16 ∧ ∃ K : ℤ,
      (g.mwordSize : ℤ) ∣ K ∧ a = b + i + K := by
    intro a b hb
    have hlt := emod_lt_natCast g.mwordSize a
    have hnonneg := emod_nonneg_natCast g.mwordSize a
    exact ⟨(a % g.mwordSize).toNat, by omega, a - a % g.mwordSize - b,
      Int.dvd_sub (dvd_sub_emod a) hb, by omega⟩
  obtain ⟨i, hi, K', hK', hsrc⟩ := hoffset src A.src A.src_aligned
  obtain ⟨j, hj, K, hK, hdest⟩ := hoffset dest A.dst A.dst_aligned
  refine ⟨i, j, fun copy M htest => copyCase_of_copyTest htest hi hj hn, K, K', hK, hK', hdest,
    hsrc, ?_⟩
  rw [hdest, hsrc] at hne ⊢
  exact copies_translate n hK hK' ⟨fun heq => absurd heq hne, fun heq => by omega⟩

theorem exists_test_offsets_far :
    ∃ i j : ℕ, (∀ copy M, copyTest arrays copy M = true →
        copyCase arrays copy i j 25 (M i j 25) = true) ∧
      ∃ K K' : ℤ, (Geometry.x86_64.mwordSize : ℤ) ∣ K ∧ (Geometry.x86_64.mwordSize : ℤ) ∣ K' ∧
        1000003 = arrays.dst + j + K ∧ -70 = arrays.src + i + K' ∧
        ∀ copy ∈ [lsscLf .x86_64, lsscLft .x86_64, lsscLr .x86_64, lsscLrt .x86_64],
          (copy 1000003 (-70) 25).bare
            = (copy (arrays.dst + j) (arrays.src + i) 25).bare.translate (moved K K') K :=
  exists_test_offsets arrays (by decide) (by decide)

section Passing

variable {dst : ℤ} {j l : ℕ}

/-- An array that is filled with 255, and then in part with `ch`. -/
theorem asserts_fill {ch : ℕ} (hch : ch < 256) (hjl : j + l ≤ 512) {M N : Memory}
    (hN : N = (M.write dst (List.replicate 512 255)).write (dst + j)
      (List.replicate l (BitVec.ofNat 8 ch))) :
    (assertEqual N dst 0 j (fun _ => 255) && assertEqual N (dst + j) 0 l (fun _ => ch) &&
      assertEqual N dst (j + l) 512 fun _ => 255) := by
  refine (asserts_iff (f := 255) (by decide) (fun _ => ch) (fun _ _ => hch) hjl).mpr ?_
  intro k hk
  rw [hN]
  by_cases hin : j ≤ k ∧ k < j + l
  · rw [if_pos hin, show dst + k = dst + j + ((k - j : ℕ) : ℤ) by omega,
      Memory.write_add _ (by rw [List.length_replicate]; omega), List.getElem_replicate]
  · rw [if_neg hin, Memory.write_of_outside _ (by rw [List.length_replicate]; omega),
      Memory.write_add _ (by rwa [List.length_replicate]), List.getElem_replicate]
    rfl

theorem copyTest_of_final {copy : ℤ → ℤ → ℕ → Code g Unit} (A : Arrays g)
    (hcopy : ∀ (dest src : ℤ) (n : ℕ) (M : Memory), src + n ≤ dest ∨ dest + n ≤ src →
      finalMemory (copy dest src n) M = M.write dest (M.slice src n)) (M : ℕ → ℕ → ℕ → Memory) :
    copyTest A copy M = true := by
  have hapart := A.apart
  refine List.all_eq_true.mpr fun i hi => List.all_eq_true.mpr fun j hj =>
    List.all_eq_true.mpr fun l hl => ?_
  rw [List.mem_range] at hi hj hl
  refine (copyAsserts_iff (M i j l) hl (by omega) (by omega)).mpr fun x _ => ?_
  rw [hcopy _ _ _ _ (by omega)]

theorem initTest_of_final {init : ℤ → ℤ → ℕ → Code g Unit} (dst : ℤ) {charMax : ℕ}
    (hchar : charMax ≤ 255)
    (hinit : ∀ (dest ch : ℤ) (n : ℕ) (M : Memory), finalMemory (init dest ch n) M
      = M.write dest (List.replicate n (BitVec.ofInt 8 ch))) (M : ℕ → ℕ → ℕ → Memory) :
    initTest dst init charMax M = true := by
  refine List.all_eq_true.mpr fun ch hch => List.all_eq_true.mpr fun j hj =>
    List.all_eq_true.mpr fun l hl => ?_
  rw [List.mem_range] at hch hj hl
  refine asserts_fill (M := M ch j l) (by omega) (by omega) ?_
  rw [finalMemory, final_bind]
  change finalMemory (init _ _ _) (finalMemory (fill _ _) _) = _
  rw [final_fill, hinit, BitVec.ofInt_natCast]

theorem zeroTest_of_final {zero : ℤ → ℕ → Code g Unit} (dst : ℤ)
    (hzero : ∀ (dest : ℤ) (n : ℕ) (M : Memory), finalMemory (zero dest n) M
      = M.write dest (List.replicate n 0)) (M : ℕ → ℕ → Memory) :
    zeroTest dst zero M = true := by
  refine List.all_eq_true.mpr fun j hj => List.all_eq_true.mpr fun l hl => ?_
  rw [List.mem_range] at hj hl
  refine asserts_fill (M := M j l) (show 0 < 256 by decide) (by omega) ?_
  rw [finalMemory, final_bind]
  change finalMemory (zero _ _) (finalMemory (fill _ _) _) = _
  rw [final_fill, hzero]
  rfl

end Passing

/-! ### All tests pass -/

/-- **All eight tests pass**, for every word size, wherever the arrays are. -/
theorem tests_pass (A : Arrays g) {charMax : ℕ} (hchar : charMax ≤ 255) (M : ℕ → ℕ → ℕ → Memory) :
    (∀ copy ∈ [lsscLf g, lsscLft g, lsscLr g, lsscLrt g], copyTest A copy M = true) ∧
      (∀ init ∈ [initLf g, initLft g], initTest A.dst init charMax M = true) ∧
      ∀ zero ∈ [zeroLf g, zeroLft g], zeroTest A.dst zero (M 0) = true := by
  refine ⟨fun copy hcopy => copyTest_of_final A (fun dest src n N hdisj => ?_) M,
    fun init hinit => initTest_of_final A.dst hchar (fun dest ch n N => ?_) M,
    fun zero hzero => zeroTest_of_final A.dst (fun dest n N => ?_) (M 0)⟩
  · simp only [List.mem_cons, List.not_mem_nil, or_false] at hcopy
    rcases hcopy with rfl | rfl | rfl | rfl
    · exact final_lsscLf (by omega) N
    · exact final_lsscLft (by omega) N
    · exact final_lsscLr (by omega) N
    · exact final_lsscLrt (by omega) N
  · rcases List.mem_pair.mp hinit with rfl | rfl
    · exact final_initLf ..
    · exact final_initLft ..
  · rcases List.mem_pair.mp hzero with rfl | rfl
    · exact final_zeroLf ..
    · exact final_zeroLft ..

theorem tests_pass_arrays :
    (∀ copy ∈ [lsscLf .x86_64, lsscLft .x86_64, lsscLr .x86_64, lsscLrt .x86_64],
      copyTest arrays copy (fun _ _ _ _ => 0) = true) ∧
      (∀ init ∈ [initLf .x86_64, initLft .x86_64],
        initTest arrays.dst init 127 (fun _ _ _ _ => 0) = true) ∧
      ∀ zero ∈ [zeroLf .x86_64, zeroLft .x86_64],
        zeroTest arrays.dst zero (fun _ _ _ => 0) = true :=
  tests_pass arrays (by decide) _

end Lssc
