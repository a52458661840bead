import Lssc.WordAccess.Alignment
import Lssc.WordAccess.Program
import Lssc.WordAccess.Memory

/-!
# The implementation header

`lssc.h`: the word type, its size, and the alignment from which a core tolerates sub-word
accesses, together with the C operations the routines are written in.

## Geometries

`MWORD_SIZE` and `MMIN_ALIGN` are fixed by the preprocessor. A `Geometry` is one choice of them
that gets past the `#error` lines of the header, so the tests the header makes are fields here and
no theorem has to assume them. `size_t` has `sizeBits` bits, at least the sixteen that C grants.

## Addresses

An address is an integer. Ranges are assumed not to wrap around the address space, so nothing
distinguishes an address from the number it is, and a pointer that is stepped below address `0`
after its last use is just a negative number. The masks of the source are `Int.land`, to which an
integer is a two's complement number of unbounded width, and `~` is `~~~`.

## Arithmetic

A word is a `BitVec` and `size_t` values are natural numbers. C leaves a shift by the word width
or more undefined, and a `size_t` difference wraps when it is negative. `shl`, `shr`, `sub`, `mul`
and `add` therefore leave a note of their operands behind. The values they return are what C
computes whenever the note is harmless, and the one difference the source means to wrap,
`w = v - u`, is `wrapSub`. Integer promotion of narrow words changes no result, since every value
is cut back to a word before its high bits can matter: left operands of `>>` are words.
-/

namespace Lssc

open WordAccess

/-- A choice of `MWORD_SIZE` and `MMIN_ALIGN` that the header accepts. -/
structure Geometry where
  /-- `MWORD_SIZE`, the size of `MWORD_t`. -/
  mwordSize : ℕ
  /-- `MMIN_ALIGN`. -/
  mminAlign : ℕ
  /-- The width of `size_t`. -/
  sizeBits : ℕ
  /-- Otherwise: "Unsupported MWORD_SIZE". -/
  supported : mwordSize ∈ [1, 2, 4, 8, 16]
  /-- Otherwise: "MWORD_SIZE must be a multiple of MMIN_ALIGN". -/
  compatible : mwordSize % mminAlign = 0
  /-- `SIZE_MAX` is at least `65535`. -/
  sixteen_le_sizeBits : 16 ≤ sizeBits

namespace Geometry

variable (g : Geometry)

/-- Every word size is a power of two. -/
theorem exists_mwordSize_eq : ∃ e ≤ 4, g.mwordSize = 2 ^ e := by
  have := g.supported
  simp only [List.mem_cons, List.not_mem_nil, or_false] at this
  rcases this with h | h | h | h | h
  · exact ⟨0, by omega, h⟩
  · exact ⟨1, by omega, h⟩
  · exact ⟨2, by omega, h⟩
  · exact ⟨3, by omega, h⟩
  · exact ⟨4, by omega, h⟩

theorem mwordSize_pos : 0 < g.mwordSize := by
  obtain ⟨e, -, he⟩ := g.exists_mwordSize_eq
  exact he ▸ Nat.two_pow_pos e

instance : NeZero g.mwordSize := ⟨g.mwordSize_pos.ne'⟩

theorem mwordSize_le : g.mwordSize ≤ 16 := by
  obtain ⟨e, he, h⟩ := g.exists_mwordSize_eq
  exact h ▸ Nat.pow_le_pow_right (by omega) he

theorem mminAlign_dvd : g.mminAlign ∣ g.mwordSize := Nat.dvd_of_mod_eq_zero g.compatible

/-- The choice the header makes for `__x86_64__`. -/
def x86_64 : Geometry where
  mwordSize := 8
  mminAlign := 8
  sizeBits := 64
  supported := by decide
  compatible := by decide
  sixteen_le_sizeBits := by decide

/-- The choice the header makes for `__i386__`. -/
def i386 : Geometry where
  mwordSize := 4
  mminAlign := 4
  sizeBits := 32
  supported := by decide
  compatible := by decide
  sixteen_le_sizeBits := by decide

end Geometry

/-- `MWORD_t`. -/
abbrev MWord (g : Geometry) := BitVec (g.mwordSize * 8)

/-- The two word pointers every copy steps through memory. -/
inductive Ptr : Type
  | s
  | d
  deriving DecidableEq, Repr

/-- An evaluation whose operands matter: a shift of a word by a count, or `size_t` arithmetic. -/
inductive Arith : Type
  | shl (x c : ℕ)
  | shr (x c : ℕ)
  | sub (x y : ℕ)
  | mul (x y : ℕ)
  | add (x y : ℕ)
  deriving DecidableEq, Repr

/-- A C statement or function, as the accesses it makes. -/
abbrev Code (g : Geometry) (α : Type) := Program g.mwordSize Ptr Arith α

section Operations

variable {g : Geometry}

/-- `*s` or `*d`. -/
def load (p : Ptr) (a : ℤ) : Code g (MWord g) := .load p a pure

/-- `*d = x`. -/
def storeWord (a : ℤ) (x : MWord g) : Code g Unit := .store a (bytes g.mwordSize x) (pure ())

/-- `*(t*)a = (t)x` for a type `t` of `p` bytes. -/
def storeLow (p : ℕ) (a : ℤ) (x : MWord g) : Code g Unit := .store a (bytes p x) (pure ())

/-- `x << c`, cut back to a word. -/
def shl (x : MWord g) (c : ℕ) : Code g (MWord g) := .note (.shl x.toNat c) (pure (x <<< c))

/-- `x >> c`. -/
def shr (x : MWord g) (c : ℕ) : Code g (MWord g) := .note (.shr x.toNat c) (pure (x >>> c))

/-- `x - y` on `size_t`. -/
def sub (x y : ℕ) : Code g ℕ := .note (.sub x y) (pure (x - y))

/-- `x * y` on `size_t`. -/
def mul (x y : ℕ) : Code g ℕ := .note (.mul x y) (pure (x * y))

/-- `x + y` on `size_t`. -/
def add (x y : ℕ) : Code g ℕ := .note (.add x y) (pure (x + y))

variable (g)

/-- `x - y` on `size_t` where it is meant to wrap. -/
def wrapSub (x y : ℕ) : ℕ := (x + 2 ^ g.sizeBits - y) % 2 ^ g.sizeBits

/-- `x + y` on `size_t` where it is meant to wrap. -/
def wrapAdd (x y : ℕ) : ℕ := (x + y) % 2 ^ g.sizeBits

/-- `m`, the word of all ones: `(MWORD_t)~b` for `b = 0`. -/
def ones : MWord g := ~~~0

/-- `a & (h-1)`, the offset of an address in its word. -/
def offset (a : ℤ) : ℕ := (Int.land a (g.mwordSize - 1)).toNat

/-- `a & ~(uintptr_t)(h-1)`, the start of the word of an address. -/
def align (a : ℤ) : ℤ := Int.land a (~~~(g.mwordSize - 1 : ℤ))

variable {g}

/-- `while (h <= n) { body; n -= h; }`, and what `n` is afterwards. -/
def whileWords {σ : Type} (body : σ → Code g σ) (n : ℕ) (r : σ) : Code g (σ × ℕ) :=
  if g.mwordSize ≤ n then do
    let r ← body r
    let _ ← sub n g.mwordSize
    whileWords body (n - g.mwordSize) r
  else pure (r, n)
termination_by n
decreasing_by have := g.mwordSize_pos; omega

end Operations

/-! ### Running a routine -/

/-- The accesses of a run on `M`. -/
def accesses {g : Geometry} {α : Type} (p : Code g α) (M : Memory) : List (Access Ptr) :=
  p.trace (Memory.environment g.mwordSize) M

/-- The memory a run on `M` ends in. -/
def finalMemory {g : Geometry} {α : Type} (p : Code g α) (M : Memory) : Memory :=
  p.final (Memory.environment g.mwordSize) M

/-! ### What the operations do

The accesses of each operation, once its notes are dropped. -/

section Bare

variable {g : Geometry}

@[simp] theorem bare_loadVia (p : Ptr) (a : ℤ) : (load p a : Code g _).bare = load p a := rfl

theorem load_bind {α : Type} (p : Ptr) (a : ℤ) (f : MWord g → Code g α) :
    (load p a >>= f) = .load p a f := rfl

section Notes

variable {α : Type} (x : MWord g) (c y z : ℕ)

theorem shl_bind (f : MWord g → Code g α) :
    (shl x c >>= f) = .note (.shl x.toNat c) (f (x <<< c)) := rfl

theorem shr_bind (f : MWord g → Code g α) :
    (shr x c >>= f) = .note (.shr x.toNat c) (f (x >>> c)) := rfl

theorem sub_bind (f : ℕ → Code g α) : (sub y z >>= f) = .note (.sub y z) (f (y - z)) := rfl

theorem mul_bind (f : ℕ → Code g α) : (mul y z >>= f) = .note (.mul y z) (f (y * z)) := rfl

end Notes

@[simp] theorem bare_storeWord (a : ℤ) (x : MWord g) :
    (storeWord a x).bare = storeWord a x := rfl

@[simp] theorem bare_storeLow (p : ℕ) (a : ℤ) (x : MWord g) :
    (storeLow p a x).bare = storeLow p a x := rfl

@[simp] theorem bare_shl (x : MWord g) (c : ℕ) : (shl x c).bare = pure (x <<< c) := rfl

@[simp] theorem bare_shr (x : MWord g) (c : ℕ) : (shr x c).bare = pure (x >>> c) := rfl

@[simp] theorem bare_sub (x y : ℕ) : (sub x y : Code g ℕ).bare = pure (x - y) := rfl

@[simp] theorem bare_mul (x y : ℕ) : (mul x y : Code g ℕ).bare = pure (x * y) := rfl

@[simp] theorem bare_add (x y : ℕ) : (add x y : Code g ℕ).bare = pure (x + y) := rfl

variable {σ : Type} (body : σ → Code g σ) {n : ℕ} (r : σ)

theorem bare_whileWords_of_le (hn : g.mwordSize ≤ n) :
    (whileWords body n r).bare
      = (body r).bare >>= fun r => (whileWords body (n - g.mwordSize) r).bare := by
  rw [whileWords, if_pos hn]
  simp

theorem whileWords_of_lt (hn : n < g.mwordSize) : whileWords body n r = pure (r, n) := by
  rw [whileWords, if_neg (by omega)]

end Bare

/-! ### What the masks compute -/

section Masks

variable (g : Geometry)

theorem ones_eq : ones g = BitVec.allOnes _ := BitVec.not_zero

theorem natCast_offset (a : ℤ) : (offset g a : ℤ) = a % g.mwordSize := by
  obtain ⟨e, -, he⟩ := g.exists_mwordSize_eq
  have hmask : Int.land a (g.mwordSize - 1) = a % g.mwordSize := by
    rw [he]
    push_cast
    exact land_two_pow_sub_one e a
  rw [offset, hmask, Int.toNat_of_nonneg (emod_nonneg_natCast _ a)]

theorem offset_lt (a : ℤ) : offset g a < g.mwordSize := by
  have := natCast_offset g a
  have := emod_lt_natCast g.mwordSize a
  omega

theorem align_eq (a : ℤ) : align g a = a - offset g a := by
  obtain ⟨e, -, he⟩ := g.exists_mwordSize_eq
  have hmask : align g a = a - a % g.mwordSize := by
    rw [align, he]
    push_cast
    exact land_not_two_pow_sub_one e a
  rw [hmask, natCast_offset]

theorem dvd_align_add (a : ℤ) : (g.mwordSize : ℤ) ∣ align g a + g.mwordSize := by
  rw [align_eq, natCast_offset]
  exact Int.dvd_add (dvd_sub_emod a) (Int.dvd_refl _)

variable {g} in
/-- An address without an offset is the start of its word. -/
theorem align_of_offset_eq_zero {a : ℤ} (ha : offset g a = 0) : align g a = a := by
  rw [align_eq, ha, Nat.cast_zero, sub_zero]

variable {g} in
theorem dvd_of_offset_eq_zero {a : ℤ} (ha : offset g a = 0) : (g.mwordSize : ℤ) ∣ a := by
  have hmod := natCast_offset g a
  exact Int.dvd_of_emod_eq_zero (by omega)

theorem two_pow_sizeBits_ge : 2 ^ 16 ≤ 2 ^ g.sizeBits :=
  Nat.pow_le_pow_right (by omega) g.sixteen_le_sizeBits

end Masks

/-! ### Wrapping arithmetic -/

section Wrapping

variable {g : Geometry} {u v : ℕ}

theorem wrapSub_of_le (huv : u ≤ v) (hv : v ≤ g.mwordSize * 8) : wrapSub g v u = v - u := by
  have := g.mwordSize_le
  have := two_pow_sizeBits_ge g
  rw [wrapSub, show v + 2 ^ g.sizeBits - u = v - u + 2 ^ g.sizeBits by omega,
    Nat.add_mod_right]
  exact Nat.mod_eq_of_lt (by omega)

/-- `w = v - u` wraps, and `w += t` wraps back. -/
theorem wrapAdd_wrapSub {t : ℕ} (hvu : v < u) (hut : u ≤ t) (ht : t ≤ g.mwordSize * 8) :
    wrapAdd g (wrapSub g v u) t = t - (u - v) := by
  have := g.mwordSize_le
  have := two_pow_sizeBits_ge g
  rw [wrapAdd, wrapSub, Nat.mod_eq_of_lt (a := v + 2 ^ g.sizeBits - u) (by omega),
    show v + 2 ^ g.sizeBits - u + t = t - (u - v) + 2 ^ g.sizeBits by omega, Nat.add_mod_right]
  exact Nat.mod_eq_of_lt (by omega)

end Wrapping

end Lssc
