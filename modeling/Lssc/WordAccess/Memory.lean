import Lssc.WordAccess.Program

/-!
# Memories and oracles

The two environments this development runs programs in.

A `Memory` is a byte at every address. Loads read the word at an address in little-endian order
and stores overwrite a range, so a run on a memory is the ordinary execution of a program.

An oracle answers load number `t` of a run with whatever it likes. It models a memory that
somebody else keeps changing: nothing ties the answers of two loads together, and nothing ties
them to what the program has stored.

## Main definitions

* `Memory.word`, `slice`, `write` — reading a word, reading a range, overwriting a range
* `Memory.IsCopy`, `IsFill` — one memory is another with a range copied, or filled
* `Memory.environment`, `oracleEnvironment`

## Main results

* `Memory.write_write` — adjacent writes are one write
* `Memory.write_slice` — writing back what a range holds changes nothing
* `Program.final_eq_foldl_stores` — the memory a run ends in is its stores applied in order
-/

namespace WordAccess

/-- A byte at every address. -/
abbrev Memory := ℤ → Byte

namespace Memory

variable {h : ℕ} (M : Memory)

/-- The little-endian word of `h` bytes at `a`. -/
def word (h : ℕ) (a : ℤ) : BitVec (h * 8) := ofBytes h fun k : ℕ => M (a + k)

/-- The `n` bytes from `a` on. -/
def slice (a : ℤ) (n : ℕ) : List Byte := (List.range n).map fun k : ℕ => M (a + k)

/-- The memory with the bytes from `a` on replaced by `bs`. -/
def write (a : ℤ) (bs : List Byte) : Memory := fun x =>
  if a ≤ x ∧ x < a + bs.length then bs.getD (x - a).toNat 0 else M x

/-! ### Reading -/

theorem byte_word (a : ℤ) {k : ℕ} (hk : k < h) : byte (M.word h a) k = M (a + k) :=
  byte_ofBytes _ hk

@[simp] theorem length_slice (a : ℤ) (n : ℕ) : (M.slice a n).length = n := by simp [slice]

theorem getElem?_slice (a : ℤ) (n k : ℕ) :
    (M.slice a n)[k]? = if k < n then some (M (a + k)) else none := by
  split
  · rw [slice, List.getElem?_map, List.getElem?_range ‹_›, Option.map_some]
  · exact List.getElem?_eq_none (by rw [length_slice]; omega)

@[simp] theorem bytes_word (a : ℤ) : bytes h (M.word h a) = M.slice a h := by
  refine bytes_eq (by simp) fun k hk => ?_
  rw [getElem?_slice, if_pos hk, M.byte_word a hk]

@[simp] theorem slice_zero (a : ℤ) : M.slice a 0 = [] := rfl

theorem slice_add (a : ℤ) (m n : ℕ) : M.slice a (m + n) = M.slice a m ++ M.slice (a + m) n := by
  apply List.ext_getElem?
  intro k
  rw [List.getElem?_append, length_slice, getElem?_slice, getElem?_slice, getElem?_slice]
  rcases lt_or_ge k m with hk | hk
  · rw [if_pos (by omega), if_pos hk, if_pos hk]
  · rw [if_neg (show ¬k < m by omega), show a + m + ((k - m : ℕ) : ℤ) = a + k by omega]
    simp only [show k < m + n ↔ k - m < n by omega]

theorem take_slice (a : ℤ) {m n : ℕ} (hmn : m ≤ n) : (M.slice a n).take m = M.slice a m := by
  rw [← Nat.add_sub_of_le hmn, slice_add, List.take_left' (M.length_slice a m)]

theorem drop_slice (a : ℤ) {m n : ℕ} (hmn : m ≤ n) :
    (M.slice a n).drop m = M.slice (a + m) (n - m) := by
  conv_lhs => rw [← Nat.add_sub_of_le hmn, slice_add]
  rw [List.drop_left' (M.length_slice a m)]

/-- The low bytes of a word that was loaded. -/
theorem bytes_word_of_le (a : ℤ) {p : ℕ} (hp : p ≤ h) : bytes p (M.word h a) = M.slice a p := by
  rw [← take_bytes hp, bytes_word, take_slice _ _ hp]

/-- Memories that agree on a range have the same slice of it. -/
theorem slice_congr {M N : Memory} {a : ℤ} {n : ℕ}
    (hMN : ∀ k : ℕ, k < n → M (a + k) = N (a + k)) :
    M.slice a n = N.slice a n :=
  List.map_congr_left fun k hk => hMN k (List.mem_range.mp hk)

/-! ### Writing -/

@[simp] theorem write_nil (a : ℤ) : M.write a [] = M := by
  funext x
  rw [write, if_neg (by simp)]

theorem write_of_outside {a x : ℤ} {bs : List Byte} (hx : x < a ∨ a + bs.length ≤ x) :
    M.write a bs x = M x := by
  rw [write, if_neg (by omega)]

theorem write_add {a : ℤ} {bs : List Byte} {k : ℕ} (hk : k < bs.length) :
    M.write a bs (a + k) = bs[k] := by
  rw [write, if_pos (by omega), show (a + k - a).toNat = k by omega, List.getD_eq_getElem _ _ hk]

theorem write_singleton (a : ℤ) (b : Byte) : M.write a [b] a = b := by
  simp [write]

theorem write_bytes_add (a : ℤ) (x : BitVec (h * 8)) {p k : ℕ} (hk : k < p) :
    M.write a (bytes p x) (a + k) = byte x k := by
  rw [M.write_add (by rwa [length_bytes]), getElem_bytes]

theorem write_bytes_self (a : ℤ) (x : BitVec (h * 8)) {p : ℕ} (hp : 0 < p) :
    M.write a (bytes p x) a = byte x 0 := by
  have hbyte := M.write_bytes_add a x hp
  rwa [Nat.cast_zero, add_zero] at hbyte

/-- **Adjacent writes are one write.** -/
theorem write_write (a : ℤ) (bs cs : List Byte) :
    (M.write a bs).write (a + bs.length) cs = M.write a (bs ++ cs) := by
  funext x
  simp only [write, List.length_append, Nat.cast_add, List.getD_eq_getElem?_getD]
  by_cases hlow : a ≤ x ∧ x < a + bs.length
  · rw [if_neg (by omega), if_pos hlow, if_pos (by omega),
      List.getElem?_append_left (by omega)]
  · by_cases hhigh : a + bs.length ≤ x ∧ x < a + bs.length + cs.length
    · rw [if_pos hhigh, if_pos (by omega), List.getElem?_append_right (by omega),
        show (x - a).toNat - bs.length = (x - (a + bs.length)).toNat by omega]
    · rw [if_neg hhigh, if_neg hlow, if_neg (by omega)]

/-- Writing back what a range holds changes nothing. -/
theorem write_slice (a : ℤ) (n : ℕ) : M.write a (M.slice a n) = M := by
  funext x
  rw [write, length_slice]
  split
  · have hk : (x - a).toNat < n := by omega
    rw [List.getD_eq_getElem?_getD, getElem?_slice, if_pos hk, Option.getD_some,
      show a + ((x - a).toNat : ℤ) = x by omega]
  · rfl

/-- A write whose margins hold what is there already is the write of its middle alone. -/
theorem write_margins (a : ℤ) (m q : ℕ) (bs : List Byte) :
    M.write a (M.slice a m ++ bs ++ M.slice (a + m + bs.length) q) = M.write (a + m) bs := by
  have hrest : M.slice (a + m + bs.length) q
      = (M.write (a + m) bs).slice (a + m + bs.length) q :=
    slice_congr fun k _ => (M.write_of_outside (by omega)).symm
  calc M.write a (M.slice a m ++ bs ++ M.slice (a + m + bs.length) q)
      = ((M.write a (M.slice a m)).write (a + m) bs).write (a + m + bs.length)
          (M.slice (a + m + bs.length) q) := by
        have hlen : a + ((M.slice a m ++ bs).length : ℤ) = a + m + bs.length := by
          rw [List.length_append, length_slice]; omega
        rw [← write_write, hlen, ← write_write, length_slice]
    _ = M.write (a + m) bs := by
        rw [write_slice, hrest, write_slice]

/-- A byte that none of the writes is to stays as it is. -/
theorem foldl_write_of_outside {l : List (ℤ × List Byte)} {x : ℤ}
    (hx : ∀ s ∈ l, ¬(s.1 ≤ x ∧ x < s.1 + s.2.length)) :
    l.foldl (fun N s => N.write s.1 s.2) M x = M x := by
  induction l generalizing M with
  | nil => rfl
  | cons s l ih =>
    have hout := hx s (List.mem_cons_self ..)
    rw [List.foldl_cons, ih _ fun s hs => hx s (List.mem_cons_of_mem _ hs),
      M.write_of_outside (by omega)]

/-! ### Copies -/

/-- `N` is `M` after the bytes of `[src, src + n)` have been copied to dest. The ranges may
overlap: the bytes that count are those of `M`. -/
structure IsCopy (M N : Memory) (dest src : ℤ) (n : ℕ) : Prop where
  inside : ∀ k : ℕ, k < n → N (dest + k) = M (src + k)
  outside : ∀ x, x < dest ∨ dest + n ≤ x → N x = M x

theorem isCopy_write (dest src : ℤ) (n : ℕ) :
    IsCopy M (M.write dest (M.slice src n)) dest src n where
  inside k hk := by
    have hget := M.getElem?_slice src n k
    rw [if_pos hk] at hget
    obtain ⟨hlt, hget⟩ := List.getElem?_eq_some_iff.mp hget
    rw [M.write_add hlt, hget]
  outside x hx := M.write_of_outside (by rwa [length_slice])

/-! ### Fills -/

/-- `N` is `M` after every byte of `[dest, dest + n)` has been set to `c`. -/
structure IsFill (M N : Memory) (dest : ℤ) (n : ℕ) (c : ℤ) : Prop where
  inside : ∀ k : ℕ, k < n → ((N (dest + k)).toNat : ℤ) = c
  outside : ∀ x, x < dest ∨ dest + n ≤ x → N x = M x

theorem isFill_write (dest : ℤ) (n : ℕ) (x : Byte) :
    IsFill M (M.write dest (List.replicate n x)) dest n x.toNat where
  inside k hk := by
    rw [M.write_add (by rwa [List.length_replicate]), List.getElem_replicate]
  outside x hx := M.write_of_outside (by rwa [List.length_replicate])

/-! ### Running on a memory -/

/-- Loads read the memory and leave it alone, stores overwrite it. -/
def environment (h : ℕ) : Environment h Memory where
  load M a := (M.word h a, M)
  store := write

@[simp] theorem environment_load (a : ℤ) : (environment h).load M a = (M.word h a, M) := rfl

@[simp] theorem environment_store (a : ℤ) (bs : List Byte) :
    (environment h).store M a bs = M.write a bs := rfl

end Memory

/-- The memory a run ends in is its stores applied in order. -/
theorem Program.final_eq_foldl_stores {h : ℕ} {ι ε α : Type} (p : Program h ι ε α) (M : Memory) :
    p.final (Memory.environment h) M
      = (stores (p.trace (Memory.environment h) M)).foldl (fun N s => N.write s.1 s.2) M := by
  induction p generalizing M with
  | ret x => rfl
  | load v a k ih => exact ih _ M
  | store a bs k ih => exact ih _
  | note e k ih => exact ih M

/-! ### Running against an oracle -/

/-- Load number `t` of a run is answered by `ω t`, whatever was stored before it. -/
def oracleEnvironment {h : ℕ} (ω : ℕ → ℤ → BitVec (h * 8)) : Environment h ℕ where
  load t a := (ω t a, t + 1)
  store t _ _ := t

@[simp] theorem oracleEnvironment_load {h : ℕ} (ω : ℕ → ℤ → BitVec (h * 8)) (t : ℕ) (a : ℤ) :
    (oracleEnvironment ω).load t a = (ω t a, t + 1) := rfl

@[simp] theorem oracleEnvironment_store {h : ℕ} (ω : ℕ → ℤ → BitVec (h * 8)) (t : ℕ) (a : ℤ)
    (bs : List Byte) : (oracleEnvironment ω).store t a bs = t := rfl

end WordAccess
