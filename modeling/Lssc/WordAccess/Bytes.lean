import Mathlib.Data.Int.Bitwise
import Mathlib.Tactic.Ring

/-!
# Words as rows of bytes

A machine word of `h` bytes is a `BitVec (h * 8)`. Everything the word routines of this
development do to a word moves or masks whole bytes, so a word is read here as the row of its
`h` bytes, byte `0` being the least significant one: the byte at the lowest address of a
little-endian machine.

## Total semantics

`byte x k` is defined for every `k` and is zero from `k = h` on. Bounds are therefore hypotheses
of the few lemmas that need them (`byte_not`, `byte_shiftLeft`) and not part of any definition.

## Main definitions

* `byte`, `ofBytes` — reading one byte of a word, and the word with given bytes
* `bytes` — the low `p` bytes of a word, in address order
* `revBytes` — the word with its bytes in the opposite order

## Main results

* `eq_of_byte_eq` — words with the same bytes are equal
* `byte_shiftLeft`, `byte_ushiftRight` — a shift by whole bytes moves bytes
* `bytes_or_shiftLeft`, `bytes_merge` — words put together from the bytes of two others
* `revBytes_shiftLeft`, `revBytes_ushiftRight` — reversing the bytes swaps the two shifts
-/

namespace WordAccess

/-- A byte of memory. -/
abbrev Byte := BitVec 8

variable {h : ℕ}

/-! ### Reading a byte -/

/-- Byte `k` of a word, counted from the least significant end. -/
def byte (x : BitVec (h * 8)) (k : ℕ) : Byte := x.extractLsb' (k * 8) 8

theorem getLsbD_byte (x : BitVec (h * 8)) (k i : ℕ) :
    (byte x k).getLsbD i = (decide (i < 8) && x.getLsbD (k * 8 + i)) :=
  BitVec.getLsbD_extractLsb' ..

theorem byte_of_le (x : BitVec (h * 8)) {k : ℕ} (hk : h ≤ k) : byte x k = 0 := by
  apply BitVec.eq_of_getLsbD_eq
  intro i _
  rw [getLsbD_byte, BitVec.getLsbD_of_ge x _ (by omega)]
  simp

/-- Words with the same bytes are equal. -/
theorem eq_of_byte_eq {x y : BitVec (h * 8)} (hxy : ∀ k < h, byte x k = byte y k) : x = y := by
  apply BitVec.eq_of_getLsbD_eq
  intro i hi
  have key := congrArg (fun b : Byte => b.getLsbD (i % 8)) (hxy (i / 8) (by omega))
  simp only [getLsbD_byte, show i / 8 * 8 + i % 8 = i by omega,
    show i % 8 < 8 by omega, decide_true, Bool.true_and] at key
  exact key

@[simp] theorem byte_zero (k : ℕ) : byte (0 : BitVec (h * 8)) k = 0 := by
  apply BitVec.eq_of_getLsbD_eq
  intro i _
  rw [getLsbD_byte, show (0 : BitVec (h * 8)).getLsbD (k * 8 + i) = false from BitVec.getLsbD_zero,
    Bool.and_false]
  exact BitVec.getLsbD_zero.symm

theorem byte_and (x y : BitVec (h * 8)) (k : ℕ) : byte (x &&& y) k = byte x k &&& byte y k := by
  apply BitVec.eq_of_getLsbD_eq
  intro i hi
  rw [BitVec.getLsbD_and]
  simp only [getLsbD_byte, BitVec.getLsbD_and, hi, decide_true, Bool.true_and]

theorem byte_or (x y : BitVec (h * 8)) (k : ℕ) : byte (x ||| y) k = byte x k ||| byte y k := by
  apply BitVec.eq_of_getLsbD_eq
  intro i hi
  rw [BitVec.getLsbD_or]
  simp only [getLsbD_byte, BitVec.getLsbD_or, hi, decide_true, Bool.true_and]

theorem byte_not (x : BitVec (h * 8)) {k : ℕ} (hk : k < h) : byte (~~~x) k = ~~~(byte x k) := by
  apply BitVec.eq_of_getLsbD_eq
  intro i hi
  rw [BitVec.getLsbD_not]
  simp only [getLsbD_byte, BitVec.getLsbD_not, hi, show k * 8 + i < h * 8 by omega, decide_true,
    Bool.true_and]

theorem byte_allOnes {k : ℕ} (hk : k < h) :
    byte (BitVec.allOnes (h * 8)) k = BitVec.allOnes 8 := by
  apply BitVec.eq_of_getLsbD_eq
  intro i hi
  rw [getLsbD_byte, BitVec.getLsbD_allOnes, BitVec.getLsbD_allOnes]
  simp only [hi, show k * 8 + i < h * 8 by omega, decide_true, Bool.true_and]

/-- A left shift by `m` bytes moves byte `k - m` to place `k`. -/
theorem byte_shiftLeft (x : BitVec (h * 8)) (m : ℕ) {k : ℕ} (hk : k < h) :
    byte (x <<< (m * 8)) k = if k < m then 0 else byte x (k - m) := by
  apply BitVec.eq_of_getLsbD_eq
  intro i hi
  rw [getLsbD_byte, BitVec.getLsbD_shiftLeft]
  split
  · simp only [show k * 8 + i < m * 8 by omega, decide_true, Bool.not_true, Bool.and_false,
      Bool.false_and]
    exact BitVec.getLsbD_zero.symm
  · rw [getLsbD_byte, show k * 8 + i - m * 8 = (k - m) * 8 + i by omega]
    simp only [hi, show k * 8 + i < h * 8 by omega, show ¬k * 8 + i < m * 8 by omega,
      decide_true, decide_false, Bool.not_false, Bool.true_and]

/-- A right shift by `m` bytes moves byte `k + m` to place `k`. -/
theorem byte_ushiftRight (x : BitVec (h * 8)) (m k : ℕ) :
    byte (x >>> (m * 8)) k = byte x (k + m) := by
  apply BitVec.eq_of_getLsbD_eq
  intro i _
  rw [getLsbD_byte, getLsbD_byte, BitVec.getLsbD_ushiftRight,
    show m * 8 + (k * 8 + i) = (k + m) * 8 + i by omega]

/-- Shifting up and back down, for a word with room for the bytes it is shifted by. -/
theorem shiftLeft_ushiftRight_of_le {x : BitVec (h * 8)} {i m : ℕ}
    (hx : ∀ k, h - i ≤ k → byte x k = 0) (hm : m ≤ i) :
    x <<< (i * 8) >>> (m * 8) = x <<< ((i - m) * 8) := by
  refine eq_of_byte_eq fun k hk => ?_
  rw [byte_ushiftRight, byte_shiftLeft _ _ hk]
  rcases lt_or_ge (k + m) h with hkm | hkm
  · rw [byte_shiftLeft _ _ hkm, show k + m - i = k - (i - m) by omega]
    simp only [show k + m < i ↔ k < i - m by omega]
  · rw [byte_of_le _ hkm, hx _ (by omega), ite_self]

theorem shiftLeft_ushiftRight_of_ge {x : BitVec (h * 8)} {i m : ℕ}
    (hx : ∀ k, h - i ≤ k → byte x k = 0) (hm : i ≤ m) :
    x <<< (i * 8) >>> (m * 8) = x >>> ((m - i) * 8) := by
  refine eq_of_byte_eq fun k hk => ?_
  rw [byte_ushiftRight, byte_ushiftRight]
  rcases lt_or_ge (k + m) h with hkm | hkm
  · rw [byte_shiftLeft _ _ hkm, if_neg (by omega)]
    congr 1
    omega
  · rw [byte_of_le _ hkm, hx _ (by omega)]

/-! ### Building a word -/

/-- The word whose byte `k` is `f k`. -/
def ofBytes : (h : ℕ) → (ℕ → Byte) → BitVec (h * 8)
  | 0, _ => 0
  | h + 1, f => ((ofBytes h fun k => f (k + 1)) ++ f 0).cast (by omega)

theorem byte_ofBytes : ∀ {h : ℕ} (f : ℕ → Byte) {k : ℕ}, k < h → byte (ofBytes h f) k = f k := by
  intro h
  induction h with
  | zero => intro f k hk; omega
  | succ h ih =>
    intro f k hk
    apply BitVec.eq_of_getLsbD_eq
    intro i hi
    rw [getLsbD_byte, ofBytes, BitVec.getLsbD_cast, BitVec.getLsbD_append]
    cases k with
    | zero => simp [hi]
    | succ k =>
      have hrest := congrArg (fun b : Byte => b.getLsbD i)
        (ih (fun k => f (k + 1)) (show k < h by omega))
      simp only [getLsbD_byte, hi, decide_true, Bool.true_and] at hrest
      rw [if_neg (by omega), show (k + 1) * 8 + i - 8 = k * 8 + i by omega, hrest]
      simp only [hi, decide_true, Bool.true_and]

/-- A bit of a word is a bit of one of its bytes. -/
theorem getLsbD_eq_byte (x : BitVec (h * 8)) (p : ℕ) :
    x.getLsbD p = (byte x (p / 8)).getLsbD (p % 8) := by
  rw [getLsbD_byte, decide_eq_true (Nat.mod_lt p (by norm_num)), Bool.true_and,
    show p / 8 * 8 + p % 8 = p by omega]

theorem byte_eq_zero {x : BitVec (h * 8)} {k : ℕ}
    (hx : ∀ p, k * 8 ≤ p → p < (k + 1) * 8 → x.getLsbD p = false) : byte x k = 0 := by
  apply BitVec.eq_of_getLsbD_eq
  intro i hi
  rw [getLsbD_byte, hx _ (by omega) (by omega), Bool.and_false]
  simp

theorem byte_setWidth (x : BitVec (h * 8)) {p k : ℕ} (hk : k < p) :
    byte (x.setWidth (p * 8) : BitVec (p * 8)) k = byte x k := by
  apply BitVec.eq_of_getLsbD_eq
  intro i hi
  rw [getLsbD_byte, getLsbD_byte, BitVec.getLsbD_setWidth,
    decide_eq_true (show k * 8 + i < p * 8 by omega), Bool.true_and]

/-! ### The bytes in address order -/

/-- The low `p` bytes of a word, least significant first. -/
def bytes (p : ℕ) (x : BitVec (h * 8)) : List Byte := (List.range p).map (byte x)

@[simp] theorem length_bytes (p : ℕ) (x : BitVec (h * 8)) : (bytes p x).length = p := by
  simp [bytes]

@[simp] theorem bytes_zero (x : BitVec (h * 8)) : bytes 0 x = [] := rfl

theorem getElem?_bytes (p : ℕ) (x : BitVec (h * 8)) (k : ℕ) :
    (bytes p x)[k]? = if k < p then some (byte x k) else none := by
  split
  · rw [bytes, List.getElem?_map, List.getElem?_range ‹_›, Option.map_some]
  · exact List.getElem?_eq_none (by rw [length_bytes]; omega)

@[simp] theorem getElem_bytes (p : ℕ) (x : BitVec (h * 8)) {k : ℕ}
    (hk : k < (bytes p x).length) : (bytes p x)[k] = byte x k := by simp [bytes]

/-- A list is the low bytes of a word as soon as it agrees with them place by place. -/
theorem bytes_eq {p : ℕ} {x : BitVec (h * 8)} {bs : List Byte} (hlen : bs.length = p)
    (hbs : ∀ k < p, bs[k]? = some (byte x k)) : bytes p x = bs := by
  apply List.ext_getElem?
  intro k
  rw [getElem?_bytes]
  split
  · rw [hbs k ‹_›]
  · rw [List.getElem?_eq_none (by omega)]

theorem bytes_add (p q : ℕ) (x : BitVec (h * 8)) :
    bytes (p + q) x = bytes p x ++ bytes q (x >>> (p * 8)) := by
  refine bytes_eq (by simp) fun k hk => ?_
  rw [List.getElem?_append, length_bytes, getElem?_bytes, getElem?_bytes]
  split
  · rfl
  · rw [if_pos (by omega), byte_ushiftRight, show k - p + p = k by omega]

theorem take_bytes {p q : ℕ} (hpq : p ≤ q) (x : BitVec (h * 8)) :
    (bytes q x).take p = bytes p x := by
  rw [← Nat.add_sub_of_le hpq, bytes_add, List.take_left' (length_bytes p x)]

theorem drop_bytes {p q : ℕ} (hpq : p ≤ q) (x : BitVec (h * 8)) :
    (bytes q x).drop p = bytes (q - p) (x >>> (p * 8)) := by
  conv_lhs => rw [← Nat.add_sub_of_le hpq, bytes_add]
  rw [List.drop_left' (length_bytes p x)]

/-! ### Masks of whole bytes -/

/-- `x & ~(m << p)`: the low bytes of `x`. -/
theorem byte_and_not_mask (x : BitVec (h * 8)) (p k : ℕ) :
    byte (x &&& ~~~(BitVec.allOnes (h * 8) <<< (p * 8))) k = if k < p then byte x k else 0 := by
  rcases lt_or_ge k h with hk | hk
  · rw [byte_and, byte_not _ hk, byte_shiftLeft _ _ hk]
    split
    · rw [show ~~~(0 : Byte) = BitVec.allOnes 8 from rfl, BitVec.and_allOnes]
    · rw [byte_allOnes (by omega), BitVec.not_allOnes]
      exact BitVec.and_zero
  · rw [byte_of_le _ hk, byte_of_le _ hk, ite_self]

/-- `x & (m << p)`: the other bytes of `x`. -/
theorem byte_and_mask (x : BitVec (h * 8)) (p k : ℕ) :
    byte (x &&& BitVec.allOnes (h * 8) <<< (p * 8)) k = if k < p then 0 else byte x k := by
  rcases lt_or_ge k h with hk | hk
  · rw [byte_and, byte_shiftLeft _ _ hk]
    split
    · exact BitVec.and_zero
    · rw [byte_allOnes (by omega), BitVec.and_allOnes]
  · rw [byte_of_le _ hk, byte_of_le _ hk, ite_self]

/-- Bytes shifted in above the ones that are there. -/
theorem bytes_or_shiftLeft {b : BitVec (h * 8)} {p : ℕ} (hp : p ≤ h)
    (hb : ∀ k, p ≤ k → byte b k = 0) (x : BitVec (h * 8)) :
    bytes h (b ||| x <<< (p * 8)) = bytes p b ++ bytes (h - p) x := by
  refine bytes_eq (by simp; omega) fun k hk => ?_
  rw [List.getElem?_append, length_bytes, getElem?_bytes, getElem?_bytes, byte_or,
    byte_shiftLeft _ _ hk]
  split
  · simp
  · rw [if_pos (by omega), hb k (by omega)]
    simp

/-- The low bytes of one word and the others of another. -/
theorem bytes_merge {p : ℕ} (hp : p ≤ h) (x y : BitVec (h * 8)) :
    bytes h ((x &&& ~~~(BitVec.allOnes (h * 8) <<< (p * 8)))
        ||| (y &&& BitVec.allOnes (h * 8) <<< (p * 8)))
      = bytes p x ++ (bytes h y).drop p := by
  refine bytes_eq (by simp; omega) fun k hk => ?_
  rw [List.getElem?_append, length_bytes, List.getElem?_drop, getElem?_bytes, getElem?_bytes,
    byte_or, byte_and_not_mask, byte_and_mask]
  split
  · simp
  · rw [if_pos (by omega), Nat.add_sub_of_le (by omega)]
    simp

/-! ### The opposite byte order -/

/-- The word with its bytes in the opposite order. -/
def revBytes (x : BitVec (h * 8)) : BitVec (h * 8) := ofBytes h fun k => byte x (h - 1 - k)

theorem byte_revBytes (x : BitVec (h * 8)) {k : ℕ} (hk : k < h) :
    byte (revBytes x) k = byte x (h - 1 - k) := byte_ofBytes _ hk

@[simp] theorem revBytes_revBytes (x : BitVec (h * 8)) : revBytes (revBytes x) = x := by
  refine eq_of_byte_eq fun k hk => ?_
  rw [byte_revBytes _ hk, byte_revBytes _ (by omega), show h - 1 - (h - 1 - k) = k by omega]

@[simp] theorem revBytes_zero : revBytes (0 : BitVec (h * 8)) = 0 := by
  refine eq_of_byte_eq fun k hk => ?_
  rw [byte_revBytes _ hk, byte_zero, byte_zero]

@[simp] theorem revBytes_allOnes : revBytes (BitVec.allOnes (h * 8)) = BitVec.allOnes (h * 8) := by
  refine eq_of_byte_eq fun k hk => ?_
  rw [byte_revBytes _ hk, byte_allOnes hk, byte_allOnes (by omega)]

@[simp] theorem revBytes_and (x y : BitVec (h * 8)) :
    revBytes (x &&& y) = revBytes x &&& revBytes y := by
  refine eq_of_byte_eq fun k hk => ?_
  rw [byte_and, byte_revBytes _ hk, byte_revBytes _ hk, byte_revBytes _ hk, byte_and]

@[simp] theorem revBytes_or (x y : BitVec (h * 8)) :
    revBytes (x ||| y) = revBytes x ||| revBytes y := by
  refine eq_of_byte_eq fun k hk => ?_
  rw [byte_or, byte_revBytes _ hk, byte_revBytes _ hk, byte_revBytes _ hk, byte_or]

@[simp] theorem revBytes_not (x : BitVec (h * 8)) : revBytes (~~~x) = ~~~revBytes x := by
  refine eq_of_byte_eq fun k hk => ?_
  rw [byte_not _ hk, byte_revBytes _ hk, byte_revBytes _ hk, byte_not _ (by omega)]

/-- **Reversing the bytes swaps the two shifts**, provided whole bytes are moved. -/
theorem revBytes_shiftLeft (x : BitVec (h * 8)) {c : ℕ} (hc : 8 ∣ c) :
    revBytes (x <<< c) = revBytes x >>> c := by
  obtain ⟨m, rfl⟩ := hc
  rw [Nat.mul_comm 8 m]
  refine eq_of_byte_eq fun k hk => ?_
  rw [byte_revBytes _ hk, byte_shiftLeft _ _ (by omega), byte_ushiftRight]
  split
  · rw [byte_of_le _ (by omega)]
  · rw [byte_revBytes _ (by omega)]
    congr 1
    omega

theorem revBytes_ushiftRight (x : BitVec (h * 8)) {c : ℕ} (hc : 8 ∣ c) :
    revBytes (x >>> c) = revBytes x <<< c := by
  rw [← revBytes_revBytes (revBytes x <<< c), revBytes_shiftLeft _ hc, revBytes_revBytes]

/-- The bytes of a word read from the other end are the bytes of the reversed word. -/
theorem reverse_bytes (x : BitVec (h * 8)) : (bytes h x).reverse = bytes h (revBytes x) := by
  refine (bytes_eq (by simp) fun k hk => ?_).symm
  rw [List.getElem?_reverse (by simpa using hk), getElem?_bytes, length_bytes,
    if_pos (by omega), byte_revBytes _ hk]

/-- The low bytes read from the other end are the low bytes of the reversed word once it is
shifted down: the value a store of width `p` takes from the high end of a word. -/
theorem reverse_bytes_low {p : ℕ} (hp : p ≤ h) (x : BitVec (h * 8)) :
    (bytes p x).reverse = bytes p (revBytes x >>> (h * 8 - p * 8)) := by
  refine (bytes_eq (by simp) fun k hk => ?_).symm
  rw [List.getElem?_reverse (by simpa using hk), getElem?_bytes, length_bytes,
    if_pos (by omega), ← Nat.sub_mul, byte_ushiftRight, byte_revBytes _ (by omega)]
  congr 2
  omega

end WordAccess
