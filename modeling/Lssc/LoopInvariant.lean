import Lssc.Reflect
import Lssc.Streams
import Lssc.WordAccess.Delivery
import Mathlib.Data.Int.ModEq

/-!
# The invariant of the load-shift-store loop

At the head of the loop, `b` holds the source bytes that have been loaded and are due next, and
nothing above them, `w` counts their bits and `s` is the source word behind them. The prologue
establishes this in two ways. Where src leads, bytes of the first source word are left over. Where
dest leads, the first source word was not enough, `w` has wrapped, and it is bytes of the second
that are left over. Each round then loads a word, completes a word of dest with the front of it and
keeps the back.

The bytes that are due are those of the memory the copy started on. This is where it matters that
dest does not start inside src: a round stores before the bytes that are still to be read.

`lssc_lr` and `lssc_lrt` have the mirror image of the invariant, by `mirrors_loopHead`.

## Main definitions

* `Forward.LoopInv`, `Reverse.LoopInv` — the invariants
* `Forward.Restarted` — what either branch of `v < u` has in its registers
* `Forward.AtLoopHead`, `Reverse.AtLoopHead` — a copy gets to its loop head with the invariant

## Main results

* `Forward.ensures_prologue` — the invariant holds on entry
* `Forward.LoopInv.round` — a round keeps it
* `Forward.ensures_loopHead`, `Reverse.ensures_loopHead` — it holds after any number of rounds
* `loopInv_loopHead` — the four copies
-/

namespace Lssc

open WordAccess Program

variable {g : Geometry}

/-! ### The first store -/

/-- On a memory, `E.first` stores the part of a word that belongs to dest. -/
def Edges.StoresFirst (E : Edges g) : Prop :=
  ∀ (M : Memory) (dest : ℤ) {b : MWord g} {bs : List Byte},
    bytes g.mwordSize b = M.slice (align g dest) (offset g dest) ++ bs →
      (E.first dest (align g dest) (offset g dest * 8) (offset g dest) b).Ensures
        (Memory.environment g.mwordSize) M fun _ N l =>
          N = M.write dest bs ∧ CoversUpTo dest (dest + bs.length) (extents l)

theorem Edges.Emits.storesFirst {E : Edges g} {emit : MWord g → ℤ → List Byte → Code g Unit}
    (hE : E.Emits emit)
    (hemit : ∀ (M : Memory) (dest : ℤ) (bs : List Byte),
      offset g dest + bs.length = g.mwordSize →
        (emit (M.word g.mwordSize (align g dest)) dest bs).Ensures
          (Memory.environment g.mwordSize) M fun _ N l =>
            N = M.write dest bs ∧ CoversUpTo dest (dest + bs.length) (extents l)) :
    E.StoresFirst := by
  intro M dest b bs hb
  have hlen := congrArg List.length hb
  rw [length_bytes, List.length_append, Memory.length_slice] at hlen
  rw [← M.bytes_word_of_le (align g dest) (offset_lt g dest).le] at hb
  rw [← ensures_bare, hE.first _ dest hb]
  exact hemit M dest bs hlen.symm

theorem lsscLft.edges_storesFirst : (lsscLft.edges g).StoresFirst := by
  refine lsscLft.edges_emits.storesFirst fun M dest bs hend => ⟨final_emitUnits .., ?_⟩
  rw [stores_emitUnits, Cutter.extents_chop]
  exact Cutter.coversUpTo_cuts ..

theorem lsscLf.edges_storesFirst : (lsscLf.edges g).StoresFirst := by
  refine lsscLf.edges_emits.storesFirst fun M dest bs hend => ⟨final_emitWord ?_, ?_⟩
  · have hlt := offset_lt g dest
    rw [← natCast_offset, Int.toNat_natCast, ← align_eq]
    exact M.bytes_word_of_le _ hlt.le
  · have hmod := natCast_offset g dest
    rw [extents_stores_emitWord _ _ (by omega)]
    exact coversUpTo_singleton (by omega) (by omega)

/-! ### Forward -/

namespace Forward

/-- The invariant of the loop of a copy of `[src, src + n)` to dest that started on `M`: after `k`
rounds the registers are `r`, `m` bytes remain, the memory is `N` and `l` has been stored. -/
structure LoopInv (M : Memory) (dest src : ℤ) (n k : ℕ) (r : Regs g) (m : ℕ) (N : Memory)
    (l : List (ℤ × List Byte)) : Prop where
  rounds : g.mwordSize - offset g dest + k * g.mwordSize + m = n
  w_pos : 0 < r.w
  w_lt : r.w < g.mwordSize * 8
  w_modEq : (r.w : ℤ) ≡ 8 * (offset g dest - offset g src) [ZMOD 8 * g.mwordSize]
  d_aligned : (g.mwordSize : ℤ) ∣ r.d
  /-- All of dest before `d` has been stored, and nothing from `d` on. -/
  stored : CoversUpTo dest r.d (extents l)
  remaining : r.d + m = dest + n
  copied : N = M.write dest (M.slice src (n - m))
  b_clear : ∀ p, r.w ≤ p → r.b.getLsbD p = false
  /-- The byte that is due at an address of dest is as far into src as that is into dest. -/
  b_due : ∀ i < min (r.w / 8) m, byte r.b i = M (src + (r.d - dest) + i)
  /-- `s` is behind the bytes in `b`, also where these are the last of src. -/
  s_eq : r.s = src + (r.d - dest) + (r.w / 8 : ℕ)
  s_aligned : (g.mwordSize : ℤ) ∣ r.s

variable {M : Memory} {dest src : ℤ} {n : ℕ}

/-! ### Into the loop -/

/-- What `restart` returns, where the queue `q` holds all source bytes that have been loaded. -/
structure Restarted (M : Memory) (src : ℤ) (c : MWord g) (i j n : ℕ) (q : List Byte)
    (x : ℤ × ℕ × MWord g × MWord g) : Prop where
  firstWord : FirstWord c j n x.2.1 x.2.2.1 x.2.2.2 q
  queued : Queued M src n q
  lt_length : g.mwordSize - j < q.length
  length_lt : q.length < g.mwordSize - j + g.mwordSize
  w_modEq : (x.2.1 : ℤ) ≡ 8 * (j - i) [ZMOD 8 * g.mwordSize]
  s_eq : x.1 = src + q.length
  s_aligned : (g.mwordSize : ℤ) ∣ x.1

theorem ensures_restart {i j : ℕ} {c y : MWord g} {q : List Byte} {s : ℤ} (hi : i < g.mwordSize)
    (hj : j < g.mwordSize) (hij : i ≠ j) (hc : Carry ((g.mwordSize - i) * 8) n y q)
    (hn : g.mwordSize - j ≤ n) (hq : Queued M src n q) (hs : s = src + q.length)
    (haligned : (g.mwordSize : ℤ) ∣ s) :
    (restart s (g.mwordSize * 8) (i * 8) (j * 8) (y <<< (i * 8))
        (c &&& ~~~(ones g <<< (j * 8)))).Ensures (Memory.environment g.mwordSize) M fun x N l =>
      N = M ∧ l = [] ∧ ∃ q, Restarted M src c i j n q x := by
  have hlen : q.length = g.mwordSize - i := by have := hc.width; omega
  rw [← ensures_bare]
  rcases lt_or_gt_of_ne hij with hlt | hgt
  · rw [bare_restart_of_lt hlt hj, ensures_pure]
    refine ⟨rfl, rfl, q, ?_⟩
    have hw : (((j - i) * 8 : ℕ) : ℤ) = 8 * (j - i) := by omega
    exact ⟨.of_lt hc hn hlt hj, hq, by omega, by omega, by rw [hw], hs, haligned⟩
  · rw [bare_restart_of_gt hgt hi, ensures_load, ensures_pure, Memory.environment_load]
    refine ⟨rfl, rfl, q ++ bytes g.mwordSize (M.word g.mwordSize s), ?_⟩
    have hqueued := hq.append (y := M.word g.mwordSize s) fun k hk _ => by
      rw [M.byte_word _ hk, hs]
    have hw : 8 * ((j : ℤ) - i) - ((g.mwordSize - (i - j)) * 8 : ℕ) = 8 * g.mwordSize * (-1) := by
      omega
    refine ⟨.of_gt hc hn hgt hi _, hqueued, ?_, ?_, Int.modEq_iff_dvd.mpr ⟨-1, hw⟩, ?_, ?_⟩
    · rw [List.length_append, length_bytes]
      omega
    · rw [List.length_append, length_bytes]
      omega
    · rw [List.length_append, length_bytes]
      push_cast
      omega
    · exact Int.dvd_add haligned (Int.dvd_refl _)

/-- The registers with which the loop is entered, once the first word of dest has been stored. -/
theorem Restarted.loopInv {c : MWord g} {q : List Byte} {s : ℤ} {w : ℕ} {a b : MWord g}
    {l : List (ℤ × List Byte)}
    (hr : Restarted M src c (offset g src) (offset g dest) n q (s, w, a, b))
    (hn : g.mwordSize - offset g dest ≤ n)
    (hl : CoversUpTo dest (dest + (g.mwordSize - offset g dest : ℕ)) (extents l)) :
    LoopInv M dest src n 0 ⟨s, align g dest + g.mwordSize, w, a >>> (g.mwordSize * 8 - w)⟩
      (n - (g.mwordSize - offset g dest))
      (M.write dest (M.slice src (g.mwordSize - offset g dest))) l := by
  have hj := offset_lt g dest
  have hdest := align_eq g dest
  have hd : align g dest + g.mwordSize = dest + (g.mwordSize - offset g dest : ℕ) := by omega
  have hcarry := hr.firstWord.carry
  have hwidth := hcarry.width
  have hlt := hr.lt_length
  have hfits := hr.length_lt
  have hs := hr.s_eq
  dsimp only at hcarry hwidth hs
  rw [List.length_drop] at hwidth
  constructor
  case rounds =>
    rw [Nat.zero_mul]
    omega
  case w_pos =>
    dsimp only
    omega
  case w_lt =>
    dsimp only
    omega
  case w_modEq => exact hr.w_modEq
  case d_aligned => exact dvd_align_add g dest
  case stored => exact hd ▸ hl
  case remaining =>
    dsimp only
    omega
  case copied => rw [Nat.sub_sub_self hn]
  case b_clear =>
    intro p hp
    dsimp only at hp ⊢
    rw [getLsbD_eq_byte, hcarry.high _ (by rw [List.length_drop]; omega)]
    simp
  case b_due =>
    intro k hk
    dsimp only at hk ⊢
    have hlen : k < (q.drop (g.mwordSize - offset g dest)).length := by
      rw [List.length_drop]
      omega
    have hbyte := hcarry.low k hlen (by omega)
    rw [hr.queued.drop _ k (by omega) hlen] at hbyte
    rw [← Option.some_inj.mp hbyte, hd]
    congr 2
    omega
  case s_eq =>
    dsimp only
    omega
  case s_aligned => exact hr.s_aligned

/-- **Into the loop**, on either branch of `v < u`. -/
theorem ensures_prologue {E : Edges g} (hE : E.StoresFirst)
    (hphase : offset g src ≠ offset g dest) (hn : g.mwordSize - offset g dest ≤ n) :
    (prologue E dest src n).Ensures (Memory.environment g.mwordSize) M fun x N l =>
      LoopInv M dest src n 0 x.1 x.2 N l := by
  have hi := offset_lt g src
  have hj := offset_lt g dest
  have hsrc := align_eq g src
  have hc := Carry.start (n := n) hi.le (M.word g.mwordSize (align g src))
  rw [Memory.bytes_word, Memory.drop_slice _ _ hi.le,
    show align g src + (offset g src : ℤ) = src by omega] at hc
  have hq : Queued M src n (M.slice src (g.mwordSize - offset g src)) := fun k hk hlen => by
    rw [Memory.length_slice] at hlen
    rw [Memory.getElem?_slice, if_pos hlen]
  obtain ⟨y, hy, hc⟩ := bare_discard hc
  rw [← ensures_bare]
  simp only [prologue, Program.bare_bind, bare_mul, pure_bind, load_bind, Program.bare_load,
    bare_shl, bare_shr, bare_sub, ensures_load, Memory.environment_load, hy]
  refine Ensures.bind ((ensures_bare _).mpr (ensures_restart hi hj hphase hc hn hq ?_ ?_)) ?_
  · rw [Memory.length_slice]
    omega
  · exact dvd_align_add g src
  rintro ⟨s, w, a, b⟩ M _ ⟨rfl, rfl, q, hr⟩
  have hfirst := hr.firstWord.word
  dsimp only at hfirst ⊢
  rw [hr.queued.take_eq hn hr.lt_length.le, M.bytes_word_of_le _ hj.le] at hfirst
  refine Ensures.bind ((ensures_bare _).mpr (hE M dest hfirst)) ?_
  rintro - N l ⟨rfl, hl⟩
  rw [Memory.length_slice] at hl
  rw [Program.bare_pure, ensures_pure, List.nil_append, List.append_nil]
  exact hr.loopInv hn hl

/-! ### Round by round -/

/-- What a round does on a memory. -/
theorem ensures_loadShiftStore (t : ℕ) (r : Regs g) (N : Memory)
    (Q : Regs g → Memory → List (ℤ × List Byte) → Prop) :
    (loadShiftStore t r).Ensures (Memory.environment g.mwordSize) N Q ↔
      let x := N.word g.mwordSize r.s
      let bs := bytes g.mwordSize (r.b ||| x <<< r.w)
      Q ⟨r.s + g.mwordSize, r.d + g.mwordSize, r.w, x >>> (t - r.w)⟩ (N.write r.d bs)
        [(r.d, bs)] := Iff.rfl

section Round

variable {k m : ℕ} {r : Regs g} {N : Memory} {l : List (ℤ × List Byte)}
  (hov : dest ≤ src ∨ src + n ≤ dest) (hx : LoopInv M dest src n k r m N l)

include hx

/-- Whole bytes are carried. -/
theorem LoopInv.w_eq : r.w / 8 * 8 = r.w := by
  obtain ⟨c, hc⟩ := hx.w_modEq.dvd
  rw [mul_assoc] at hc
  omega

include hov in
/-- What is still to be read is as it was. -/
theorem LoopInv.unread {x : ℤ} (hlow : src + (r.d - dest) ≤ x) (hhigh : x < src + n) :
    N x = M x := by
  have hd := hx.remaining
  rw [hx.copied, M.write_of_outside (by rw [Memory.length_slice]; omega)]

include hov in
/-- The word of dest that a round stores. -/
theorem LoopInv.bytes_word (hm : g.mwordSize ≤ m) :
    bytes g.mwordSize (r.b ||| N.word g.mwordSize r.s <<< r.w)
      = M.slice (src + (r.d - dest)) g.mwordSize := by
  have hw := hx.w_eq
  have hlt := hx.w_lt
  have hs := hx.s_eq
  have hd := hx.remaining
  have hhigh : ∀ k, r.w / 8 ≤ k → byte r.b k = 0 :=
    fun k hk => byte_eq_zero fun p hp _ => hx.b_clear p (by omega)
  have hlow : bytes (r.w / 8) r.b = M.slice (src + (r.d - dest)) (r.w / 8) :=
    bytes_eq (M.length_slice ..) fun k hk => by
      rw [Memory.getElem?_slice, if_pos hk, hx.b_due k (by omega)]
  have hload : N.slice r.s (g.mwordSize - r.w / 8)
      = M.slice (src + (r.d - dest) + (r.w / 8 : ℕ)) (g.mwordSize - r.w / 8) := by
    rw [hs]
    exact Memory.slice_congr fun k hk => hx.unread hov (by omega) (by omega)
  have hword := bytes_or_shiftLeft (show r.w / 8 ≤ g.mwordSize by omega) hhigh
    (N.word g.mwordSize r.s)
  rw [hw, hlow, N.bytes_word_of_le _ (by omega), hload, ← Memory.slice_add,
    Nat.add_sub_of_le (by omega)] at hword
  exact hword

include hov in
/-- **One round** takes the invariant of `k` rounds to that of `k + 1`. -/
theorem LoopInv.round (hm : g.mwordSize ≤ m) :
    (loadShiftStore (g.mwordSize * 8) r).Ensures (Memory.environment g.mwordSize) N
      fun r' N' l' => LoopInv M dest src n (k + 1) r' (m - g.mwordSize) N' (l ++ l') := by
  have hw := hx.w_eq
  have hlt := hx.w_lt
  have hs := hx.s_eq
  have hd := hx.remaining
  have hrounds := hx.rounds
  rw [ensures_loadShiftStore]
  dsimp only
  rw [hx.bytes_word hov hm]
  constructor
  case rounds =>
    rw [Nat.succ_mul]
    omega
  case w_pos => exact hx.w_pos
  case w_lt => exact hlt
  case w_modEq => exact hx.w_modEq
  case d_aligned => exact Int.dvd_add hx.d_aligned (Int.dvd_refl _)
  case stored =>
    rw [extents_append, extents_cons, Memory.length_slice]
    exact hx.stored.append (coversUpTo_singleton le_rfl rfl) (by dsimp only; omega)
  case remaining =>
    dsimp only
    omega
  case copied =>
    have hend : r.d = dest + (M.slice src (n - m)).length := by
      rw [Memory.length_slice]
      omega
    have hdue : src + (r.d - dest) = src + (n - m : ℕ) := by omega
    rw [hx.copied, show n - (m - g.mwordSize) = n - m + g.mwordSize by omega, Memory.slice_add,
      hdue, hend, Memory.write_write]
  case b_clear =>
    intro p hp
    dsimp only at hp ⊢
    rw [BitVec.getLsbD_ushiftRight, BitVec.getLsbD_of_ge _ _ (by omega)]
  case b_due =>
    -- what is kept is the back of the word that was loaded
    intro i hi
    dsimp only at hi ⊢
    rw [← hw, ← Nat.sub_mul, byte_ushiftRight, N.byte_word _ (by omega),
      hx.unread hov (by omega) (by omega)]
    congr 1
    omega
  case s_eq =>
    dsimp only
    omega
  case s_aligned => exact Int.dvd_add hx.s_aligned (Int.dvd_refl _)

end Round

theorem loopHead_zero (E : Edges g) : loopHead E dest src n 0 = prologue E dest src n :=
  bind_pure _

theorem loopHead_succ (E : Edges g) (k : ℕ) :
    loopHead E dest src n (k + 1)
      = loopHead E dest src n k >>= oneRound (loadShiftStore (g.mwordSize * 8)) := by
  rw [loopHead, loopHead, bind_assoc]
  rfl

/-- **The invariant holds at every loop head.** -/
theorem ensures_loopHead {E : Edges g} (hE : E.StoresFirst) (hov : dest ≤ src ∨ src + n ≤ dest)
    (hphase : offset g src ≠ offset g dest) {k : ℕ}
    (hk : g.mwordSize - offset g dest + k * g.mwordSize ≤ n) (M : Memory) :
    (loopHead E dest src n k).Ensures (Memory.environment g.mwordSize) M fun x N l =>
      LoopInv M dest src n k x.1 x.2 N l := by
  induction k with
  | zero =>
    rw [loopHead_zero]
    exact ensures_prologue hE hphase (by omega)
  | succ k ih =>
    rw [Nat.succ_mul] at hk
    rw [loopHead_succ]
    refine (ih (by omega)).bind fun x N l hx => ?_
    have hrounds := hx.rounds
    refine (hx.round hov (by omega)).bind fun r N l' hr => ?_
    rw [sub_bind, ensures_note, ensures_pure, List.append_nil]
    exact hr

end Forward

/-! ### Reverse -/

namespace Reverse

/-- The mirror image of `Forward.LoopInv`: `b` is filled from its high end, and `s` and `d` move
down. -/
structure LoopInv (M : Memory) (dest src : ℤ) (n k : ℕ) (r : Regs g) (m : ℕ) (N : Memory)
    (l : List (ℤ × List Byte)) : Prop where
  rounds : g.mwordSize - endOffset g (dest + n) + k * g.mwordSize + m = n
  w_pos : 0 < r.w
  w_lt : r.w < g.mwordSize * 8
  w_modEq : (r.w : ℤ) ≡ 8 * (endOffset g (dest + n) - endOffset g (src + n))
    [ZMOD 8 * g.mwordSize]
  d_aligned : (g.mwordSize : ℤ) ∣ r.d
  /-- All of dest behind the word at `d` has been stored, and nothing in that word or below. -/
  stored : CoversDownTo (r.d + g.mwordSize) (dest + n) (extents l)
  remaining : r.d + g.mwordSize = dest + m
  copied : N = M.write (dest + m) (M.slice (src + m) (n - m))
  b_clear : ∀ p < g.mwordSize * 8 - r.w, r.b.getLsbD p = false
  b_due : ∀ i < min (r.w / 8) m,
    byte r.b (g.mwordSize - 1 - i) = M (src + (r.d - dest) + (g.mwordSize - 1 - i : ℕ))
  s_eq : r.s = src + (r.d - dest) - (r.w / 8 : ℕ)
  s_aligned : (g.mwordSize : ℤ) ∣ r.s

variable {M : Memory} {dest src : ℤ} {n : ℕ}

theorem LoopInv.of_mirror {K dest' src' : ℤ} {k m : ℕ} {r r' : Regs g} {N : Memory}
    {l : List (ℤ × List Byte)} (hK : (g.mwordSize : ℤ) ∣ K) (hdest : dest' + dest + n = K)
    (hsrc : src' + src + n = K) (hr : r'.Mirrors K r)
    (hx : Forward.LoopInv (M.reflect K) dest' src' n k r' m N l) :
    LoopInv M dest src n k r m (N.reflect K) (l.map (reflectRange K)) := by
  have hj := endOffset_eq hK (show dest' + (dest + n) = K by omega)
  have hi := endOffset_eq hK (show src' + (src + n) = K by omega)
  have hd := hr.d
  have hs := hr.s
  have hw := hx.w_eq
  have hlt := hx.w_lt
  have hrounds := hx.rounds
  have hremaining := hx.remaining
  have hs_eq := hx.s_eq
  constructor
  case rounds =>
    rw [hj]
    exact hrounds
  case w_pos =>
    rw [hr.w]
    exact hx.w_pos
  case w_lt =>
    rw [hr.w]
    exact hlt
  case w_modEq =>
    rw [hi, hj, hr.w]
    exact hx.w_modEq
  case d_aligned =>
    rw [show r.d = K - r'.d - g.mwordSize by omega]
    exact Int.dvd_sub (Int.dvd_sub hK hx.d_aligned) (Int.dvd_refl _)
  case stored =>
    rw [extents_map_reflectRange]
    refine CoversUpTo.reflect ?_
    rw [show K - (dest + n) = dest' by omega, show K - (r.d + g.mwordSize) = r'.d by omega]
    exact hx.stored
  case remaining => omega
  case copied =>
    have hslice := M.slice_reflect K (src + m) (n - m)
    have hwrite := M.reflect_write K dest' ((M.slice (src + m) (n - m)).reverse)
    rw [show K - (src + m) - ((n - m : ℕ) : ℤ) = src' by omega] at hslice
    rw [List.reverse_reverse, List.length_reverse, Memory.length_slice,
      show K - dest' - ((n - m : ℕ) : ℤ) = dest + m by omega] at hwrite
    rw [hx.copied, hslice, ← hwrite, Memory.reflect_reflect]
  case b_clear =>
    intro p hp
    rw [hr.w] at hp
    rw [hr.b, getLsbD_eq_byte, byte_revBytes _ (by omega),
      byte_eq_zero fun p hp _ => hx.b_clear p (by omega)]
    simp
  case b_due =>
    intro i hi
    rw [hr.w] at hi
    rw [hr.b, byte_revBytes _ (by omega),
      show g.mwordSize - 1 - (g.mwordSize - 1 - i) = i by omega, hx.b_due i hi, Memory.reflect]
    congr 1
    omega
  case s_eq =>
    rw [hr.w]
    omega
  case s_aligned =>
    rw [show r.s = K - r'.s - g.mwordSize by omega]
    exact Int.dvd_sub (Int.dvd_sub hK hx.s_aligned) (Int.dvd_refl _)

/-- **The invariant holds at every loop head** of the other direction. -/
theorem ensures_loopHead {E E' : Edges g} (hE : E.StoresFirst) (hmirror : E.Mirrors 0 E')
    (hov : src ≤ dest ∨ dest + n ≤ src)
    (hphase : endOffset g (src + n) ≠ endOffset g (dest + n)) {k : ℕ}
    (hk : g.mwordSize - endOffset g (dest + n) + k * g.mwordSize ≤ n) (M : Memory) :
    (loopHead E' dest src n k).Ensures (Memory.environment g.mwordSize) M fun x N l =>
      LoopInv M dest src n k x.1 x.2 N l := by
  have hK := Int.dvd_zero (g.mwordSize : ℤ)
  have hdest : 0 - dest - n + dest + n = 0 := by ring
  have hsrc : 0 - src - n + src + n = 0 := by ring
  have hj := endOffset_eq hK (show 0 - dest - n + (dest + n) = 0 by ring)
  have hi := endOffset_eq hK (show 0 - src - n + (src + n) = 0 by ring)
  rw [hi, hj] at hphase
  rw [hj] at hk
  have hforward := Forward.ensures_loopHead hE (by omega) hphase hk (M.reflect 0)
  obtain ⟨⟨hregs, hm⟩, hfinal, htrace⟩ :=
    (mirrors_loopHead hmirror hK hdest hsrc k).run_memory M
  rw [Ensures, hm, hfinal, htrace, stores_map_reflect]
  exact .of_mirror hK hdest hsrc hregs hforward

end Reverse

/-! ### The routines -/

/-- The copy `p` is its loop head after `k` rounds and what comes after that, and in a run on `M`
the invariant holds there. -/
structure Forward.AtLoopHead (p : Code g Unit) (E : Edges g) (M : Memory) (dest src : ℤ)
    (n k : ℕ) : Prop where
  split : p = loopHead E dest src n k >>= fromLoop E
  inv : (loopHead E dest src n k).Ensures (Memory.environment g.mwordSize) M fun x N l =>
    LoopInv M dest src n k x.1 x.2 N l

/-- The same for a reverse copy. -/
structure Reverse.AtLoopHead (p : Code g Unit) (E : Edges g) (M : Memory) (dest src : ℤ)
    (n k : ℕ) : Prop where
  split : p = loopHead E dest src n k >>= fromLoop E
  inv : (loopHead E dest src n k).Ensures (Memory.environment g.mwordSize) M fun x N l =>
    LoopInv M dest src n k x.1 x.2 N l

/-- **The loop of every copy has its invariant**, on entry and after each round. -/
theorem loopInv_loopHead (g : Geometry) (M : Memory) {dest src : ℤ} {n : ℕ}
    (hdisj : src + n ≤ dest ∨ dest + n ≤ src) :
    (offset g src ≠ offset g dest →
      ∀ k, g.mwordSize - offset g dest + k * g.mwordSize ≤ n →
        Forward.AtLoopHead (lsscLf g dest src n) (lsscLf.edges g) M dest src n k ∧
          Forward.AtLoopHead (lsscLft g dest src n) (lsscLft.edges g) M dest src n k) ∧
    (Reverse.endOffset g (src + n) ≠ Reverse.endOffset g (dest + n) →
      ∀ k, g.mwordSize - Reverse.endOffset g (dest + n) + k * g.mwordSize ≤ n →
        Reverse.AtLoopHead (lsscLr g dest src n) (lsscLr.edges g) M dest src n k ∧
          Reverse.AtLoopHead (lsscLrt g dest src n) (lsscLrt.edges g) M dest src n k) := by
  constructor
  · intro hphase k hk
    have hov : dest ≤ src ∨ src + n ≤ dest := by omega
    exact ⟨⟨Forward.copy_eq_loopHead hphase hk,
        Forward.ensures_loopHead lsscLf.edges_storesFirst hov hphase hk M⟩,
      Forward.copy_eq_loopHead hphase hk,
      Forward.ensures_loopHead lsscLft.edges_storesFirst hov hphase hk M⟩
  · intro hphase k hk
    have hov : src ≤ dest ∨ dest + n ≤ src := by omega
    have hK := Int.dvd_zero (g.mwordSize : ℤ)
    exact ⟨⟨Reverse.copy_eq_loopHead hphase hk,
        Reverse.ensures_loopHead lsscLf.edges_storesFirst lsscLf.edges_mirrors hov hphase hk M⟩,
      Reverse.copy_eq_loopHead hphase hk,
      Reverse.ensures_loopHead lsscLft.edges_storesFirst (lsscLft.edges_mirrors hK) hov hphase hk
        M⟩

/-- From `[46, 71)` to `[3, 28)`, after two rounds. Forward, `v < u` is taken. In reverse it is
not. -/
theorem loopInv_loopHead_apart :
    Forward.AtLoopHead (lsscLft .x86_64 3 46 25) (lsscLft.edges .x86_64)
        (fun x => BitVec.ofInt 8 x) 3 46 25 2 ∧
      Reverse.AtLoopHead (lsscLrt .x86_64 3 46 25) (lsscLrt.edges .x86_64)
        (fun x => BitVec.ofInt 8 x) 3 46 25 2 := by
  have hthm := loopInv_loopHead .x86_64 (fun x => BitVec.ofInt 8 x)
    (.inr (show (3 : ℤ) + (25 : ℕ) ≤ 46 by decide))
  exact ⟨(hthm.1 (by decide) 2 (by decide)).2,
    (hthm.2 (by decide +kernel) 2 (by decide +kernel)).2⟩

end Lssc
