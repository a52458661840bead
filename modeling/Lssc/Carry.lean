import Lssc.Common
import Lssc.WordAccess.Stream

/-!
# The forward copies move bytes word by word

`Forward.copy` makes the accesses of a `copyStream`, whatever `Edges` it is given, as long as these
store what an emitter stores.

The copy holds the bytes it has loaded and not yet written in `b`, where the queue of a stream is a
list. `Carry` relates the two: the queue is as long as `w` says, `b` holds its bytes as far as they
are still wanted, and nothing above them. The prologue establishes it on either branch of
`v < u`, the load-shift-store loop keeps it, and the tail uses it once more.

## Main definitions

* `Carry` — what `b` and `w` say about the queue
* `Edges.Emits` — what is asked of the four places where routines differ
* `Forward.FirstWord` — what the registers hold when the first word of dest is put together

## Main results

* `Forward.bare_copy` — the copy is a stream
-/

namespace Lssc

open WordAccess

variable {g : Geometry}

/-- The word `b` carries the queue `q`, of which `n` bytes at most are still to be written. -/
structure Carry (w n : ℕ) (b : MWord g) (q : List Byte) : Prop where
  /-- Source words are shifted past the queue. -/
  width : w = q.length * 8
  low : ∀ k, k < q.length → k < n → q[k]? = some (byte b k)
  /-- Nothing stands where the next source word goes. -/
  high : ∀ k, q.length ≤ k → byte b k = 0

namespace Carry

variable {w n m p : ℕ} {b : MWord g} {q : List Byte}

theorem nil : Carry 0 n (0 : MWord g) [] where
  width := rfl
  low k hk := by simp at hk
  high k _ := byte_zero k

theorem bytes_eq_take (hc : Carry w n b q) (hm : m ≤ q.length) (hn : m ≤ n) :
    bytes m b = q.take m :=
  bytes_eq (by simpa using hm) fun k hk => by
    rw [List.getElem?_take_of_lt hk, hc.low k (by omega) (by omega)]

/-- The next source word goes behind the queue. -/
theorem bytes_or (hc : Carry w n b q) (hn : q.length ≤ n) (hm : m ≤ g.mwordSize)
    (x : MWord g) :
    bytes m (b ||| x <<< w) = (q ++ bytes g.mwordSize x).take m := by
  refine bytes_eq (by simp; omega) fun k hk => ?_
  rw [List.getElem?_take_of_lt hk, List.getElem?_append, byte_or, hc.width,
    byte_shiftLeft _ _ (by omega)]
  split
  · rw [hc.low k ‹_› (by omega)]
    simp
  · rw [getElem?_bytes, if_pos (by omega), hc.high k (by omega)]
    simp

/-- Once `m` bytes are written, the high end of the last source word is carried on. -/
theorem load (hm : m + p = q.length + g.mwordSize) (hp : p ≤ g.mwordSize) (x : MWord g) :
    Carry (p * 8) n (x >>> ((g.mwordSize - p) * 8)) ((q ++ bytes g.mwordSize x).drop m) where
  width := by simp; omega
  low k hk _ := by
    rw [List.length_drop, List.length_append, length_bytes] at hk
    rw [List.getElem?_drop, List.getElem?_append_right (by omega), getElem?_bytes,
      if_pos (by omega), byte_ushiftRight]
    congr 2
    omega
  high k hk := by
    rw [List.length_drop, List.length_append, length_bytes] at hk
    rw [byte_ushiftRight, byte_of_le _ (by omega)]

/-- The first source word, from its byte number `i` on. -/
theorem start {i : ℕ} (hi : i ≤ g.mwordSize) (x : MWord g) :
    Carry ((g.mwordSize - i) * 8) n (x >>> (i * 8)) ((bytes g.mwordSize x).drop i) := by
  have hload := Carry.load (n := n) (q := []) (m := i) (p := g.mwordSize - i) (by simp; omega)
    (by omega) x
  rwa [List.nil_append, Nat.sub_sub_self hi] at hload

/-- Bytes that are written leave the carry. -/
theorem drop (hc : Carry w n b q) (hp : p ≤ q.length) :
    Carry (w - p * 8) (n - p) (b >>> (p * 8)) (q.drop p) where
  width := by rw [List.length_drop, hc.width, Nat.sub_mul]
  low k hk hn := by
    rw [List.length_drop] at hk
    rw [List.getElem?_drop, byte_ushiftRight, hc.low _ (by omega) (by omega), Nat.add_comm]
  high k hk := by
    rw [List.length_drop] at hk
    rw [byte_ushiftRight, hc.high _ (by omega)]

/-- Bytes that are not wanted may be cleared. -/
theorem mask (hc : Carry w n b q) : Carry w n (b &&& ~~~(ones g <<< (n * 8))) q where
  width := hc.width
  low k hk hn := by rw [hc.low k hk hn, ones_eq, byte_and_not_mask, if_pos hn]
  high k hk := by rw [ones_eq, byte_and_not_mask, hc.high k hk, ite_self]

end Carry

/-! ### What is asked of the edges -/

/-- `E` stores at the four places what `emit` emits. What `emit` is told of the margin before the
first byte of dest is the word `c` the routine has loaded there. -/
structure Edges.Emits (E : Edges g) (emit : MWord g → ℤ → List Byte → Code g Unit) : Prop where
  word : ∀ (c : MWord g) {d : ℤ} (x : MWord g), (g.mwordSize : ℤ) ∣ d →
    emit c d (bytes g.mwordSize x) = storeWord d x
  only : ∀ (c : MWord g) (dest : ℤ) {n : ℕ} (a : MWord g), 0 < n →
    offset g dest + n < g.mwordSize →
      (E.only dest (align g dest) (offset g dest * 8) n a
        (c &&& ~~~(ones g <<< (offset g dest * 8)))).bare = emit c dest (bytes n a)
  first : ∀ (c : MWord g) (dest : ℤ) {b : MWord g} {bs : List Byte},
    bytes g.mwordSize b = bytes (offset g dest) c ++ bs →
      (E.first dest (align g dest) (offset g dest * 8) (offset g dest) b).bare = emit c dest bs
  firstInPhase : ∀ (c : MWord g) (dest : ℤ) {b : MWord g} {bs : List Byte},
    offset g dest ≠ 0 → bytes g.mwordSize b = bytes (offset g dest) c ++ bs →
      (E.firstInPhase dest (align g dest) (offset g dest * 8) (offset g dest) b).bare
        = emit c dest bs
  last : ∀ (c : MWord g) {d : ℤ} {n : ℕ} (b : MWord g), (g.mwordSize : ℤ) ∣ d → 0 < n →
    n < g.mwordSize → (E.last d n (n * 8) b).bare = emit c d (bytes n b)

namespace Forward

variable {E : Edges g} {emit : MWord g → ℤ → List Byte → Code g Unit} {w n : ℕ} {b : MWord g}
  {q : List Byte} {s d dest src : ℤ}

/-! ### The loops and the tail -/

/-- `lastSlice` loads exactly when the supply does, and its low bytes are what the supply gives. -/
theorem bare_lastSlice (hc : Carry w n b q) (hn : n ≤ g.mwordSize) {α : Type}
    {f : MWord g → Code g α} {f' : List Byte → Code g α} (hf : ∀ b, f b = f' (bytes n b)) :
    (lastSlice ⟨s, d, w, b⟩ (n * 8)).bare >>= f
      = (queueSupply .s).take (s, q) n >>= fun r => f' r.1 := by
  have hw := hc.width
  by_cases hq : q.length < n
  · rw [lastSlice, if_pos (show w < n * 8 by omega), queueSupply_take_of_lt _ hq]
    refine congrArg (Program.load Ptr.s s) (funext fun x => ?_)
    change f (b ||| x <<< w) = f' ((q ++ bytes g.mwordSize x).take n)
    rw [← hc.bytes_or hq.le hn, hf]
  · rw [lastSlice, if_neg (show ¬w < n * 8 by omega), queueSupply_take_of_le _ (by omega),
      ← hc.bytes_eq_take (by omega) le_rfl, Program.bare_pure, pure_bind, pure_bind, hf]

theorem bare_finish_of_lt (hE : E.Emits emit) (c : MWord g) (hc : Carry w n b q)
    (hd : (g.mwordSize : ℤ) ∣ d) (hn : n < g.mwordSize) :
    (finish E ⟨s, d, w, b⟩ n).bare
      = deliver (queueSupply .s) (emit c) ((wordCutter g.mwordSize).cuts d n) (s, q) := by
  rw [finish, whileWords_of_lt _ _ hn, pure_bind]
  by_cases hzero : n = 0
  · rw [hzero, Cutter.cuts_zero]
    rfl
  · have hmod := Int.emod_eq_zero_of_dvd hd
    rw [cuts_word_single (by omega) (by omega), deliver_singleton]
    simp only [hzero, ne_eq, not_false_eq_true, if_true, Program.bare_bind, bare_mul, pure_bind]
    exact bare_lastSlice hc hn.le fun b => hE.last c b hd (by omega) hn

/-- The words of dest where src has the same alignment. -/
theorem bare_finish (hE : E.Emits emit) (c : MWord g) (hd : (g.mwordSize : ℤ) ∣ d) :
    (finish E ⟨s, d, 0, 0⟩ n).bare
      = deliver (queueSupply .s) (emit c) ((wordCutter g.mwordSize).cuts d n) (s, []) := by
  induction n using Nat.strong_induction_on generalizing s d with
  | h n ih =>
    rcases lt_or_ge n g.mwordSize with hn | hn
    · exact bare_finish_of_lt hE c Carry.nil hd hn
    · have hpos := g.mwordSize_pos
      have hnext : (g.mwordSize : ℤ) ∣ d + g.mwordSize := Int.dvd_add hd (Int.dvd_refl _)
      rw [deliver_queue_word (q := []) _ _ hd hpos hn, finish, Program.bare_bind,
        bare_whileWords_of_le _ _ hn,
        bind_assoc]
      refine congrArg (Program.load Ptr.s s) (funext fun x => ?_)
      rw [List.nil_append, List.take_of_length_le (by simp), List.drop_of_length_le (by simp),
        hE.word c x hd, ← ih (n - g.mwordSize) (by omega) hnext, finish, Program.bare_bind]
      rfl

/-- The words of dest where every one is put together from two words of src. -/
theorem bare_loadShiftStore (hE : E.Emits emit) (c : MWord g) (hc : Carry w n b q)
    (hq : q.length < g.mwordSize) (hd : (g.mwordSize : ℤ) ∣ d) :
    (whileWords (loadShiftStore (g.mwordSize * 8)) n ⟨s, d, w, b⟩ >>= fun x =>
        finish E x.1 x.2).bare
      = deliver (queueSupply .s) (emit c) ((wordCutter g.mwordSize).cuts d n) (s, q) := by
  induction n using Nat.strong_induction_on generalizing s d b q with
  | h n ih =>
    rcases lt_or_ge n g.mwordSize with hn | hn
    · rw [whileWords_of_lt _ _ hn, pure_bind]
      exact bare_finish_of_lt hE c hc hd hn
    · have hpos := g.mwordSize_pos
      have hnext : (g.mwordSize : ℤ) ∣ d + g.mwordSize := Int.dvd_add hd (Int.dvd_refl _)
      rw [deliver_queue_word _ _ hd hq hn, Program.bare_bind, bare_whileWords_of_le _ _ hn,
        bind_assoc]
      refine congrArg (Program.load Ptr.s s) (funext fun x => ?_)
      have hword : bytes g.mwordSize (b ||| x <<< w)
          = (q ++ bytes g.mwordSize x).take g.mwordSize :=
        hc.bytes_or (by omega) le_rfl x
      have hcarry : Carry w (n - g.mwordSize) (x >>> (g.mwordSize * 8 - w))
          ((q ++ bytes g.mwordSize x).drop g.mwordSize) := by
        rw [hc.width, ← Nat.sub_mul]
        exact Carry.load (Nat.add_comm ..) hq.le x
      have hlen : ((q ++ bytes g.mwordSize x).drop g.mwordSize).length < g.mwordSize := by
        simpa using hq
      rw [← hword, hE.word c _ hd, ← ih (n - g.mwordSize) (by omega) hcarry hlen hnext,
        Program.bare_bind]
      rfl

/-! ### The first word -/

/-- The margin before dest, and dest bytes behind it. -/
theorem bytes_margin_or {j : ℕ} (hj : j ≤ g.mwordSize) (c y : MWord g) :
    bytes g.mwordSize (c &&& ~~~(ones g <<< (j * 8)) ||| y <<< (j * 8))
      = bytes j c ++ bytes (g.mwordSize - j) y := by
  have hmargin : bytes j (c &&& ~~~(ones g <<< (j * 8))) = bytes j c :=
    bytes_eq (length_bytes ..) fun k hk => by
      rw [getElem?_bytes, if_pos hk, ones_eq, byte_and_not_mask, if_pos hk]
  rw [bytes_or_shiftLeft hj (fun k hk => by rw [ones_eq, byte_and_not_mask, if_neg (by omega)]),
    hmargin]

theorem bare_discard {i : ℕ} (hc : Carry ((g.mwordSize - i) * 8) n b q) :
    ∃ b' : MWord g, (discard (i * 8) i n (b <<< (i * 8))).bare = pure (b' <<< (i * 8))
      ∧ Carry ((g.mwordSize - i) * 8) n b' q := by
  by_cases hn : n < g.mwordSize - i
  · refine ⟨b &&& ~~~(ones g <<< (n * 8)), ?_, hc.mask⟩
    simp only [discard, Program.bare_bind, bare_sub, pure_bind, if_pos hn, bare_mul, bare_add,
      bare_shl, Program.bare_pure]
    congr 1
    refine eq_of_byte_eq fun k hk => ?_
    rw [byte_shiftLeft _ _ hk, ones_eq, ← Nat.add_mul, byte_and_not_mask, byte_and_not_mask,
      byte_shiftLeft _ _ hk]
    split_ifs <;> first | rfl | omega
  · refine ⟨b, ?_, hc⟩
    simp only [discard, Program.bare_bind, bare_sub, pure_bind, if_neg hn, Program.bare_pure]

/-- The first word of dest is `b ||| a <<< w`: the margin of `c` and the front of the queue. What is
left of the queue is carried in `a >>> (t - w)`. -/
structure FirstWord (c : MWord g) (j n w : ℕ) (a b : MWord g) (q : List Byte) : Prop where
  word : bytes g.mwordSize (b ||| a <<< w) = bytes j c ++ q.take (g.mwordSize - j)
  carry : Carry w (n - (g.mwordSize - j)) (a >>> (g.mwordSize * 8 - w))
    (q.drop (g.mwordSize - j))

section FirstWord

variable {i j : ℕ} {c y : MWord g} (hc : Carry ((g.mwordSize - i) * 8) n y q)
  (hn : g.mwordSize - j ≤ n)

include hc hn

/-- Src leads: its first word holds what the first word of dest needs. -/
theorem FirstWord.of_lt (hij : i < j) (hj : j < g.mwordSize) :
    FirstWord c j n ((j - i) * 8) (y <<< (i * 8)) (c &&& ~~~(ones g <<< (j * 8))) q where
  word := by
    have hlen := hc.width
    rw [← BitVec.shiftLeft_add, ← Nat.add_mul, Nat.add_sub_of_le hij.le, bytes_margin_or hj.le,
      hc.bytes_eq_take (by omega) hn]
  carry := by
    have hlen := hc.width
    have hhigh : ∀ k, g.mwordSize - i ≤ k → byte y k = 0 := fun k hk => hc.high k (by omega)
    have hshift : y <<< (i * 8) >>> (g.mwordSize * 8 - (j - i) * 8)
        = y >>> ((g.mwordSize - j) * 8) := by
      rw [← Nat.sub_mul, shiftLeft_ushiftRight_of_ge hhigh (by omega)]
      congr 2
      omega
    have hdrop := hc.drop (p := g.mwordSize - j) (by omega)
    rw [hshift]
    rwa [← Nat.sub_mul, show g.mwordSize - i - (g.mwordSize - j) = j - i by omega] at hdrop

/-- Dest leads: a second source word `x` is needed. -/
theorem FirstWord.of_gt (hij : j < i) (hi : i < g.mwordSize) (x : MWord g) :
    FirstWord c j n ((g.mwordSize - (i - j)) * 8) x
      (c &&& ~~~(ones g <<< (j * 8)) ||| y <<< (i * 8) >>> ((i - j) * 8))
      (q ++ bytes g.mwordSize x) where
  word := by
    have hlen := hc.width
    have hhigh : ∀ k, g.mwordSize - i ≤ k → byte y k = 0 := fun k hk => hc.high k (by omega)
    have hback : y <<< (i * 8) >>> ((i - j) * 8) = y <<< (j * 8) := by
      rw [shiftLeft_ushiftRight_of_le hhigh (by omega), Nat.sub_sub_self hij.le]
    have hnext : x <<< ((g.mwordSize - (i - j)) * 8)
        = x <<< ((g.mwordSize - i) * 8) <<< (j * 8) := by
      rw [← BitVec.shiftLeft_add, ← Nat.add_mul]
      congr 2
      omega
    rw [hback, hnext, BitVec.or_assoc, ← BitVec.shiftLeft_or_distrib,
      bytes_margin_or (by omega), hc.bytes_or (by omega) (by omega)]
  carry := by
    have hlen := hc.width
    rw [← Nat.sub_mul]
    exact Carry.load (by omega) (by omega) x

end FirstWord

/-- Where src leads there is no restart. -/
theorem bare_restart_of_lt {i j : ℕ} (hij : i < j) (hj : j < g.mwordSize) (a b : MWord g) :
    (restart s (g.mwordSize * 8) (i * 8) (j * 8) a b).bare = pure (s, (j - i) * 8, a, b) := by
  rw [restart, wrapSub_of_le (by omega) (by omega), if_neg (by omega), Nat.sub_mul]
  rfl

/-- Where dest leads, `w` wraps and is wrapped back. -/
theorem bare_restart_of_gt {i j : ℕ} (hij : j < i) (hi : i < g.mwordSize) (a b : MWord g) :
    (restart s (g.mwordSize * 8) (i * 8) (j * 8) a b).bare = .load .s s fun x =>
      pure (s + g.mwordSize, (g.mwordSize - (i - j)) * 8, x, b ||| a >>> ((i - j) * 8)) := by
  rw [restart, wrapAdd_wrapSub (by omega) (by omega) le_rfl, if_pos (by omega), Nat.sub_mul,
    Nat.sub_mul]
  rfl

theorem bare_restart {i j : ℕ} (hi : i < g.mwordSize) (hj : j < g.mwordSize) (hij : i ≠ j)
    (hc : Carry ((g.mwordSize - i) * 8) n y q) (hn : g.mwordSize - j ≤ n) {α : Type}
    {f : ℤ × ℕ × MWord g × MWord g → Code g α} {f' : List Byte × ℤ × List Byte → Code g α}
    (hf : ∀ s w (a b : MWord g) q, FirstWord c j n w a b q →
      (q.drop (g.mwordSize - j)).length < g.mwordSize →
        f (s, w, a, b) = f' (q.take (g.mwordSize - j), s, q.drop (g.mwordSize - j))) :
    (restart s (g.mwordSize * 8) (i * 8) (j * 8) (y <<< (i * 8))
        (c &&& ~~~(ones g <<< (j * 8)))).bare >>= f
      = (queueSupply .s).take (s, q) (g.mwordSize - j) >>= f' := by
  have hlen : q.length = g.mwordSize - i := by have := hc.width; omega
  rcases lt_or_gt_of_ne hij with hlt | hgt
  · rw [bare_restart_of_lt hlt hj, queueSupply_take_of_le _ (by omega), pure_bind, pure_bind]
    exact hf _ _ _ _ _ (.of_lt hc hn hlt hj) (by simp; omega)
  · rw [bare_restart_of_gt hgt hi, queueSupply_take_of_lt _ (by omega)]
    refine congrArg (Program.load Ptr.s s) (funext fun x => ?_)
    exact hf _ _ _ _ _ (.of_gt hc hn hgt hi x) (by simp; omega)

/-- A second source word is loaded where dest lies in one word and src in two. -/
theorem bare_secondSlice {i : ℕ} (hc : Carry ((g.mwordSize - i) * 8) n b q)
    (hn : n ≤ g.mwordSize) {α : Type} {f : MWord g → Code g α} {f' : List Byte → Code g α}
    (hf : ∀ b, f b = f' (bytes n b)) :
    (secondSlice s (g.mwordSize * 8) (i * 8) i n b).bare >>= f
      = (queueSupply .s).take (s, q) n >>= fun r => f' r.1 := by
  have hslice : (secondSlice s (g.mwordSize * 8) (i * 8) i n b).bare
      = (lastSlice ⟨s, 0, (g.mwordSize - i) * 8, b⟩ (n * 8)).bare := by
    have hlt : (g.mwordSize - i) * 8 < n * 8 ↔ g.mwordSize - i < n := by omega
    simp only [secondSlice, lastSlice, Program.bare_bind, bare_sub, pure_bind, Program.bare_ite,
      ← Nat.sub_mul, hlt]
  rw [hslice, bare_lastSlice hc hn hf]

/-- **The copy is a stream.** -/
theorem bare_copy (hE : E.Emits emit) (dest src : ℤ) (n : ℕ) :
    (copy E dest src n).bare = copyStream .s .d emit dest src n := by
  have hi := offset_lt g src
  have hj := offset_lt g dest
  have hjmod := natCast_offset g dest
  rw [copy, copyStream, ← natCast_offset, ← natCast_offset, ← align_eq, ← align_eq]
  by_cases htrivial : dest = src ∨ n = 0
  · rw [if_pos htrivial, if_pos htrivial]
    rfl
  rw [if_neg htrivial, if_neg htrivial, Int.toNat_natCast]
  by_cases haligned : offset g src = 0 ∧ offset g dest = 0
  · rw [if_neg (by omega), if_pos (by omega), align_of_offset_eq_zero haligned.1,
      align_of_offset_eq_zero haligned.2]
    exact bare_finish hE 0 (dvd_of_offset_eq_zero haligned.2)
  have hunaligned : offset g src ≠ 0 ∨ offset g dest ≠ 0 := by omega
  rw [if_pos hunaligned, if_neg (by omega)]
  simp only [Program.bare_bind, bare_mul, pure_bind, load_bind, Program.bare_load, bare_shl,
    bare_shr, bare_sub, Program.bare_ite]
  refine congrArg (Program.load Ptr.s _) (funext fun x => ?_)
  refine congrArg (Program.load Ptr.d _) (funext fun c => ?_)
  have hc := Carry.start (n := n) hi.le x
  by_cases hshort : n < g.mwordSize - offset g dest
  · rw [cuts_word_single (by omega) (by omega), deliver_singleton]
    rw [if_pos hshort]
    exact bare_secondSlice hc (by omega) fun a => hE.only c dest a (by omega) (by omega)
  have hword : (g.mwordSize : ℤ) ∣ dest - offset g dest + g.mwordSize :=
    align_eq g dest ▸ dvd_align_add g dest
  obtain ⟨y, hy, hc⟩ := bare_discard hc
  rw [cuts_word_cons hjmod.symm (by omega), deliver_cons]
  rw [if_neg hshort, hy, pure_bind]
  by_cases hphase : offset g src = offset g dest
  · have hlen : ((bytes g.mwordSize x).drop (offset g src)).length
        = g.mwordSize - offset g dest := by
      rw [List.length_drop, length_bytes, hphase]
    have hfirst : bytes g.mwordSize (c &&& ~~~(ones g <<< (offset g dest * 8))
          ||| y <<< (offset g dest * 8))
        = bytes (offset g dest) c
          ++ ((bytes g.mwordSize x).drop (offset g src)).take (g.mwordSize - offset g dest) := by
      rw [bytes_margin_or hj.le, hc.bytes_eq_take hlen.ge (by omega)]
    have hstore := hE.firstInPhase c dest (by omega) hfirst
    rw [if_neg (not_not.mpr hphase), queueSupply_take_of_le _ hlen.ge, pure_bind,
      List.drop_of_length_le hlen.le, ← hstore, ← bare_finish hE c hword, align_eq g dest, hphase]
  · rw [if_pos hphase]
    refine bare_restart hi hj hphase hc (by omega) fun s w a b q hfirst hq => ?_
    rw [hE.first c dest hfirst.word, align_eq g dest,
      ← bare_loadShiftStore hE c hfirst.carry hq hword, Program.bare_bind]

end Forward

end Lssc
