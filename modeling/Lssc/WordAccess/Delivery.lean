import Lssc.WordAccess.Footprint

/-!
# What a stream delivers

A copy reads whole words ahead of the bytes it writes, so what it delivers depends on what its
loads are answered while it is running. The argument is made once, for any environment and any
invariant of its states that gives the source bytes which are still to be read their initial
values: then the stores of a copy by units are the initial source bytes, cut greedily.

A memory satisfies such an invariant when dest does not start inside src, because then nothing is
written over a source byte before it is read. An oracle satisfies it when it is honest about the
source bytes, and may answer anything for the others.

A copy by words stores the neighbours of dest back. On a memory this makes no difference:
`final_copyStream_words` holds for all ranges, also for those where neither copy is a copy.

## Main definitions

* `Queued` — a queue holds the bytes of a memory from some address on
* `Honest`, `HonestOracle` — the bytes still to be read have their initial values
* `disturb` — an oracle that makes up every byte outside src at every load

## Main results

* `stores_copyStream` — the stores of a copy by units, from an invariant
* `final_copyStream_units`, `final_copyStream_words` — the memories the copies end in
* `stores_copyStream_oracle` — a copy by units against an honest oracle
* `final_fillUnits`, `final_fillWords` — the memories the fills end in
-/

namespace WordAccess

variable {h : ℕ} [NeZero h] {ι ε σ τ : Type} {E : Environment h τ} {M : Memory}

/-! ### The queue -/

/-- The queue `q` holds the bytes of `M` from `x` on, as far as the next `m` are concerned. -/
def Queued (M : Memory) (x : ℤ) (m : ℕ) (q : List Byte) : Prop :=
  ∀ i < m, i < q.length → q[i]? = some (M (x + i))

namespace Queued

variable {x : ℤ} {m n : ℕ} {q : List Byte}

theorem take_eq (hq : Queued M x m q) (hn : n ≤ m) (hlen : n ≤ q.length) :
    q.take n = M.slice x n := by
  apply List.ext_getElem?
  intro i
  rw [Memory.getElem?_slice]
  split
  · rw [List.getElem?_take_of_lt ‹_›, hq i (by omega) (by omega)]
  · rw [List.getElem?_eq_none (by rw [List.length_take]; omega)]

theorem drop (hq : Queued M x m q) (n : ℕ) : Queued M (x + n) (m - n) (q.drop n) := by
  intro i hi hlen
  rw [List.length_drop] at hlen
  rw [List.getElem?_drop, hq (n + i) (by omega) (by omega)]
  congr 2
  push_cast
  ring

omit [NeZero h] in
/-- A word loaded behind the queue, if it answers the bytes that are wanted. -/
theorem append (hq : Queued M x m q) {y : BitVec (h * 8)}
    (hy : ∀ i < h, x + q.length + i < x + m → byte y i = M (x + q.length + i)) :
    Queued M x m (q ++ bytes h y) := by
  intro i hi hlen
  rw [List.length_append, length_bytes] at hlen
  rw [List.getElem?_append]
  split
  · exact hq i hi ‹_›
  · rw [getElem?_bytes, if_pos (by omega), hy _ (by omega) (by omega)]
    congr 2
    omega

end Queued

/-! ### Copying by units -/

section Units

variable {v w : ι} {I : ℕ → τ → Prop} {dest src : ℤ} {n : ℕ}

/-- An invariant of the states of a run that gives the last `n - k` bytes of src the values they
have in `M`, once `k` bytes have been stored. -/
structure Honest (E : Environment h τ) (M : Memory) (dest src : ℤ) (n : ℕ) (I : ℕ → τ → Prop) :
    Prop where
  byte_load : ∀ {k : ℕ} {t : τ}, I k t → ∀ (a : ℤ), ∀ i < h, src + k ≤ a + i →
    a + i < src + n → byte (E.load t a).1 i = M (a + i)
  load : ∀ {k : ℕ} {t : τ}, I k t → ∀ a : ℤ, I k (E.load t a).2
  store : ∀ {k m : ℕ} {t : τ}, I k t → k + m ≤ n →
    I (k + m) (E.store t (dest + k) (M.slice (src + k) m))

/-- The units of a piece are stored one after the other. -/
theorem Honest.emitUnits (hI : Honest E M dest src n I) {k m : ℕ} {t : τ} (ht : I k t)
    (hkm : k + m ≤ n) :
    I (k + m) ((emitUnits (dest + k) (M.slice (src + k) m) : Program h ι ε Unit).final E t) := by
  induction m using Nat.strong_induction_on generalizing k t with
  | h m ih =>
    rcases Nat.eq_zero_or_pos m with rfl | hpos
    · rw [Memory.slice_zero, emitUnits_nil]
      exact ht
    · have hwidth := (greedyCutter h).pos (dest + k) m hpos
      have hle := (greedyCutter h).le (dest + k) m
      have hunit := hI.store (m := (greedyCutter h).width (dest + k) m) ht (by omega)
      have hrest := ih (m - (greedyCutter h).width (dest + k) m) (by omega) hunit (by omega)
      rw [WordAccess.emitUnits, Cutter.chop_of_pos _ _ (by rw [Memory.length_slice]; exact hpos),
        Memory.length_slice, Memory.take_slice _ _ hle, Memory.drop_slice _ _ hle]
      push_cast at hrest
      rw [show k + (greedyCutter h).width (dest + k) m + (m - (greedyCutter h).width (dest + k) m)
        = k + m by omega, ← add_assoc, ← add_assoc] at hrest
      exact hrest

/-- What a copy by units stores, from a queue that holds source bytes. -/
theorem stores_deliver_queue (hI : Honest E M dest src n I) {a : ℤ} {k m : ℕ}
    (ha : a = dest + k) (hm : k + m = n) {q : List Byte} (hq : Queued M (src + k) m q) {t : τ}
    (ht : I k t) :
    stores ((deliver (queueSupply v) emitUnits ((wordCutter h).cuts a m)
        (src + k + q.length, q) : Program h ι ε Unit).trace E t)
      = (greedyCutter h).chop a (M.slice (src + k) m) := by
  induction a, m using Cutter.cuts.induct (wordCutter h) generalizing k q t with
  | case1 a => rw [Cutter.cuts_zero, Memory.slice_zero, Cutter.chop_nil]; rfl
  | case2 a m hpos ih =>
    subst ha
    have hle := (wordCutter h).le (dest + k) m
    have hwidth : (wordCutter h).width (dest + k) m ≤ h := by
      have := emod_nonneg_natCast h (dest + k)
      simp only [wordCutter]
      omega
    have hfirst := chop_greedy_first (h := h) (dest + k) (M.slice (src + k) m)
    rw [Memory.length_slice, Memory.take_slice _ _ hle, Memory.drop_slice _ _ hle] at hfirst
    rw [Cutter.cuts_of_pos _ _ (by omega), deliver_cons, hfirst]
    dsimp only
    generalize (wordCutter h).width (dest + k) m = p at *
    -- the piece and what follows it, once the queue is long enough
    have hpiece : ∀ (q : List Byte) (t : τ), Queued M (src + k) m q → I k t → p ≤ q.length →
        stores ((emitUnits (dest + k) (q.take p) >>= fun _ =>
            deliver (queueSupply v) emitUnits ((wordCutter h).cuts (dest + k + p) (m - p))
              (src + k + q.length, q.drop p) : Program h ι ε Unit).trace E t)
          = (greedyCutter h).chop (dest + k) (M.slice (src + k) p)
            ++ (greedyCutter h).chop (dest + k + p) (M.slice (src + k + p) (m - p)) := by
      intro q t hq ht hp
      have hcast : src + ((k + p : ℕ) : ℤ) = src + k + p := by push_cast; ring
      have hrest : Queued M (src + (k + p : ℕ)) (m - p) (q.drop p) := hcast ▸ hq.drop p
      have hdone : I (k + p) ((emitUnits (dest + k) (M.slice (src + k) p) :
          Program h ι ε Unit).final E t) := hI.emitUnits ht (by omega)
      have hnext : src + k + (q.length : ℤ) = src + (k + p : ℕ) + ((q.drop p).length : ℕ) := by
        rw [List.length_drop]
        omega
      rw [hq.take_eq hle hp, Program.trace_bind, stores_append, stores_emitUnits, hnext,
        ih (by push_cast; ring) (by omega) hrest hdone, hcast]
    rcases Nat.lt_or_ge q.length p with hlt | hge
    · have hword : Queued M (src + k) m (q ++ bytes h (E.load t (src + k + q.length)).1) :=
        hq.append fun i hi hin => hI.byte_load ht _ i hi (by omega) (by omega)
      have hloaded := hpiece _ (E.load t (src + k + q.length)).2 hword (hI.load ht _)
        (by simp; omega)
      rw [List.length_append, length_bytes, Nat.cast_add, ← add_assoc] at hloaded
      rw [queueSupply_take_of_lt v hlt, Program.load_bind, Program.trace_load, stores_load,
        pure_bind]
      exact hloaded
    · rw [queueSupply_take_of_le v hge, pure_bind]
      exact hpiece q t hq ht hge

/-- **What a copy by units stores**: the source bytes as they are in `M`, cut greedily. -/
theorem stores_copyStream (hI : Honest E M dest src n I) (hne : dest ≠ src) {t : τ}
    (ht : I 0 t) :
    stores ((copyStream v w (fun _ => emitUnits) dest src n : Program h ι ε Unit).trace E t)
      = (greedyCutter h).chop dest (M.slice src n) := by
  have hlt := emod_lt_natCast h src
  have hnonneg := emod_nonneg_natCast h src
  have hstream : ∀ {q : List Byte} {s : ℤ} {t : τ}, Queued M src n q → s = src + q.length →
      I 0 t → stores ((deliver (queueSupply v) emitUnits ((wordCutter h).cuts dest n) (s, q) :
        Program h ι ε Unit).trace E t) = (greedyCutter h).chop dest (M.slice src n) := by
    rintro q _ t hq rfl ht
    simpa using stores_deliver_queue (ι := ι) (ε := ε) (v := v) (q := q) (a := dest) hI (by simp)
      (Nat.zero_add n) (by simpa using hq) ht
  rw [copyStream]
  by_cases hn : n = 0
  · rw [if_pos (Or.inr hn), hn, Memory.slice_zero, Cutter.chop_nil]
    rfl
  rw [if_neg (by simp [hne, hn])]
  split
  · exact hstream (fun i _ hlen => by simp at hlen) (by simp) ht
  · have hword : Queued M src n
        ((bytes h (E.load t (src - src % h)).1).drop (src % h).toNat) := by
      intro i hi hlen
      rw [List.length_drop, length_bytes] at hlen
      rw [List.getElem?_drop, getElem?_bytes, if_pos (by omega),
        hI.byte_load ht _ _ (by omega) (by omega) (by omega)]
      congr 2
      omega
    simp only [Program.trace_load, stores_load]
    refine hstream hword ?_ (hI.load (hI.load ht _) _)
    rw [List.length_drop, length_bytes]
    omega

end Units

/-! ### On a memory -/

section Memory

variable {v w : ι} {dest src : ℤ} {n : ℕ}

omit [NeZero h] in
/-- **Nothing is written over a source byte before it is read**, unless dest starts inside src. -/
theorem honest_memory (hov : dest ≤ src ∨ src + n ≤ dest) :
    Honest (Memory.environment h) M dest src n
      fun k N => ∀ x, src + k ≤ x → x < src + n → N x = M x where
  byte_load {k N} hN a i hi hlow hhigh := by
    rw [Memory.environment_load, Memory.byte_word _ _ hi]
    exact hN _ hlow hhigh
  load hN _ := hN
  store {k m N} hN hkm x hlow hhigh := by
    push_cast at hlow
    rw [Memory.environment_store,
      Memory.write_of_outside _ (by rw [Memory.length_slice]; omega)]
    exact hN x (by omega) hhigh

/-- **A copy by units is a copy**, unless dest starts inside src. -/
theorem final_copyStream_units (hov : dest ≤ src ∨ src + n ≤ dest) (M : Memory) :
    (copyStream v w (fun _ => emitUnits) dest src n : Program h ι ε Unit).final
      (Memory.environment h) M = M.write dest (M.slice src n) := by
  by_cases hne : dest = src
  · rw [copyStream, if_pos (Or.inl hne), Program.final_pure, hne, Memory.write_slice]
  · rw [Program.final_eq_foldl_stores,
      stores_copyStream (honest_memory hov) hne fun _ _ _ => rfl, Cutter.foldl_write_chop]

theorem final_emitUnits (a : ℤ) (bs : List Byte) (M : Memory) :
    (emitUnits a bs : Program h ι ε Unit).final (Memory.environment h) M = M.write a bs := by
  rw [Program.final_eq_foldl_stores, stores_emitUnits, Cutter.foldl_write_chop]

/-- The word that is stored back changes the piece alone, if the margin before it is up to date. -/
theorem final_emitWord {c : BitVec (h * 8)} {a : ℤ} {bs : List Byte} {M : Memory}
    (hc : bytes (a % h).toNat c = M.slice (a - a % h) (a % h).toNat) :
    (emitWord w c a bs : Program h ι ε Unit).final (Memory.environment h) M = M.write a bs := by
  have hj : ((a % h).toNat : ℤ) = a % h := Int.toNat_of_nonneg (emod_nonneg_natCast h a)
  have hstart : a - a % h + ((a % h).toNat : ℤ) = a := by omega
  have hmargins := fun m => M.write_margins (a - a % h) (a % h).toNat m bs
  rw [hstart] at hmargins
  rw [emitWord]
  split
  · rw [Program.final_load, Program.final_store, Program.final_pure, Memory.environment_load,
      Memory.environment_store, hc, Memory.bytes_word, Memory.drop_slice _ _ (by omega),
      Nat.cast_add, ← add_assoc, hstart, hmargins]
  · have := hmargins 0
    rw [Memory.slice_zero, List.append_nil] at this
    rw [Program.final_store, Program.final_pure, Memory.environment_store, hc, this]

omit [NeZero h] in
theorem final_take (S : Supply h ι ε σ) (q : σ) (m : ℕ) (M : Memory) :
    (S.take q m).final (Memory.environment h) M = M := by
  rw [Program.final_eq_foldl_stores, S.stores_eq, List.foldl_nil]

/-- **Words and units have the same effect**, whatever is delivered. -/
theorem final_deliver_emitWord (S : Supply h ι ε σ) {c : BitVec (h * 8)} {a : ℤ} {m : ℕ} (q : σ)
    {M : Memory} (hc : bytes (a % h).toNat c = M.slice (a - a % h) (a % h).toNat) :
    (deliver S (emitWord w c) ((wordCutter h).cuts a m) q).final (Memory.environment h) M
      = (deliver S emitUnits ((wordCutter h).cuts a m) q).final (Memory.environment h) M := by
  induction a, m using Cutter.cuts.induct (wordCutter h) generalizing q M with
  | case1 a => rw [Cutter.cuts_zero]; rfl
  | case2 a m hm ih =>
    rw [Cutter.cuts_of_pos _ _ (by omega), deliver_cons, deliver_cons, Program.final_bind,
      Program.final_bind, Program.final_bind, Program.final_bind, final_take, final_emitWord hc,
      final_emitUnits]
    rcases Nat.lt_or_ge ((wordCutter h).width a m) m with hlt | hge
    · refine ih _ ?_
      rw [Int.emod_eq_zero_of_dvd (dvd_add_wordCutter_width a m hlt)]
      rfl
    · rw [Nat.sub_eq_zero_of_le hge, Cutter.cuts_zero]
      rfl

/-- **A copy by words ends where a copy by units ends**, for all ranges. -/
theorem final_copyStream_words (dest src : ℤ) (n : ℕ) (M : Memory) :
    (copyStream v w (emitWord w) dest src n : Program h ι ε Unit).final (Memory.environment h) M
      = (copyStream v w (fun _ => emitUnits) dest src n : Program h ι ε Unit).final
          (Memory.environment h) M := by
  rw [copyStream, copyStream]
  split
  · rfl
  split
  · refine final_deliver_emitWord _ _ ?_
    rw [(‹src % (h : ℤ) = 0 ∧ dest % (h : ℤ) = 0›).2]
    rfl
  · have hlt := emod_lt_natCast h dest
    simp only [Program.final_load, Memory.environment_load]
    refine final_deliver_emitWord _ _ ?_
    exact M.bytes_word_of_le _ (by omega)

theorem final_deliver_const (x : Byte) (a : ℤ) (m : ℕ) (M : Memory) :
    (deliver (constSupply x) emitUnits ((wordCutter h).cuts a m) () :
      Program h ι ε Unit).final (Memory.environment h) M = M.write a (List.replicate m x) := by
  induction a, m using Cutter.cuts.induct (wordCutter h) generalizing M with
  | case1 a => rw [Cutter.cuts_zero, List.replicate_zero, Memory.write_nil]; rfl
  | case2 a m hm ih =>
    have hle := (wordCutter h).le a m
    have hjoin := M.write_write a (List.replicate ((wordCutter h).width a m) x)
      (List.replicate (m - (wordCutter h).width a m) x)
    rw [List.length_replicate, List.replicate_append_replicate, Nat.add_sub_of_le hle] at hjoin
    rw [Cutter.cuts_of_pos _ _ (by omega), deliver_const_cons, Program.final_bind,
      final_emitUnits, ih, hjoin]

/-- **A fill by units is a fill.** -/
theorem final_fillUnits (x : Byte) (dest : ℤ) (n : ℕ) (M : Memory) :
    (fillUnits x dest n : Program h ι ε Unit).final (Memory.environment h) M
      = M.write dest (List.replicate n x) := final_deliver_const x dest n M

/-- **A fill by words is a fill.** -/
theorem final_fillWords (x : Byte) (dest : ℤ) (n : ℕ) (M : Memory) :
    (fillWords w x dest n : Program h ι ε Unit).final (Memory.environment h) M
      = M.write dest (List.replicate n x) := by
  rw [fillWords]
  split
  · rw [‹n = 0›, List.replicate_zero, Memory.write_nil]
    rfl
  rw [← final_deliver_const (h := h) (ι := ι) (ε := ε) x dest n M]
  split
  · refine final_deliver_emitWord _ _ ?_
    rw [‹dest % (h : ℤ) = 0›]
    rfl
  · have hlt := emod_lt_natCast h dest
    simp only [Program.final_load, Memory.environment_load]
    refine final_deliver_emitWord _ _ ?_
    exact M.bytes_word_of_le _ (by omega)

end Memory

/-! ### Against an oracle -/

section Oracle

variable {v w : ι} {dest src : ℤ} {n : ℕ} {ω : ℕ → ℤ → BitVec (h * 8)}

/-- The oracle answers the bytes of `[src, src + n)` as they are in `M`, and the others as it
likes. -/
def HonestOracle (ω : ℕ → ℤ → BitVec (h * 8)) (M : Memory) (src : ℤ) (n : ℕ) : Prop :=
  ∀ (t : ℕ) (a : ℤ), ∀ i < h, src ≤ a + i → a + i < src + n → byte (ω t a) i = M (a + i)

omit [NeZero h] in
theorem HonestOracle.honest (hω : HonestOracle ω M src n) :
    Honest (oracleEnvironment ω) M dest src n fun _ _ => True where
  byte_load {k t} _ a i hi hlow hhigh := hω t a i hi (by omega) hhigh
  load _ _ := trivial
  store _ _ := trivial

omit [NeZero h] in
/-- Honest about a range, an oracle is honest about its image when seen through a mirror. -/
theorem HonestOracle.mirror (hω : HonestOracle ω M src n) (K : ℤ) :
    HonestOracle (fun t a => revBytes (ω t (K - a - h))) (M.reflect K) (K - src - n) n := by
  intro t a i hi hlow hhigh
  have hbyte := hω t (K - a - h) (h - 1 - i) (by omega) (by omega) (by omega)
  rw [byte_revBytes _ hi, hbyte, Memory.reflect]
  congr 1
  omega

/-- **What a copy by units stores against an honest oracle** does not depend on the oracle. -/
theorem stores_copyStream_oracle (hω : HonestOracle ω M src n) (hne : dest ≠ src) (t : ℕ) :
    stores ((copyStream v w (fun _ => emitUnits) dest src n : Program h ι ε Unit).trace
        (oracleEnvironment ω) t)
      = (greedyCutter h).chop dest (M.slice src n) :=
  stores_copyStream hω.honest hne trivial

/-- The bytes of `[src, src + n)` are those of `M`, and the others those of `N t` at load
number `t`. -/
def disturb (h : ℕ) (M : Memory) (src : ℤ) (n : ℕ) (N : ℕ → Memory) : ℕ → ℤ → BitVec (h * 8) :=
  fun t a => ofBytes h fun i : ℕ => if src ≤ a + i ∧ a + i < src + n then M (a + i) else N t (a + i)

omit [NeZero h] in
theorem honestOracle_disturb (N : ℕ → Memory) : HonestOracle (disturb h M src n N) M src n := by
  intro t a i hi hlow hhigh
  rw [disturb, byte_ofBytes _ hi, if_pos ⟨hlow, hhigh⟩]

end Oracle

end WordAccess
