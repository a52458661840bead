import Lssc.Threads

/-!
# The neighbour of `lssc_mt.c`

`lssc_mt.c` looks for stores outside dest while they happen. The main thread calls a routine again
and again, with dest half a word into a word, and a neighbour thread keeps a counter in the margin
on each side of dest. The neighbour stores a value in both and reads both back, and counts a
*clobber* if it reads anything else.

The comment at the top of the file argues that a mismatch is a direct observation of a write outside
dest and does not depend on timing, and that a clean run is weaker evidence. Both are theorems here,
about all schedules of the two threads: a thread-safe routine is never found to clobber, and a plain
one is caught by some schedule, however few calls are made.

The loop of the neighbour is as long as the main thread makes it, so the model gives it a number of
rounds after which there is no result. Under a fair schedule there is a result if there are rounds
enough: the main thread returns after a number of turns that has nothing to do with them, and from
then on no round is begun.

## Main definitions

* `Layout` — where the variables of the program are
* `Victim`, `Victim.call`, `Victim.safe` — the routines under test
* `neighbour`, `victimLoop` — the two threads
* `Returns`, `ReturnsUnder` — what `run` returns, under some schedule or under a given one
* `bad` — what `main` returns

## Main results

* `eventually_returns` — under a fair schedule `run` returns
* `gate_holds` — `main` never reports a thread-safe routine
* `exists_clobber_iff` — the routines that can be caught
-/

namespace Lssc

open WordAccess Program

variable {g : Geometry}

/-! ### The program -/

section Offsets

variable (g)

/-- `OFF`, the offset of dest within `buf`. -/
def off : ℕ := g.mwordSize + g.mwordSize / 2

/-- `LEN`, the length of dest. -/
def len : ℕ := 2 * g.mwordSize

/-- `LO`, the margin below dest. -/
def lo : ℕ := g.mwordSize

/-- `HI`, the margin above dest. -/
def hi : ℕ := 3 * g.mwordSize + g.mwordSize / 2

end Offsets

/-- Where the static variables are: `buf` is aligned, and no two of them overlap. -/
structure Layout (g : Geometry) where
  buf : ℤ
  src : ℤ
  running : ℤ
  aligned : (64 : ℤ) ∣ buf
  src_apart : src + 8 * g.mwordSize ≤ buf ∨ buf + 8 * g.mwordSize ≤ src
  running_apart : running + 4 ≤ buf ∨ buf + 8 * g.mwordSize ≤ running

/-- The routines under test. -/
inductive Victim : Type
  | lsscLf
  | lsscLft
  | lsscLr
  | lsscLrt
  | initLf
  | initLft
  | zeroLf
  | zeroLft
  deriving DecidableEq, Repr

namespace Victim

/-- The thunks, which make each routine write `n` bytes at `d`. -/
def call (src : ℤ) : Victim → ℤ → ℕ → Call
  | lsscLf, d, n => .lsscLf d src n
  | lsscLft, d, n => .lsscLft d src n
  | lsscLr, d, n => .lsscLr d src n
  | lsscLrt, d, n => .lsscLrt d src n
  | initLf, d, n => .initLf d 0x5a n
  | initLft, d, n => .initLft d 0x5a n
  | zeroLf, d, n => .zeroLf d n
  | zeroLft, d, n => .zeroLft d n

/-- The column `safe` of `V`. -/
def safe : Victim → Bool
  | lsscLf | lsscLr | initLf | zeroLf => false
  | lsscLft | lsscLrt | initLft | zeroLft => true

/-- The rows of `V`. -/
def all : List Victim := [lsscLf, lsscLft, lsscLr, lsscLrt, initLf, initLft, zeroLf, zeroLft]

instance : Fintype Victim where
  elems := all.toFinset
  complete fn := by cases fn <;> decide

end Victim

/-- A load of `k` bytes, for `k` no more than a word: the low bytes of the word there. -/
def loadLow (k : ℕ) (a : ℤ) : Code g (BitVec (k * 8)) := do
  let x ← load .d a
  pure (x.setWidth (k * 8))

/-- `*lo != v || *hi != v`. -/
def mismatch (L : Layout g) (v : BitVec (2 * 8)) : Code g Bool := do
  let x ← loadLow 2 (L.buf + lo g)
  if x ≠ v then pure true
  else do
    let y ← loadLow 2 (L.buf + hi g)
    pure (y != v)

/-- One round: store `v` in both counters, and see whether it is still there. -/
def round (L : Layout g) (v : BitVec (2 * 8)) : Code g Bool := do
  Program.store (L.buf + lo g) (bytes 2 v) (pure ())
  Program.store (L.buf + hi g) (bytes 2 v) (pure ())
  mismatch L v

/-- The loop of the neighbour, which returns its count when `running` is cleared. If that takes
more than the given number of rounds, there is no result. -/
def neighbour (L : Layout g) : ℕ → BitVec (2 * 8) → ℕ → Code g (Option ℕ)
  | 0, _, _ => pure none
  | rounds + 1, v, clobbers => do
    let running ← loadLow 4 L.running
    if running = 0 then pure (some clobbers)
    else do
      let clobbered ← round L v
      neighbour L rounds (v + 1) (if clobbered then clobbers + 1 else clobbers)

/-- The calls of the main thread, after which it clears `running` and waits for the neighbour. -/
def victimLoop (L : Layout g) (fn : Victim) (iterations : ℕ) : Code g (Option ℕ) := do
  callAll g (List.replicate iterations (fn.call L.src (L.buf + off g) (len g)))
  Program.store L.running (bytes 4 (0 : BitVec (4 * 8))) (pure ())
  pure none

/-- The two threads of `run`, when the neighbour has been created. -/
def mtRun (L : Layout g) (fn : Victim) (iterations rounds : ℕ) (M : Memory) :
    Pool Thread g.mwordSize Ptr Arith (Option ℕ) where
  threads
    | .main => victimLoop L fn iterations
    | .neighbour => neighbour L rounds 1 0
  memory := M.write L.running (bytes 4 (1 : BitVec (4 * 8)))

/-- `run(fn)` can return `c`: the neighbour has, at the end of some schedule. -/
def Returns (L : Layout g) (fn : Victim) (iterations : ℕ) (M : Memory) (c : ℕ) : Prop :=
  ∃ (rounds : ℕ) (l : List Thread),
    ((mtRun L fn iterations rounds M).run l).threads .neighbour = .ret (some c)

/-- `run(fn)` returns `c` under the schedule `σ`, if the neighbour is given that many rounds: from
some moment on both threads have returned, and the neighbour has returned `c`. -/
def ReturnsUnder (L : Layout g) (fn : Victim) (iterations rounds : ℕ) (M : Memory)
    (σ : ℕ → Thread) (c : ℕ) : Prop :=
  ∃ n, ∀ m, n ≤ m → ((mtRun L fn iterations rounds M).after σ m).Finished ∧
    ((mtRun L fn iterations rounds M).after σ m).threads .neighbour = .ret (some c)

/-- What `main` returns if `run` has returned `c` for each routine. -/
def bad (c : Victim → ℕ) : Bool := Victim.all.any fun fn => fn.safe && c fn != 0

/-! ### The thread-safe routines -/

section Safe

variable {L : Layout g} {fn : Victim}

/-- The bytes of the two counters. -/
def counters (L : Layout g) : Set ℤ := bytesIn (L.buf + lo g) 2 ∪ bytesIn (L.buf + hi g) 2

/-- The main thread relies on `running`, and the neighbour on the bytes `r`. -/
def mtTerms (L : Layout g) (fn : Victim) (r : Set ℤ) : Thread → Terms
  | .main =>
    { rely := bytesIn L.running 4
      may := fun x _ => x ∈ (fn.call L.src (L.buf + off g) (len g)).writes g ∨
        x ∈ bytesIn L.running 4 }
  | .neighbour => { rely := r, may := fun x _ => x ∈ counters L }

theorem separate_mtTerms (hg : 2 ≤ g.mwordSize / 2) {fn : Victim} {r : Set ℤ}
    (hr : ∀ x b, (mtTerms L fn r .main).may x b → x ∉ r) : Pool.Separate (mtTerms L fn r) := by
  intro i j hij x b hmay
  cases i with
  | main =>
    cases j with
    | main => exact absurd rfl hij
    | neighbour =>
      have hapart := L.running_apart
      rintro ⟨hlow, hhigh⟩
      rcases hmay with ⟨hlow', hhigh'⟩ | ⟨hlow', hhigh'⟩
      · simp only [lo] at hlow' hhigh'
        omega
      · simp only [hi] at hlow' hhigh'
        omega
  | neighbour =>
    cases j with
    | main => exact hr x b hmay
    | neighbour => exact absurd rfl hij

theorem withstands_loadLow {α : Type} {t : Terms} {V : Memory} {a : ℤ} {k : ℕ}
    {Q : α → Memory → Prop} {f : BitVec (k * 8) → Code g α} (hk : k ≤ g.mwordSize)
    (hf : ∀ x, (∀ i : ℕ, i < k → a + i ∈ t.rely → byte x i = V (a + i)) →
      (f x).Withstands t V Q) : (loadLow k a >>= f).Withstands t V Q := by
  intro w hw
  refine hf _ fun i hi hin => ?_
  rw [byte_setWidth w hi]
  exact hw i (by omega) hin

theorem grants_counters {t : Terms} {a : ℤ} {v : BitVec (2 * 8)}
    (hmay : ∀ x ∈ counters L, ∀ b, t.may x b) (ha : ∀ i : ℕ, i < 2 → a + i ∈ counters L) :
    t.Grants a (bytes 2 v) := by
  intro i b hb
  have hlt := (List.getElem?_eq_some_iff.mp hb).1
  rw [length_bytes] at hlt
  exact hmay _ (ha i hlt) b

/-- A neighbour whose counters nobody else stores to reads back what it has stored. -/
theorem withstands_round (hg : 2 ≤ g.mwordSize / 2) {t : Terms} (hrely : counters L ⊆ t.rely)
    (hmay : ∀ x ∈ counters L, ∀ b, t.may x b) (V : Memory) (v : BitVec (2 * 8)) :
    (round L v).Withstands t V fun b V' => b = false ∧
      V' = (V.write (L.buf + lo g) (bytes 2 v)).write (L.buf + hi g) (bytes 2 v) := by
  have hlo : ∀ i : ℕ, i < 2 → L.buf + lo g + i ∈ counters L :=
    fun i _ => Or.inl ⟨by omega, by omega⟩
  have hhi : ∀ i : ℕ, i < 2 → L.buf + hi g + i ∈ counters L :=
    fun i _ => Or.inr ⟨by omega, by omega⟩
  refine ⟨grants_counters hmay hlo, grants_counters hmay hhi, ?_⟩
  refine withstands_loadLow (by omega) fun x hx => ?_
  obtain rfl : x = v := by
    refine eq_of_byte_eq fun i hlt => ?_
    have hbelow : L.buf + lo g + i < L.buf + hi g := by
      simp only [lo, hi]
      omega
    rw [hx i hlt (hrely (hlo i hlt)), Memory.write_of_outside _ (Or.inl hbelow),
      Memory.write_bytes_add _ _ _ hlt]
  rw [if_neg (not_not.mpr rfl)]
  refine withstands_loadLow (by omega) fun y hy => ⟨?_, rfl⟩
  obtain rfl : y = x := by
    refine eq_of_byte_eq fun i hlt => ?_
    rw [hy i hlt (hrely (hhi i hlt)), Memory.write_bytes_add _ _ _ hlt]
  exact bne_self_eq_false y

theorem withstands_neighbour (hg : 2 ≤ g.mwordSize / 2) {t : Terms} (hrely : counters L ⊆ t.rely)
    (hmay : ∀ x ∈ counters L, ∀ b, t.may x b) {V : Memory} (rounds : ℕ) (v : BitVec (2 * 8))
    (clobbers : ℕ) :
    (neighbour L rounds v clobbers).Withstands t V fun r _ => ∀ c, r = some c → c = clobbers := by
  induction rounds generalizing v V with
  | zero =>
    intro c hc
    cases hc
  | succ rounds ih =>
    refine withstands_loadLow (by omega) fun running _ => ?_
    split
    · intro c hc
      exact (Option.some.inj hc).symm
    refine (withstands_round hg hrely hmay V v).bind ?_
    rintro _ V' ⟨rfl, -⟩
    exact ih _

theorem withstands_stores_round (hg : 2 ≤ g.mwordSize / 2) {t : Terms}
    (hmay : ∀ x ∈ counters L, ∀ b, t.may x b) (V : Memory) (v : BitVec (2 * 8)) :
    (round L v).Withstands t V fun _ _ => True := by
  refine ⟨grants_counters hmay (fun i _ => Or.inl ⟨by omega, by omega⟩),
    grants_counters hmay (fun i _ => Or.inr ⟨by omega, by omega⟩), ?_⟩
  refine withstands_loadLow (by omega) fun x _ => ?_
  split
  · trivial
  · exact withstands_loadLow (by omega) fun y _ => trivial

theorem withstands_stores_neighbour (hg : 2 ≤ g.mwordSize / 2) {t : Terms}
    (hmay : ∀ x ∈ counters L, ∀ b, t.may x b) {V : Memory} (rounds : ℕ) (v : BitVec (2 * 8))
    (clobbers : ℕ) : (neighbour L rounds v clobbers).Withstands t V fun _ _ => True := by
  induction rounds generalizing v clobbers V with
  | zero => trivial
  | succ rounds ih =>
    refine withstands_loadLow (by omega) fun running _ => ?_
    split
    · trivial
    · exact (withstands_stores_round hg hmay V v).bind fun _ _ _ => ih _ _

/-- The main thread stores nothing but what its calls store, and in the end it clears `running`. -/
theorem withstands_victimLoop (fn : Victim) (r : Set ℤ) (iterations : ℕ) (V : Memory) :
    (victimLoop L fn iterations).Withstands (mtTerms L fn r .main) V
      fun _ V' => ∀ i : ℕ, i < 4 → V' (L.running + i) = 0 := by
  refine (withstands_stores_callAll ?_).bind fun _ V' _ => ⟨?_, fun i hlt => ?_⟩
  · intro c hc x hx _
    obtain rfl := List.eq_of_mem_replicate hc
    exact Or.inl hx
  · intro i b hb
    have hlt := (List.getElem?_eq_some_iff.mp hb).1
    rw [length_bytes] at hlt
    exact Or.inr ⟨by omega, by omega⟩
  · rw [Memory.write_bytes_add _ _ _ hlt, byte_zero]

theorem Victim.writes_call {fn : Victim} (hfn : fn.safe) (src d : ℤ) (n : ℕ) :
    (fn.call src d n).writes g ⊆ bytesIn d n := by
  intro x hx
  cases fn with
  | lsscLft => exact hx.2
  | lsscLrt => exact hx.2
  | initLft => exact hx
  | zeroLft => exact hx
  | lsscLf => cases hfn
  | lsscLr => cases hfn
  | initLf => cases hfn
  | zeroLf => cases hfn

theorem not_mem_counters (hg : 2 ≤ g.mwordSize / 2) {fn : Victim} (hfn : fn.safe) {r : Set ℤ}
    (x : ℤ) (b : Byte) (hmay : (mtTerms L fn r .main).may x b) : x ∉ counters L := by
  have hapart := L.running_apart
  rintro (⟨hlow, hhigh⟩ | ⟨hlow, hhigh⟩)
  · simp only [lo] at hlow hhigh
    rcases hmay with hwrites | ⟨hlow', hhigh'⟩
    · obtain ⟨hlow', hhigh'⟩ := fn.writes_call hfn L.src _ _ hwrites
      simp only [off, len] at hlow' hhigh'
      omega
    · omega
  · simp only [hi] at hlow hhigh
    rcases hmay with hwrites | ⟨hlow', hhigh'⟩
    · obtain ⟨hlow', hhigh'⟩ := fn.writes_call hfn L.src _ _ hwrites
      simp only [off, len] at hlow' hhigh'
      omega
    · omega

/-- **A thread-safe routine is never found to clobber**, under any schedule, for however long the
two threads run, and whatever was in memory. -/
theorem clobbers_eq_zero (hg : 2 ≤ g.mwordSize / 2) {fn : Victim} (hfn : fn.safe) {iterations : ℕ}
    {M : Memory} {c : ℕ} (hc : Returns L fn iterations M c) : c = 0 := by
  obtain ⟨rounds, l, hret⟩ := hc
  have hstart : ∀ i, ((mtRun L fn iterations rounds M).threads i).Withstands
      (mtTerms L fn (counters L) i) (mtRun L fn iterations rounds M).memory
      fun r _ => i = .neighbour → ∀ c, r = some c → c = 0 := by
    intro i
    cases i with
    | main => exact (withstands_victimLoop fn _ iterations _).mono fun _ _ _ hne => nomatch hne
    | neighbour =>
      exact (withstands_neighbour hg subset_rfl (fun x hx _ => hx) rounds 1 0).mono
        fun _ _ hr _ => hr
  obtain ⟨V, -, hQ⟩ := (Pool.kept_run (separate_mtTerms hg (not_mem_counters hg hfn)) hstart
    l).returned hret
  exact hQ rfl c rfl

end Safe

/-! ### What is read of `running` -/

section Running

variable {L : Layout g} {fn : Victim} {M : Memory}

theorem result_loadLow_ne_zero {k : ℕ} {a : ℤ} (hk : 0 < k) (hkg : k ≤ g.mwordSize)
    (hM : M a ≠ 0) : (loadLow k a : Code g _).result (Memory.environment _) M ≠ 0 := by
  intro hzero
  apply hM
  have hbyte := congrArg (byte · 0) hzero
  change byte ((M.word g.mwordSize a).setWidth (k * 8)) 0 = _ at hbyte
  rwa [byte_setWidth _ hk, M.byte_word a (by omega), Nat.cast_zero, add_zero, byte_zero] at hbyte

theorem result_loadLow_eq_zero {k : ℕ} {a : ℤ} (hkg : k ≤ g.mwordSize)
    (hM : ∀ i : ℕ, i < k → M (a + i) = 0) :
    (loadLow k a : Code g _).result (Memory.environment _) M = 0 := by
  refine eq_of_byte_eq fun i hlt => ?_
  change byte ((M.word g.mwordSize a).setWidth (k * 8)) i = byte 0 i
  rw [byte_setWidth _ hlt, M.byte_word a (by omega), hM i hlt, byte_zero]

/-- When the main thread has returned, `running` is cleared, and stays so. -/
theorem running_cleared (hg : 2 ≤ g.mwordSize / 2) {iterations rounds : ℕ} {l : List Thread}
    {r : Option ℕ}
    (hmain : ((mtRun L fn iterations rounds M).run l).threads .main = .ret r) :
    ∀ i : ℕ, i < 4 → ((mtRun L fn iterations rounds M).run l).memory (L.running + i) = 0 := by
  have hstart : ∀ i, ((mtRun L fn iterations rounds M).threads i).Withstands (mtTerms L fn ∅ i)
      (mtRun L fn iterations rounds M).memory
      fun _ V => i = .main → ∀ i : ℕ, i < 4 → V (L.running + i) = 0 := by
    intro i
    cases i with
    | main => exact (withstands_victimLoop fn ∅ iterations _).mono fun _ _ hV _ => hV
    | neighbour =>
      exact (withstands_stores_neighbour hg (fun x hx _ => hx) rounds 1 0).mono
        fun _ _ _ hne => nomatch hne
  have hkept := Pool.kept_run (separate_mtTerms hg fun x _ _ => Set.notMem_empty x) hstart l
  obtain ⟨V, hV, hcleared⟩ := hkept.returned hmain
  intro i hlt
  rw [hV _ ⟨by omega, by omega⟩]
  exact hcleared rfl i hlt

end Running

/-! ### Runs that return -/

section Return

variable {L : Layout g} {fn : Victim} {iterations rounds k : ℕ} {M : Memory}
  {p : Code g (Option ℕ)}

/-- Before `p` returns without a result, it finds `running` set `k` times. -/
def Lasts (L : Layout g) : Code g (Option ℕ) → ℕ → Prop
  | .ret r, k => 0 < k → r ≠ none
  | .load _ a f, k => ∀ w : MWord g,
      Lasts L (f w) (if a = L.running ∧ w.setWidth (4 * 8) ≠ 0 then k - 1 else k)
  | .store _ _ p, k => Lasts L p k
  | .note _ p, k => Lasts L p k

theorem Lasts.mono (hp : Lasts L p k) {k' : ℕ} (hk : k' ≤ k) : Lasts L p k' := by
  induction p generalizing k k' with
  | ret r => exact fun hpos => hp (by omega)
  | load v a f ih => exact fun w => ih w (hp w) (by split <;> omega)
  | store a bs p ih => exact ih hp hk
  | note e p ih => exact ih hp hk

theorem Lasts.step (hp : Lasts L p k) (M : Memory) : Lasts L (p.step M).1 (k - 1) := by
  cases p with
  | ret r => exact hp.mono (Nat.sub_le k 1)
  | load v a f => exact (hp (M.word g.mwordSize a)).mono (by split <;> omega)
  | store a bs p => exact Lasts.mono (p := p) hp (Nat.sub_le k 1)
  | note e p => exact Lasts.mono (p := p) hp (Nat.sub_le k 1)

theorem Lasts.step_cleared (hg : 4 ≤ g.mwordSize) (hp : Lasts L p k)
    (hM : ∀ i : ℕ, i < 4 → M (L.running + i) = 0) : Lasts L (p.step M).1 k := by
  cases p with
  | ret r => exact hp
  | load v a f =>
    have hword := hp (M.word g.mwordSize a)
    rwa [if_neg] at hword
    rintro ⟨rfl, hset⟩
    exact hset (result_loadLow_eq_zero hg hM)
  | store a bs p => exact hp
  | note e p => exact hp

theorem lasts_loadLow {n : ℕ} {a : ℤ} {f : BitVec (n * 8) → Code g (Option ℕ)}
    (ha : a ≠ L.running) (hf : ∀ x, Lasts L (f x) k) : Lasts L (loadLow n a >>= f) k := by
  intro w
  rw [if_neg fun hw => ha hw.1]
  exact hf _

/-- In a round, nothing is read but the counters. -/
theorem lasts_round {f : Bool → Code g (Option ℕ)} (hg : 2 ≤ g.mwordSize / 2)
    (hf : ∀ b, Lasts L (f b) k) (v : BitVec (2 * 8)) : Lasts L (round L v >>= f) k := by
  have hapart := L.running_apart
  have hlo : L.buf + lo g ≠ L.running := by
    simp only [lo]
    omega
  have hhi : L.buf + hi g ≠ L.running := by
    simp only [hi]
    omega
  change Lasts L (loadLow 2 (L.buf + lo g) >>= fun x =>
    (if x ≠ v then pure true else loadLow 2 (L.buf + hi g) >>= fun y => pure (y != v)) >>= f) k
  refine lasts_loadLow hlo fun x => ?_
  split
  · exact hf true
  · exact lasts_loadLow hhi fun y => hf (y != v)

theorem lasts_neighbour (hg : 2 ≤ g.mwordSize / 2) (rounds : ℕ) (v : BitVec (2 * 8))
    (clobbers : ℕ) : Lasts L (neighbour L rounds v clobbers) rounds := by
  induction rounds generalizing v clobbers with
  | zero => exact fun hpos => absurd hpos (lt_irrefl 0)
  | succ rounds ih =>
    intro w
    change Lasts L (if w.setWidth (4 * 8) = 0 then pure (some clobbers) else round L v >>= fun b =>
      neighbour L rounds (v + 1) (if b then clobbers + 1 else clobbers)) _
    by_cases hw : w.setWidth (4 * 8) = 0
    · rw [if_pos hw]
      exact fun _ => Option.some_ne_none clobbers
    · rw [if_neg hw, if_pos ⟨rfl, hw⟩]
      exact lasts_round hg (fun b => ih _ _) v

variable {σ : ℕ → Thread}

theorem lasts_after (hg : 2 ≤ g.mwordSize / 2) (m : ℕ) :
    Lasts L (((mtRun L fn iterations rounds M).after σ m).threads .neighbour) (rounds - m) := by
  induction m with
  | zero => exact lasts_neighbour hg rounds 1 0
  | succ m ih =>
    rw [Pool.after_succ]
    by_cases hm : σ m = .neighbour
    · rw [hm, Pool.threads_turn_self]
      exact ih.step _
    · rw [Pool.threads_turn_of_ne (Ne.symm hm)]
      exact ih.mono (by omega)

/-- No more rounds are used up once the main thread has returned. -/
theorem lasts_after_returned (hg : 2 ≤ g.mwordSize / 2) {n m : ℕ} (hnm : n ≤ m) {r : Option ℕ}
    (hmain : ((mtRun L fn iterations rounds M).after σ n).threads .main = .ret r) :
    Lasts L (((mtRun L fn iterations rounds M).after σ m).threads .neighbour) (rounds - n) := by
  induction m, hnm using Nat.le_induction with
  | base => exact lasts_after hg n
  | succ m hnm ih =>
    rw [Pool.after_succ]
    by_cases hm : σ m = .neighbour
    · rw [hm, Pool.threads_turn_self]
      exact ih.step_cleared (by omega) (running_cleared hg (Pool.threads_after_of_ret hnm hmain))
    · rw [Pool.threads_turn_of_ne (Ne.symm hm)]
      exact ih

/-- **Under a fair schedule `run` returns**, whichever routine it calls, if the neighbour is given
rounds enough. -/
theorem eventually_returns (hg : 2 ≤ g.mwordSize / 2) (L : Layout g) (fn : Victim)
    (iterations : ℕ) (M : Memory) (hσ : Pool.Fair σ) :
    ∃ enough, ∀ rounds, enough ≤ rounds → ∃ c, ReturnsUnder L fn iterations rounds M σ c := by
  -- the main thread is through by turn `n`, for any number of rounds
  obtain ⟨n, hn⟩ := Pool.exists_returned hσ .main (victimLoop L fn iterations) 0
  refine ⟨n + 1, fun rounds hrounds => ?_⟩
  obtain ⟨r, hmain⟩ := hn (mtRun L fn iterations rounds M) rfl
  obtain ⟨n', hfin⟩ := Pool.eventually_finished hσ (mtRun L fn iterations rounds M)
  obtain ⟨r', hret⟩ := hfin (max n n') (le_max_right n n') .neighbour
  have hlasts := lasts_after_returned hg (le_max_left n n') hmain
  rw [hret] at hlasts
  obtain ⟨c, rfl⟩ := Option.ne_none_iff_exists'.mp (hlasts (by omega))
  refine ⟨c, max n n', fun m hm => ⟨hfin m (by omega), ?_⟩⟩
  exact Pool.threads_after_of_ret hm hret

theorem ReturnsUnder.returns {c : ℕ} (hc : ReturnsUnder L fn iterations rounds M σ c) :
    Returns L fn iterations M c := by
  obtain ⟨n, hn⟩ := hc
  exact ⟨rounds, _, (hn n le_rfl).2⟩

end Return

/-! ### The plain routines -/

section Plain

variable {L : Layout g} {fn : Victim} {M : Memory}

theorem result_mismatch {v : BitVec (2 * 8)} (hg : 2 ≤ g.mwordSize)
    (hM : M (L.buf + lo g) ≠ byte v 0) :
    (mismatch L v).result (Memory.environment _) M = true := by
  have hne : (M.word g.mwordSize (L.buf + lo g)).setWidth (2 * 8) ≠ v := by
    rintro rfl
    rw [byte_setWidth _ (by omega), M.byte_word _ (by omega), Nat.cast_zero, add_zero] at hM
    exact hM rfl
  change Program.result _ (if _ ≠ v then _ else _) M = true
  rw [Memory.environment_load, if_pos hne]
  rfl

variable {s : Pool Thread g.mwordSize Ptr Arith (Option ℕ)} {rounds c : ℕ} {v : BitVec (2 * 8)}

theorem exists_run_begin (hg : 4 ≤ g.mwordSize)
    (hs : s.threads .neighbour = neighbour L (rounds + 1) v c) (hrunning : s.memory L.running ≠ 0) :
    ∃ l, s.run l = { threads := Function.update s.threads .neighbour
                        (round L v >>= fun b => neighbour L rounds (v + 1) (if b then c + 1 else c))
                     memory := s.memory } := by
  obtain ⟨m, hm⟩ := Pool.exists_run_bind hs
  refine ⟨List.replicate m .neighbour, ?_⟩
  rw [hm, if_neg (result_loadLow_ne_zero (by omega) hg hrunning)]
  rfl

/-- A round in which the main thread does nothing. -/
theorem exists_run_round (hg : 2 ≤ g.mwordSize / 2)
    (hs : s.threads .neighbour = neighbour L (rounds + 1) v c) (hrunning : s.memory L.running ≠ 0) :
    ∃ l, s.run l = { threads := Function.update s.threads .neighbour (neighbour L rounds (v + 1) c)
                     memory := (s.memory.write (L.buf + lo g) (bytes 2 v)).write (L.buf + hi g)
                       (bytes 2 v) } := by
  obtain ⟨l, hl⟩ := exists_run_begin (by omega) hs hrunning
  have hround : (s.run l).threads .neighbour
      = round L v >>= fun b => neighbour L rounds (v + 1) (if b then c + 1 else c) := by
    rw [hl]
    dsimp only
    rw [Function.update_self]
  obtain ⟨m, hm⟩ := Pool.exists_run_bind hround
  obtain ⟨hresult, hfinal⟩ := (withstands_round (t := { rely := Set.univ, may := fun _ _ => True })
    hg (Set.subset_univ (counters L)) (fun _ _ _ => trivial) s.memory v).final
  refine ⟨l ++ List.replicate m .neighbour, ?_⟩
  rw [Pool.run_append, hm, hl]
  dsimp only
  rw [hresult, hfinal, Function.update_idem]
  rfl

theorem Victim.writes_call_of_plain (hfn : fn.safe = false) {src d : ℤ} (hne : d ≠ src) (n : ℕ)
    (x : ℤ) : x ∈ (fn.call src d n).writes g ↔ x ∈ wordsIn g.mwordSize d n := by
  cases fn with
  | lsscLf => exact and_iff_right hne
  | lsscLr => exact and_iff_right hne
  | initLf => rfl
  | zeroLf => rfl
  | lsscLft => cases hfn
  | lsscLrt => cases hfn
  | initLft => cases hfn
  | zeroLft => cases hfn

theorem Victim.target_call (fn : Victim) (src d : ℤ) (n : ℕ) :
    (fn.call src d n).target = bytesIn d n := by
  cases fn <;> rfl

theorem Layout.dest_ne_src (L : Layout g) : L.buf + off g ≠ L.src := by
  have hapart := L.src_apart
  have hpos := g.mwordSize_pos
  simp only [off]
  omega

theorem Layout.dvd_buf (L : Layout g) : (g.mwordSize : ℤ) ∣ L.buf := by
  obtain ⟨e, he, hsize⟩ := g.exists_mwordSize_eq
  have hdvd : g.mwordSize ∣ 64 := by
    rw [hsize]
    exact pow_dvd_pow 2 (show e ≤ 6 by omega)
  exact (Int.natCast_dvd_natCast.mpr hdvd).trans L.aligned

theorem lo_mem_writes (hfn : fn.safe = false) :
    L.buf + lo g ∈ (fn.call L.src (L.buf + off g) (len g)).writes g := by
  rw [Victim.writes_call_of_plain hfn L.dest_ne_src]
  have hdvd : (g.mwordSize : ℤ) ∣ L.buf + lo g := dvd_add L.dvd_buf (Int.dvd_refl _)
  have hpos := g.mwordSize_pos
  change WordMeets _ _ _ _
  rw [Int.emod_eq_zero_of_dvd hdvd, sub_zero]
  refine ⟨hdvd, L.buf + off g, ?_, ?_, le_rfl, ?_⟩ <;> simp only [lo, off, len] <;> omega

theorem running_not_mem_writes (hfn : fn.safe = false) :
    L.running ∉ (fn.call L.src (L.buf + off g) (len g)).writes g := by
  rw [Victim.writes_call_of_plain hfn L.dest_ne_src]
  rintro ⟨-, y, hlow, hhigh, hdest, hend⟩
  have hlt := emod_lt_natCast g.mwordSize L.running
  have hnonneg := emod_nonneg_natCast g.mwordSize L.running
  have hapart := L.running_apart
  simp only [off, len] at hdest hend
  omega

/-- One of the stores of a plain routine puts the counter back. -/
theorem exists_restore_victimLoop (hg : 2 ≤ g.mwordSize / 2) (hfn : fn.safe = false)
    {iterations : ℕ} (hiter : 0 < iterations) (M : Memory) :
    ∃ l a bs l', stores ((victimLoop L fn iterations).trace (Memory.environment _) M)
        = l ++ (a, bs) :: l' ∧
      (a ≤ L.buf + lo g ∧ L.buf + lo g < a + bs.length) ∧
      bs[(L.buf + lo g - a).toNat]? = some (M (L.buf + lo g)) ∧
      l.foldl (fun N s => N.write s.1 s.2) M L.running = M L.running := by
  obtain ⟨k, rfl⟩ := Nat.exists_eq_succ_of_ne_zero hiter.ne'
  have hout : L.buf + lo g ∉ (fn.call L.src (L.buf + off g) (len g)).target := by
    rw [Victim.target_call]
    rintro ⟨hlow, -⟩
    simp only [lo, off] at hlow
    omega
  obtain ⟨l, a, bs, l', hsplit, hin, hbyte, hother⟩ :=
    (fn.call L.src (L.buf + off g) (len g)).exists_restore M (lo_mem_writes hfn) hout
  obtain ⟨rest, hrest⟩ : ∃ rest, stores ((victimLoop L fn (k + 1)).trace (Memory.environment _) M)
      = stores (((fn.call L.src (L.buf + off g) (len g)).code g).trace (Memory.environment _) M)
        ++ rest :=
    ⟨_, by rw [victimLoop, List.replicate_succ, callAll, bind_assoc, trace_bind, stores_append]⟩
  refine ⟨l, a, bs, l' ++ rest, ?_, hin, hbyte, hother _ (running_not_mem_writes hfn)⟩
  rw [hrest, hsplit, List.append_assoc, List.cons_append]

/-- Between two rounds, the main thread can run to its end, and the neighbour then returns its
count. -/
theorem returns_of_between {iterations rounds k : ℕ} {l : List Thread} (hg : 2 ≤ g.mwordSize / 2)
    (hl : ((mtRun L fn iterations rounds M).run l).threads .neighbour = neighbour L (k + 1) v c) :
    Returns L fn iterations M c := by
  obtain ⟨m, hm⟩ := Pool.exists_run_alone ((mtRun L fn iterations rounds M).run l) .main
  rw [← Pool.run_append] at hm
  have hmain := congrArg (fun s => s.threads .main) hm
  dsimp only at hmain
  rw [Function.update_self] at hmain
  have hnext : ((mtRun L fn iterations rounds M).run (l ++ List.replicate m .main)).threads
      .neighbour = neighbour L (k + 1) v c := by
    rw [hm]
    exact hl
  obtain ⟨m', hm'⟩ := Pool.exists_run_bind hnext
  refine ⟨rounds, l ++ List.replicate m .main ++ List.replicate m' .neighbour, ?_⟩
  rw [Pool.run_append, hm',
    if_pos (result_loadLow_eq_zero (by omega) (running_cleared hg hmain))]
  dsimp only
  rw [Function.update_self]
  rfl

/-- After one round `lo` holds a one, and the main thread need not have begun. -/
theorem exists_run_first (hg : 2 ≤ g.mwordSize / 2) (fn : Victim) (iterations : ℕ) (M : Memory) :
    ∃ l s, (mtRun L fn iterations 3 M).run l = s ∧
      s.threads .main = victimLoop L fn iterations ∧ s.threads .neighbour = neighbour L 2 2 0 ∧
      s.memory (L.buf + lo g) = 1 ∧ s.memory L.running = 1 := by
  have hapart := L.running_apart
  have hset : (mtRun L fn iterations 3 M).memory L.running = 1 :=
    M.write_bytes_self L.running (1 : BitVec (4 * 8)) (by omega)
  obtain ⟨l, hl⟩ := exists_run_round (s := mtRun L fn iterations 3 M) hg rfl
    (by rw [hset]; decide)
  refine ⟨l, _, hl, rfl, rfl, ?_, ?_⟩
  · dsimp only
    rw [Memory.write_of_outside _ (Or.inl (by simp only [lo, hi]; omega)),
      Memory.write_bytes_self _ _ _ (by omega)]
    rfl
  · dsimp only
    rw [Memory.write_of_outside, Memory.write_of_outside, hset]
    · rw [length_bytes]
      simp only [lo]
      omega
    · rw [length_bytes]
      simp only [hi]
      omega

/-- **A plain routine is caught by some schedule**, if it is called at all. The neighbour does one
round and gets as far as its stores in the next one, while the main thread waits with the first word
of dest in a register. -/
theorem returns_one (hg : 2 ≤ g.mwordSize / 2) (hfn : fn.safe = false) {iterations : ℕ}
    (hiter : 0 < iterations) (M : Memory) : Returns L fn iterations M 1 := by
  obtain ⟨l₁, s₁, hs₁, hmain, hnext, hlo, hrunning⟩ :=
    exists_run_first (L := L) hg fn iterations M
  -- the main thread, up to the store of the word that holds `lo`
  obtain ⟨l, a, bs, l', hsplit, hin, hbyte, hkept⟩ :=
    exists_restore_victimLoop (L := L) hg hfn hiter s₁.memory
  obtain ⟨m, k, h₂⟩ := Pool.exists_run_before_store hmain hsplit
  obtain ⟨s₂, hs₂⟩ : ∃ s₂, s₁.run (List.replicate m .main) = s₂ := ⟨_, rfl⟩
  rw [hs₂] at h₂
  -- the stores of the second round
  have hnext₂ : s₂.threads .neighbour = neighbour L 2 2 0 := by
    rw [h₂]
    exact hnext
  have hrunning₂ : s₂.memory L.running ≠ 0 := by
    rw [h₂]
    dsimp only
    rw [hkept, hrunning]
    decide
  obtain ⟨l₃, h₃⟩ := exists_run_begin (by omega) hnext₂ hrunning₂
  have h₄ : (s₂.run (l₃ ++ [.neighbour, .neighbour, .main])).threads .neighbour
      = mismatch L 2 >>= fun b => neighbour L 1 3 (if b then 0 + 1 else 0) := by
    rw [Pool.run_append, h₃, h₂]
    rfl
  have hlost : (s₂.run (l₃ ++ [.neighbour, .neighbour, .main])).memory (L.buf + lo g) = 1 := by
    rw [Pool.run_append, h₃, h₂]
    change Memory.write _ a bs _ = 1
    rw [Memory.write, if_pos hin, List.getD_eq_getElem?_getD, hbyte, Option.getD_some, hlo]
  obtain ⟨m₄, h₅⟩ := Pool.exists_run_bind h₄
  rw [result_mismatch (by omega) (by rw [hlost]; decide)] at h₅
  have hcaught : ((mtRun L fn iterations 3 M).run (l₁ ++ (List.replicate m .main ++ (l₃ ++
      [.neighbour, .neighbour, .main] ++ List.replicate m₄ .neighbour)))).threads .neighbour
      = neighbour L 1 3 1 := by
    rw [Pool.run_append, hs₁, Pool.run_append, hs₂, Pool.run_append, h₅]
    rfl
  exact returns_of_between hg hcaught

end Plain

/-! ### What the program finds out -/

/-- **The gate holds**: `main` returns 0, whatever the schedules of the eight runs are, if each of
them returns. If they are fair, each of them does, given rounds enough. -/
theorem gate_holds (hg : 2 ≤ g.mwordSize / 2) (L : Layout g) (iterations : ℕ)
    (M : Victim → Memory) :
    (∀ c : Victim → ℕ, (∀ fn, Returns L fn iterations (M fn) (c fn)) → bad c = false) ∧
    ∀ σ : Victim → ℕ → Thread, (∀ fn, Pool.Fair (σ fn)) →
      ∃ enough, ∀ rounds, enough ≤ rounds →
        ∃ c : Victim → ℕ, (∀ fn, ReturnsUnder L fn iterations rounds (M fn) (σ fn) (c fn)) ∧
          bad c = false := by
  have hsafe : ∀ c : Victim → ℕ, (∀ fn, Returns L fn iterations (M fn) (c fn)) →
      bad c = false := by
    intro c hc
    rw [bad, List.any_eq_false]
    intro fn _ hbad
    obtain ⟨hfn, hne⟩ := (Bool.and_eq_true _ _).mp hbad
    exact bne_iff_ne.mp hne (clobbers_eq_zero hg hfn (hc fn))
  refine ⟨hsafe, fun σ hσ => ?_⟩
  choose enough henough using fun fn => eventually_returns hg L fn iterations (M fn) (hσ fn)
  obtain ⟨N, hN⟩ := (Set.finite_range enough).bddAbove
  refine ⟨N, fun rounds hrounds => ?_⟩
  choose c hc using fun fn => henough fn rounds ((hN ⟨fn, rfl⟩).trans hrounds)
  exact ⟨c, hc, hsafe c fun fn => (hc fn).returns⟩

/-- Addresses for the variables. -/
def layout : Layout .x86_64 where
  buf := 64
  src := 128
  running := 0
  aligned := by decide
  src_apart := by decide
  running_apart := by decide

/-- The two threads in turns. -/
def alternating (n : ℕ) : Thread := if n % 2 = 0 then .main else .neighbour

theorem fair_alternating : Pool.Fair alternating := by
  rintro (_ | _) n
  · exact ⟨2 * n, by omega, if_pos (by omega)⟩
  · exact ⟨2 * n + 1, by omega, if_neg (by omega)⟩

/-- Each plain routine is caught once, by a schedule of its own. Then the threads take turns. -/
theorem gate_holds_caught :
    (∃ c : Victim → ℕ, (∀ fn, Returns layout fn 3000000 (fun _ => 0) (c fn)) ∧
      (∀ fn, c fn = if fn.safe then 0 else 1) ∧ bad c = false) ∧
    ∃ enough, ∀ rounds, enough ≤ rounds →
      ∃ c : Victim → ℕ,
        (∀ fn, ReturnsUnder layout fn 3000000 rounds (fun _ => 0) alternating (c fn)) ∧
          bad c = false := by
  have hc : ∀ fn, Returns layout fn 3000000 (fun _ => 0) (if fn.safe then 0 else 1) := by
    intro fn
    by_cases hfn : fn.safe
    · have hbegin : ((mtRun layout fn 3000000 1 fun _ => 0).run []).threads .neighbour
          = neighbour layout 1 1 0 := rfl
      rw [if_pos hfn]
      exact returns_of_between (by decide) hbegin
    · rw [if_neg hfn]
      exact returns_one (by decide) (Bool.eq_false_iff.mpr hfn) (by decide) _
  have hgate := gate_holds (by decide) layout 3000000 fun _ _ => 0
  exact ⟨⟨_, hc, fun _ => rfl, hgate.1 _ hc⟩,
    hgate.2 (fun _ => alternating) fun _ => fair_alternating⟩

/-- **Which routines can be caught**: exactly those that the table does not call safe. -/
theorem exists_clobber_iff (hg : 2 ≤ g.mwordSize / 2) (L : Layout g) (fn : Victim) {iterations : ℕ}
    (hiter : 0 < iterations) (M : Memory) :
    (∃ c, Returns L fn iterations M c ∧ c ≠ 0) ↔ fn.safe = false := by
  constructor
  · rintro ⟨c, hc, hne⟩
    by_contra hfn
    exact hne (clobbers_eq_zero hg (Bool.not_eq_false _ ▸ hfn) hc)
  · intro hfn
    exact ⟨1, returns_one hg hfn hiter M, one_ne_zero⟩

theorem exists_clobber_iff_lsscLf :
    (∃ c, Returns layout .lsscLf 3000000 (fun _ => 0) c ∧ c ≠ 0) ↔ Victim.lsscLf.safe = false :=
  exists_clobber_iff (by decide) layout .lsscLf (by decide) _

end Lssc
