import Lssc.Calls

/-!
# Threads that share a memory

What `README.md` promises of the thread-safe variants is a promise about threads: other threads may
use the bytes right before and right behind dest at the same time. Here the threads are there. Each
makes its calls one after the other, and they take turns access by access, in any order.

If no thread stores a byte that a call of another makes use of, then the turns do not matter: each
call has the effect it has alone, and in the end the memory is what it would be if the threads had
run one after the other. Which bytes a call makes use of and stores is `Call.footprint` and
`Call.writes`, so for the thread-safe routines it is enough that the ranges are apart, byte by byte,
and for the plain ones their words have to be.

Nothing less will do. A byte that somebody else stores while a call is going on is safe from the
call exactly if it is not one that the call stores itself, and the plain routines store bytes that
are not theirs.

## Main definitions

* `Apart` — no thread stores what another makes use of
* `launch` — threads that are about to make their calls
* `copyByPieces` — a copy that several threads share

## Main results

* `threads_isolated` — under every schedule, a thread does what it does alone
* `threads_serializable` — under a fair schedule, all return, and the order does not matter
* `never_torn` — at every moment a byte is old or final
* `poke_survives_iff` — which stores of a neighbour are safe from a call
* `copyByPieces_isCopy` — threads that copy a piece each copy the whole
-/

namespace Lssc

open WordAccess Program

variable {g : Geometry} {κ : Type}

/-- No thread stores a byte that a call of another makes use of. -/
def Apart (g : Geometry) (cs : κ → List Call) : Prop :=
  ∀ i j, i ≠ j → ∀ c ∈ cs i, ∀ d ∈ cs j, ∀ x ∈ c.footprint g, x ∉ d.writes g

/-- Threads that are about to make their calls. -/
def launch (g : Geometry) (cs : κ → List Call) (M : Memory) :
    Pool κ g.mwordSize Ptr Arith Unit where
  threads i := callAll g (cs i)
  memory := M

/-- The terms on which thread `i` runs: its calls rely on their footprints, and may store the bytes
they store. -/
def threadTerms (g : Geometry) (cs : κ → List Call) (i : κ) : Terms where
  rely := {x | ∃ c ∈ cs i, x ∈ c.footprint g}
  may x _ := ∃ c ∈ cs i, x ∈ c.writes g

section Launch

variable {cs : κ → List Call}

theorem separate_threadTerms (hcs : Apart g cs) : Pool.Separate (threadTerms g cs) := by
  rintro i j hij x _ ⟨d, hd, hwrites⟩ ⟨c, hc, hfoot⟩
  exact hcs i j hij c hc d hd x hfoot hwrites

theorem owns_threadTerms (i : κ) (x : ℤ) (b : Byte) (hmay : (threadTerms g cs i).may x b) :
    x ∈ (threadTerms g cs i).rely := by
  obtain ⟨c, hc, hx⟩ := hmay
  exact ⟨c, hc, Or.inr hx⟩

theorem withstands_launch (g : Geometry) (cs : κ → List Call) (M : Memory) (i : κ) :
    ((launch g cs M).threads i).Withstands (threadTerms g cs i) M
      fun _ V => V = finalMemory (callAll g (cs i)) M :=
  withstands_callAll (fun c hc _ hx => ⟨c, hc, hx⟩) fun c hc _ hx _ => ⟨c, hc, hx⟩

variable [DecidableEq κ]

/-- A `memcpy` to `[14, 25)`, and a `memset` of what comes right behind it. -/
def adjacent : Fin 2 → Call
  | 0 => .memcpy 14 3 11
  | 1 => .memset 25 0 7

/-- Every byte holds its address. -/
def numbered : Memory := fun x => BitVec.ofInt 8 x

/-- Two threads in turns, until the second one of `adjacent` has returned. The first one has stored
two bytes by then. -/
def halfway : List (Fin 2) := (List.range 34).map (Fin.ofNat 2)

theorem apart_adjacent (g : Geometry) : Apart g fun i => [adjacent i] := by
  rintro i j hij c hc d hd x hx hx'
  obtain rfl := List.mem_singleton.mp hc
  obtain rfl := List.mem_singleton.mp hd
  match i, j with
  | 0, 0 | 1, 1 => exact hij rfl
  | 0, 1 =>
    obtain ⟨hlow', hhigh'⟩ := hx'
    rcases hx with ⟨hlow, hhigh⟩ | ⟨-, hlow, hhigh⟩ <;> omega
  | 1, 0 =>
    obtain ⟨-, hlow', hhigh'⟩ := hx'
    rcases hx with hx | ⟨hlow, hhigh⟩
    · exact hx
    · omega

/-- **Threads do not notice each other**: under every schedule, a thread that has returned has done
to the bytes it makes use of what it does to them alone, and a byte that nobody stores is as it
was. -/
theorem threads_isolated (hcs : Apart g cs) (M : Memory) (l : List κ) :
    (∀ i, ((launch g cs M).run l).threads i = .ret () → ∀ c ∈ cs i, ∀ x ∈ c.footprint g,
      ((launch g cs M).run l).memory x = finalMemory (callAll g (cs i)) M x) ∧
    ∀ x, (∀ i, ∀ c ∈ cs i, x ∉ c.writes g) → ((launch g cs M).run l).memory x = M x := by
  have hkept := Pool.kept_run (separate_threadTerms hcs) (withstands_launch g cs M) l
  constructor
  · intro i hi c hc x hx
    obtain ⟨V, hV, rfl⟩ := hkept.returned hi
    exact hV x ⟨c, hc, hx⟩
  · intro x hx
    refine (hkept.bytes x).resolve_right ?_
    rintro ⟨i, c, hc, hwrites⟩
    exact hx i c hc hwrites

/-- The first thread is in the middle of its call. -/
theorem threads_isolated_adjacent :
    ((∀ x ∈ (adjacent 1).footprint .x86_64,
        ((launch .x86_64 (fun i => [adjacent i]) numbered).run halfway).memory x
          = finalMemory (callAll .x86_64 [adjacent 1]) numbered x) ∧
      ∀ x, (∀ i, ∀ c ∈ [adjacent i], x ∉ c.writes .x86_64) →
        ((launch .x86_64 (fun i => [adjacent i]) numbered).run halfway).memory x = numbered x) ∧
    ((launch .x86_64 (fun i => [adjacent i]) numbered).run halfway).memory 15 = 4 ∧
      ((launch .x86_64 (fun i => [adjacent i]) numbered).run halfway).memory 16 = 16 := by
  have hthm := threads_isolated (apart_adjacent .x86_64) numbered halfway
  have hret : ((launch .x86_64 (fun i => [adjacent i]) numbered).run halfway).threads 1
      = .ret () := eq_ret_of_returned (by decide +kernel)
  exact ⟨⟨hthm.1 1 hret _ (List.mem_singleton_self _), hthm.2⟩, by decide +kernel⟩

/-- **All threads return, and their order does not matter**: under a fair schedule there comes a
moment from which on the memory is what the threads leave one after the other, in whichever
order. -/
theorem threads_serializable [Finite κ] (hcs : Apart g cs) (M : Memory) {σ : ℕ → κ}
    (hσ : Pool.Fair σ) {order : List κ} (horder : order.Nodup) (hall : ∀ i, i ∈ order) :
    ∃ n, ∀ m, n ≤ m → ((launch g cs M).after σ m).Finished ∧
      ((launch g cs M).after σ m).memory
        = order.foldl (fun N i => finalMemory (callAll g (cs i)) N) M := by
  obtain ⟨n, hn⟩ := Pool.eventually_finished hσ (launch g cs M)
  refine ⟨n, fun m hm => ⟨hn m hm, ?_⟩⟩
  exact Pool.memory_eq_serial (separate_threadTerms hcs) owns_threadTerms
    (withstands_launch g cs M) horder hall (hn m hm)

theorem threads_serializable_adjacent :
    ∃ n, ∀ m, n ≤ m →
      ((launch .x86_64 (fun i => [adjacent i]) numbered).after (Fin.ofNat 2) m).Finished ∧
      ((launch .x86_64 (fun i => [adjacent i]) numbered).after (Fin.ofNat 2) m).memory
        = [1, 0].foldl (fun N i => finalMemory (callAll .x86_64 [adjacent i]) N) numbered :=
  threads_serializable (apart_adjacent _) _ (Pool.fair_ofNat 2) (by decide) (by decide)

end Launch

/-! ### While calls are going on -/

/-- The terms of a thread with one call, which stores nothing but what it is to leave. -/
def callTerms (g : Geometry) (c : κ → Call) (M : Memory) (i : κ) : Terms where
  rely := (c i).footprint g
  may x b := x ∈ (c i).writes g ∧ b = finalMemory ((c i).code g) M x

theorem separate_callTerms {c : κ → Call} (hc : Apart g fun i => [c i]) (M : Memory) :
    Pool.Separate (callTerms g c M) := by
  rintro i j hij x b ⟨hwrites, -⟩ hfoot
  exact hc i j hij (c i) (List.mem_singleton_self _) (c j) (List.mem_singleton_self _) x hfoot
    hwrites

theorem withstands_callTerms (g : Geometry) (c : κ → Call) (M : Memory) (i : κ) :
    ((launch g (fun i => [c i]) M).threads i).Withstands (callTerms g c M i) M fun _ _ => True := by
  refine Withstands.bind ((c i).withstands subset_rfl fun x hx => ⟨hx, rfl⟩) ?_
  intro _ _ _
  trivial

/-- **No byte is ever in between**: while threads make one call each, a byte is as it was at the
start, or as the call that stores it leaves it. -/
theorem never_torn [DecidableEq κ] {c : κ → Call} (hc : Apart g fun i => [c i]) (M : Memory)
    (l : List κ) (x : ℤ) :
    ((launch g (fun i => [c i]) M).run l).memory x = M x ∨
      ∃ i, x ∈ (c i).writes g ∧
        ((launch g (fun i => [c i]) M).run l).memory x = finalMemory ((c i).code g) M x :=
  (Pool.kept_run (separate_callTerms hc M) (withstands_callTerms g c M) l).bytes x

/-- Who is there while a call goes on. -/
inductive Thread : Type
  | main
  | neighbour
  deriving DecidableEq, Repr

instance : Finite Thread :=
  Finite.of_injective (· = Thread.main) fun i j hij => by cases i <;> cases j <;> simp_all

/-- A store of one byte. -/
def poke (x : ℤ) (b : Byte) : Code g Unit := .store x [b] (pure ())

/-- A call, and a neighbour who stores a byte. -/
def beside (g : Geometry) (c : Call) (x : ℤ) (b : Byte) (M : Memory) :
    Pool Thread g.mwordSize Ptr Arith Unit where
  threads
    | .main => c.code g
    | .neighbour => poke x b
  memory := M

/-- The terms of the two, if the call does not store at `x`. -/
def besideTerms (g : Geometry) (c : Call) (x : ℤ) : Thread → Terms
  | .main => { rely := ∅, may := fun y _ => y ∈ c.writes g }
  | .neighbour => { rely := {x}, may := fun y _ => y = x }

theorem separate_besideTerms {c : Call} {x : ℤ} (hx : x ∉ c.writes g) :
    Pool.Separate (besideTerms g c x) := by
  rintro (_ | _) (_ | _) hij y b hmay hrely
  · exact hij rfl
  · exact hrely
  · obtain rfl : y = x := hrely
    exact hx hmay
  · exact hij rfl

/-- **Which stores of a neighbour are safe from a call**: those to bytes that the call does not
store, and no others. A byte it does store can be lost on every memory, by some schedule. -/
theorem poke_survives_iff (g : Geometry) (c : Call) (x : ℤ) (M : Memory) :
    (∀ (b : Byte) (l : List Thread), ((beside g c x b M).run l).threads .neighbour = .ret () →
      ((beside g c x b M).run l).memory x = b) ↔ x ∉ c.writes g := by
  constructor
  · intro hsafe hx
    obtain ⟨r, hr, hin⟩ := (c.exists_store_iff (Memory.environment _) M x).mpr hx
    obtain ⟨⟨a, bs⟩, hmem, rfl⟩ := List.mem_map.mp hr
    -- the neighbour stores anything but what the call stores there
    obtain ⟨l, hret, hlost⟩ := Pool.exists_lost_update (s := beside g c x
      (bs.getD (x - a).toNat 0 + 1) M) (i := .main) (j := .neighbour) (by decide) rfl hmem hin
    rw [hsafe _ l hret, List.getD_eq_getElem?_getD] at hlost
    cases hget : bs[(x - a).toNat]? with
    | none =>
      rw [hget] at hlost
      cases hlost
    | some c =>
      rw [hget] at hlost
      have hbyte : c = c + 1 := Option.some.inj hlost
      bv_omega
  · intro hx b l hret
    have hmain : (c.code g).Withstands (besideTerms g c x .main) M fun _ _ => True :=
      c.withstands_stores fun _ hy _ => hy
    have hpoke : (poke x b : Code g Unit).Withstands (besideTerms g c x .neighbour) M
        fun _ V => V x = b := by
      constructor
      · intro i b' hb'
        obtain rfl : i = 0 := by simpa using (List.getElem?_eq_some_iff.mp hb').1
        exact add_zero x
      · exact M.write_singleton x b
    have hkept := Pool.kept_run (s := beside g c x b M) (separate_besideTerms hx)
      (Q := fun i _ V => i = .neighbour → V x = b) ?_ l
    · obtain ⟨V, hV, hQ⟩ := hkept.returned hret
      rw [hV x rfl, hQ rfl]
    · rintro (_ | _)
      · exact hmain.mono fun _ _ _ hne => nomatch hne
      · exact hpoke.mono fun _ _ hV _ => hV

/-! ### A copy that threads share -/

/-- Thread `i` copies the bytes from `cut i` to `cut (i + 1)`, in its own way. -/
def copyByPieces {k : ℕ} (way : Fin k → ℤ → ℤ → ℕ → Call) (cut : ℕ → ℕ) (dest src : ℤ)
    (i : Fin k) : List Call :=
  [way i (dest + cut i) (src + cut i) (cut (i + 1) - cut i)]

/-- The copies that are thread-safe. -/
def threadSafeCopies : List (ℤ → ℤ → ℕ → Call) := [.lsscLft, .lsscLrt, .memcpy, .memmove]

section Pieces

variable {way : ℤ → ℤ → ℕ → Call} {dest src : ℤ} {n : ℕ} {M : Memory}

theorem reads_of_mem (hway : way ∈ threadSafeCopies) : (way dest src n).reads = bytesIn src n := by
  simp only [threadSafeCopies, List.mem_cons, List.not_mem_nil, or_false] at hway
  rcases hway with rfl | rfl | rfl | rfl <;> rfl

theorem writes_of_mem (hway : way ∈ threadSafeCopies) :
    (way dest src n).writes g = {x | dest ≠ src ∧ x ∈ bytesIn dest n} := by
  simp only [threadSafeCopies, List.mem_cons, List.not_mem_nil, or_false] at hway
  rcases hway with rfl | rfl | rfl | rfl <;> rfl

theorem final_of_mem (hway : way ∈ threadSafeCopies) (hdisj : src + n ≤ dest ∨ dest + n ≤ src) :
    finalMemory ((way dest src n).code g) M = M.write dest (M.slice src n) := by
  simp only [threadSafeCopies, List.mem_cons, List.not_mem_nil, or_false] at hway
  rcases hway with rfl | rfl | rfl | rfl
  · exact final_lsscLft (by omega) M
  · exact final_lsscLrt (by omega) M
  · rw [Call.code_memcpy]
    exact final_lsscLft (by omega) M
  · rw [Call.code_memmove]
    split
    · exact final_lsscLrt (by omega) M
    · exact final_lsscLft (by omega) M

/-- Each byte is in one of the pieces. -/
theorem exists_piece {cut : ℕ → ℕ} (hzero : cut 0 = 0) {k m : ℕ} (hm : m < cut k) :
    ∃ i < k, cut i ≤ m ∧ m < cut (i + 1) := by
  induction k with
  | zero => omega
  | succ k ih =>
    by_cases hlt : m < cut k
    · obtain ⟨i, hi, hpiece⟩ := ih hlt
      exact ⟨i, by omega, hpiece⟩
    · exact ⟨k, by omega, by omega, hm⟩

end Pieces

variable {k : ℕ} {way : Fin k → ℤ → ℤ → ℕ → Call} {cut : ℕ → ℕ} {dest src : ℤ}

/-- Pieces of dest do not meet, and none meets src. -/
theorem apart_copyByPieces (hway : ∀ i, way i ∈ threadSafeCopies) (hcut : Monotone cut)
    (hdisj : src + cut k ≤ dest ∨ dest + cut k ≤ src) :
    Apart g (copyByPieces way cut dest src) := by
  rintro i j hij c hc d hd
  obtain rfl := List.mem_singleton.mp hc
  obtain rfl := List.mem_singleton.mp hd
  have hi : cut (i + 1) ≤ cut k := hcut i.isLt
  have hj : cut (j + 1) ≤ cut k := hcut j.isLt
  have hmono : cut (i + 1) ≤ cut j ∨ cut (j + 1) ≤ cut i := by
    rcases lt_or_gt_of_ne (Fin.val_ne_of_ne hij) with hlt | hlt
    · exact Or.inl (hcut hlt)
    · exact Or.inr (hcut hlt)
  rw [Call.footprint, reads_of_mem (hway i), writes_of_mem (hway i), writes_of_mem (hway j)]
  rintro x (⟨hlow, hhigh⟩ | ⟨-, hlow, hhigh⟩) ⟨-, hlow', hhigh'⟩
  · omega
  · omega

/-- **A copy that threads share**, between ranges that do not overlap: cut dest anywhere, give each
thread a piece and let it copy that with whichever thread-safe copy it likes. Under a fair schedule
the whole is copied. -/
theorem copyByPieces_isCopy (hway : ∀ i, way i ∈ threadSafeCopies) (hcut : Monotone cut)
    (hzero : cut 0 = 0) (hdisj : src + cut k ≤ dest ∨ dest + cut k ≤ src) (M : Memory)
    {σ : ℕ → Fin k} (hσ : Pool.Fair σ) :
    ∃ n, ∀ m, n ≤ m → ((launch g (copyByPieces way cut dest src) M).after σ m).Finished ∧
      Memory.IsCopy M ((launch g (copyByPieces way cut dest src) M).after σ m).memory dest src
        (cut k) := by
  obtain ⟨n, hn⟩ := Pool.eventually_finished hσ (launch g (copyByPieces way cut dest src) M)
  refine ⟨n, fun m hm => ⟨hn m hm, ?_⟩⟩
  have hkept := Pool.kept_run (separate_threadTerms (apart_copyByPieces hway hcut hdisj))
    (withstands_launch g (copyByPieces way cut dest src) M) ((List.range m).map σ)
  have hin := (hkept.finished owns_threadTerms (hn m hm)).1
  constructor
  · intro b hb
    obtain ⟨i, hi, hlow, hhigh⟩ := exists_piece hzero hb
    have hmono : cut (i + 1) ≤ cut k := hcut hi
    have hbyte := (M.isCopy_write (dest + cut i) (src + cut i) (cut (i + 1) - cut i)).inside
      (b - cut i) (by omega)
    rw [← final_of_mem (g := g) (hway ⟨i, hi⟩) (by omega), ← callAll_singleton] at hbyte
    rw [show dest + cut i + ((b - cut i : ℕ) : ℤ) = dest + b by omega,
      show src + cut i + ((b - cut i : ℕ) : ℤ) = src + b by omega] at hbyte
    rw [← hbyte]
    refine hin ⟨i, hi⟩ _ ⟨_, List.mem_singleton_self _, Or.inr ?_⟩
    rw [writes_of_mem (hway _)]
    exact ⟨by omega, by dsimp only; omega, by dsimp only; omega⟩
  · intro x hx
    refine (hkept.bytes x).resolve_right ?_
    rintro ⟨i, c, hc, hwrites⟩
    obtain rfl := List.mem_singleton.mp hc
    rw [writes_of_mem (hway i)] at hwrites
    obtain ⟨-, hlow, hhigh⟩ := hwrites
    have hmono : cut i ≤ cut (i + 1) ∧ cut (i + 1) ≤ cut k := ⟨hcut (Nat.le_succ i), hcut i.isLt⟩
    omega

/-- Ten bytes in two pieces, the second of them copied in reverse. They meet inside a word. -/
def twoPieces : Fin 2 → List Call :=
  copyByPieces (fun i => if i = 0 then .lsscLft else .lsscLrt) (5 * ·) 101 3

theorem copyByPieces_isCopy_two :
    ∃ n, ∀ m, n ≤ m →
      ((launch .x86_64 twoPieces numbered).after (Fin.ofNat 2) m).Finished ∧
      Memory.IsCopy numbered
        ((launch .x86_64 twoPieces numbered).after (Fin.ofNat 2) m).memory 101 3 10 := by
  refine copyByPieces_isCopy (k := 2) ?_ ?_ rfl (by decide) _ (Pool.fair_ofNat 2)
  · intro i
    split
    · exact List.mem_cons_self ..
    · exact List.mem_cons_of_mem _ (List.mem_cons_self ..)
  · exact fun a b hab => Nat.mul_le_mul_left 5 hab

end Lssc
