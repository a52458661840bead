import Lssc.WordAccess.Interference
import Mathlib.Order.Filter.AtTopBot.Basic
import Mathlib.Order.Filter.Finite

/-!
# Programs that take turns

Any number of programs over one memory, one access at a time. A *schedule* is the list of whose turn
it is, so a statement about all schedules is a statement about all interleavings of the accesses.
A turn given to a program that has returned changes nothing.

Each access is one turn: a load answers the word as it is in the memory at that moment, and a store
of a row of bytes happens at once.

## Safety

If each program withstands the interference that its terms leave open, and no program may store
what another relies on, then each of them runs under every schedule as it would alone. `Kept` is
the invariant: every program has a view of the memory that is right where it relies on it, and every
byte is as at the start or as somebody was allowed to leave it.

## Liveness

Programs are finite, so a program that gets its turn again and again returns, whatever its loads
are answered. As a load has only so many answers, there is a turn by which it has returned that
depends on nothing but the schedule. Under a fair schedule all of them return.

## Main definitions

* `Pool`, `Pool.turn`, `Pool.run` — programs, a memory, and a schedule
* `Pool.Separate`, `Pool.Kept`
* `Pool.Fair`

## Main results

* `Pool.kept_run`, `Pool.Kept.returned`, `Pool.Kept.finished`
* `Pool.exists_returned`, `Pool.eventually_finished`
* `Pool.memory_eq_serial` — programs that keep apart might as well take turns as a whole
* `Pool.exists_lost_update` — what a schedule can be made to do
-/

namespace WordAccess

variable {κ ι ε α : Type} {h : ℕ}

namespace Program

/-- One access of a program on `M`: what is left of it, and the memory after it. -/
def step (M : Memory) : Program h ι ε α → Program h ι ε α × Memory
  | ret x => (ret x, M)
  | load _ a k => (k (M.word h a), M)
  | store a bs k => (k, M.write a bs)
  | note _ k => (k, M)

/-- What a program has returned, if it has. -/
def returned : Program h ι ε α → Option α
  | ret x => some x
  | load .. | store .. | note .. => none

theorem eq_ret_of_returned {x : α} {p : Program h ι ε α} (hp : p.returned = some x) :
    p = ret x := by
  cases p with
  | ret y =>
    obtain rfl : y = x := Option.some.inj hp
    rfl
  | load v a k => cases hp
  | store a bs k => cases hp
  | note e k => cases hp

variable {t : Terms} {V M : Memory} {Q : α → Memory → Prop} {p : Program h ι ε α}

/-- An access changes no byte but to one that may be stored. -/
theorem Withstands.may_step (hp : p.Withstands t V Q) (M : Memory) (x : ℤ) :
    (p.step M).2 x = M x ∨ t.may x ((p.step M).2 x) := by
  cases p with
  | ret y => exact Or.inl rfl
  | load v a k => exact Or.inl rfl
  | note e k => exact Or.inl rfl
  | store a bs k =>
    by_cases hx : a ≤ x ∧ x < a + bs.length
    · obtain ⟨i, hi⟩ := Int.eq_ofNat_of_zero_le (sub_nonneg.mpr hx.1)
      obtain rfl : x = a + i := by omega
      have hlt : i < bs.length := by omega
      right
      change t.may _ (M.write a bs (a + i))
      rw [M.write_add hlt]
      exact hp.1 i _ (List.getElem?_eq_getElem hlt)
    · exact Or.inl (M.write_of_outside (by omega))

/-- **An access from a view that is right** leaves a view that is right. -/
theorem Withstands.step (hp : p.Withstands t V Q) (hV : ∀ x ∈ t.rely, M x = V x) :
    ∃ V', (∀ x ∈ t.rely, (p.step M).2 x = V' x) ∧ (p.step M).1.Withstands t V' Q := by
  cases p with
  | ret y => exact ⟨V, hV, hp⟩
  | load v a k =>
    refine ⟨V, hV, hp _ fun i hi hin => ?_⟩
    rw [M.byte_word a hi, hV _ hin]
  | store a bs k =>
    refine ⟨V.write a bs, fun x hx => ?_, hp.2⟩
    change M.write a bs x = V.write a bs x
    rw [Memory.write, Memory.write, hV x hx]
  | note e k => exact ⟨V, hV, hp⟩

end Program

open Program

/-- Programs that share a memory. -/
structure Pool (κ : Type) (h : ℕ) (ι ε α : Type) where
  /-- What is left of each program. -/
  threads : κ → Program h ι ε α
  memory : Memory

namespace Pool

variable [DecidableEq κ]

/-- One access of `i`. -/
def turn (s : Pool κ h ι ε α) (i : κ) : Pool κ h ι ε α where
  threads := Function.update s.threads i ((s.threads i).step s.memory).1
  memory := ((s.threads i).step s.memory).2

/-- Turns in the given order. -/
def run (s : Pool κ h ι ε α) (l : List κ) : Pool κ h ι ε α := l.foldl turn s

omit [DecidableEq κ] in
/-- Every program has returned. -/
def Finished (s : Pool κ h ι ε α) : Prop := ∀ i, ∃ x, s.threads i = .ret x

variable {s : Pool κ h ι ε α} {i j : κ}

@[simp] theorem run_nil : s.run [] = s := rfl

@[simp] theorem run_cons (i : κ) (l : List κ) : s.run (i :: l) = (s.turn i).run l := rfl

@[simp] theorem run_append (l l' : List κ) : s.run (l ++ l') = (s.run l).run l' :=
  List.foldl_append

@[simp] theorem threads_turn_self :
    (s.turn i).threads i = ((s.threads i).step s.memory).1 := Function.update_self ..

theorem memory_turn : (s.turn i).memory = ((s.threads i).step s.memory).2 := rfl

theorem threads_turn_of_ne (hij : j ≠ i) : (s.turn i).threads j = s.threads j :=
  Function.update_of_ne hij ..

/-- A program that has returned is not affected by turns any more. -/
theorem threads_run_of_ret {x : α} (hi : s.threads i = .ret x) (l : List κ) :
    (s.run l).threads i = .ret x := by
  induction l generalizing s with
  | nil => exact hi
  | cons j l ih =>
    refine ih ?_
    by_cases hij : i = j
    · subst hij
      rw [threads_turn_self, hi]
      rfl
    · rw [threads_turn_of_ne hij, hi]

/-! ### Safety -/

omit [DecidableEq κ] in
/-- Nobody may store what another relies on. -/
def Separate (t : κ → Terms) : Prop :=
  ∀ i j, i ≠ j → ∀ x b, (t j).may x b → x ∉ (t i).rely

omit [DecidableEq κ] in
/-- What is kept from `M` on: each program withstands its terms from a view that is right where it
relies on it, and each byte is as in `M` or as somebody may store it. -/
structure Kept (t : κ → Terms) (Q : κ → α → Memory → Prop) (M : Memory)
    (s : Pool κ h ι ε α) : Prop where
  views : ∀ i, ∃ V, (∀ x ∈ (t i).rely, s.memory x = V x) ∧
    (s.threads i).Withstands (t i) V (Q i)
  bytes : ∀ x, s.memory x = M x ∨ ∃ i, (t i).may x (s.memory x)

variable {t : κ → Terms} {Q : κ → α → Memory → Prop} {M : Memory}

omit [DecidableEq κ] in
theorem kept_start (hs : ∀ i, (s.threads i).Withstands (t i) s.memory (Q i)) :
    Kept t Q s.memory s where
  views i := ⟨s.memory, fun _ _ => rfl, hs i⟩
  bytes _ := Or.inl rfl

theorem Kept.turn (hsep : Separate t) (hs : Kept t Q M s) (i : κ) : Kept t Q M (s.turn i) where
  views j := by
    obtain ⟨Vi, hVi, hi⟩ := hs.views i
    by_cases hij : j = i
    · subst hij
      obtain ⟨V', hV', hstep⟩ := hi.step hVi
      refine ⟨V', hV', ?_⟩
      rwa [threads_turn_self]
    · obtain ⟨V, hV, hj⟩ := hs.views j
      refine ⟨V, fun x hx => ?_, ?_⟩
      · rw [← hV x hx]
        exact (hi.may_step s.memory x).resolve_right fun hmay => hsep j i hij x _ hmay hx
      · rwa [threads_turn_of_ne hij]
  bytes x := by
    obtain ⟨V, -, hi⟩ := hs.views i
    rcases hi.may_step s.memory x with hsame | hmay
    · change ((s.threads i).step s.memory).2 x = M x ∨ _
      rcases hs.bytes x with hold | ⟨j, hmay⟩
      · exact Or.inl (hsame.trans hold)
      · refine Or.inr ⟨j, ?_⟩
        change (t j).may x (((s.threads i).step s.memory).2 x)
        rwa [hsame]
    · exact Or.inr ⟨i, hmay⟩

/-- **Every schedule keeps what the terms promise.** -/
theorem Kept.run (hsep : Separate t) (hs : Kept t Q M s) (l : List κ) : Kept t Q M (s.run l) := by
  induction l generalizing s with
  | nil => exact hs
  | cons i l ih => exact ih (hs.turn hsep i)

theorem kept_run (hsep : Separate t) (hs : ∀ i, (s.threads i).Withstands (t i) s.memory (Q i))
    (l : List κ) : Kept t Q s.memory (s.run l) := (kept_start hs).run hsep l

omit [DecidableEq κ] in
/-- What a program that has returned leaves behind. -/
theorem Kept.returned (hs : Kept t Q M s) {x : α} (hi : s.threads i = .ret x) :
    ∃ V, (∀ y ∈ (t i).rely, s.memory y = V y) ∧ Q i x V := by
  obtain ⟨V, hV, hQ⟩ := hs.views i
  rw [hi] at hQ
  exact ⟨V, hV, hQ⟩

omit [DecidableEq κ] in
/-- **What is left when all have returned**, if each is sure to end with `W i` and relies on what it
stores: where `i` relies on it, the memory is as in `W i`, and elsewhere as at the start. -/
theorem Kept.finished {W : κ → Memory} (hs : Kept t (fun i _ V => V = W i) M s)
    (hown : ∀ i x b, (t i).may x b → x ∈ (t i).rely) (hfin : s.Finished) :
    (∀ i, ∀ x ∈ (t i).rely, s.memory x = W i x) ∧
      ∀ x, (∀ i, x ∉ (t i).rely) → s.memory x = M x := by
  constructor
  · intro i x hx
    obtain ⟨y, hy⟩ := hfin i
    obtain ⟨V, hV, rfl⟩ := hs.returned hy
    exact hV x hx
  · intro x hx
    refine (hs.bytes x).resolve_right ?_
    rintro ⟨i, hmay⟩
    exact hx i (hown i x _ hmay)

/-! ### Liveness -/

omit [DecidableEq κ] in
/-- Everybody's turn comes again and again. -/
def Fair (σ : ℕ → κ) : Prop := ∀ i n, ∃ m, n ≤ m ∧ σ m = i

omit [DecidableEq κ] in
/-- Turns that go round are fair. -/
theorem fair_ofNat (k : ℕ) [NeZero k] : Fair (Fin.ofNat k) := by
  intro i n
  refine ⟨k * n + i, ?_, ?_⟩
  · have := Nat.le_mul_of_pos_left n (Nat.pos_of_neZero k)
    omega
  · apply Fin.ext
    rw [Fin.val_ofNat, Nat.mul_add_mod, Nat.mod_eq_of_lt i.isLt]

/-- The first `n` turns of `σ`. -/
def after (s : Pool κ h ι ε α) (σ : ℕ → κ) (n : ℕ) : Pool κ h ι ε α :=
  s.run ((List.range n).map σ)

theorem after_succ (σ : ℕ → κ) (n : ℕ) : s.after σ (n + 1) = (s.after σ n).turn (σ n) := by
  rw [after, List.range_succ, List.map_append, run_append]
  rfl

variable {σ : ℕ → κ}

theorem threads_after_of_ret {x : α} {m n : ℕ} (hmn : m ≤ n)
    (hi : (s.after σ m).threads i = .ret x) : (s.after σ n).threads i = .ret x := by
  obtain ⟨d, rfl⟩ := Nat.exists_eq_add_of_le hmn
  rw [after, List.range_add, List.map_append, run_append]
  exact threads_run_of_ret hi _

/-- A program waits unchanged until its next turn, which comes. -/
theorem exists_next_turn (hσ : Fair σ) (i : κ) (n : ℕ) :
    ∃ m, n ≤ m ∧ σ m = i ∧
      ∀ s : Pool κ h ι ε α, (s.after σ m).threads i = (s.after σ n).threads i := by
  obtain ⟨m, hnm, hm⟩ := hσ i n
  obtain ⟨d, rfl⟩ := Nat.exists_eq_add_of_le hnm
  clear hnm
  induction d generalizing n with
  | zero => exact ⟨n, le_rfl, hm, fun _ => rfl⟩
  | succ d ih =>
    by_cases hn : σ n = i
    · exact ⟨n, le_rfl, hn, fun _ => rfl⟩
    · obtain ⟨m, hnm, hm', hsame⟩ := ih (n + 1) (by rwa [Nat.add_right_comm])
      refine ⟨m, by omega, hm', fun s => ?_⟩
      rw [hsame, after_succ, threads_turn_of_ne (Ne.symm hn)]

/-- **Each program returns**, by induction on what is left of it, and when it has done so depends on
nothing but the schedule. -/
theorem exists_returned (hσ : Fair σ) (i : κ) (p : Program h ι ε α) (n : ℕ) :
    ∃ m, ∀ s : Pool κ h ι ε α, (s.after σ n).threads i = p →
      ∃ x, (s.after σ m).threads i = .ret x := by
  have hnext : ∀ n, ∃ m, ∀ s : Pool κ h ι ε α, ∃ M : Memory,
      (s.after σ m).threads i = (((s.after σ n).threads i).step M).1 := by
    intro n
    obtain ⟨m, -, rfl, hsame⟩ := exists_next_turn hσ i n
    refine ⟨m + 1, fun s => ⟨(s.after σ m).memory, ?_⟩⟩
    rw [after_succ, threads_turn_self, hsame]
  induction p generalizing n with
  | ret x => exact ⟨n, fun s hs => ⟨x, hs⟩⟩
  | load v a k ih =>
    obtain ⟨m, hm⟩ := hnext n
    choose last hlast using fun w => ih w m
    -- there are only so many words that can be answered
    have hwords : Finite (BitVec (h * 8)) :=
      Finite.of_injective BitVec.toFin fun _ _ => BitVec.eq_of_toFin_eq
    obtain ⟨N, hN⟩ := (Set.finite_range last).bddAbove
    refine ⟨N, fun s hs => ?_⟩
    obtain ⟨M, hM⟩ := hm s
    rw [hs] at hM
    obtain ⟨x, hx⟩ := hlast _ s hM
    exact ⟨x, threads_after_of_ret (hN ⟨_, rfl⟩) hx⟩
  | store a bs k ih =>
    obtain ⟨m, hm⟩ := hnext n
    obtain ⟨N, hN⟩ := ih m
    refine ⟨N, fun s hs => hN s ?_⟩
    obtain ⟨M, hM⟩ := hm s
    rwa [hs] at hM
  | note e k ih =>
    obtain ⟨m, hm⟩ := hnext n
    obtain ⟨N, hN⟩ := ih m
    refine ⟨N, fun s hs => hN s ?_⟩
    obtain ⟨M, hM⟩ := hm s
    rwa [hs] at hM

/-- **Under a fair schedule all programs return.** -/
theorem eventually_finished [Finite κ] (hσ : Fair σ) (s : Pool κ h ι ε α) :
    ∃ n, ∀ m, n ≤ m → (s.after σ m).Finished := by
  rw [← Filter.eventually_atTop]
  refine Filter.eventually_all.mpr fun i => Filter.eventually_atTop.mpr ?_
  obtain ⟨n, hn⟩ := exists_returned hσ i (s.threads i) 0
  obtain ⟨x, hx⟩ := hn s rfl
  exact ⟨n, fun m hnm => ⟨x, threads_after_of_ret hnm hx⟩⟩

/-! ### Schedules that can be made -/

/-- One more turn for a program that is given all of them. -/
theorem run_replicate_succ {m : ℕ} {p : Program h ι ε α} {M : Memory}
    (hm : (s.turn i).run (List.replicate m i)
      = { threads := Function.update (s.turn i).threads i p, memory := M }) :
    s.run (List.replicate (m + 1) i)
      = { threads := Function.update s.threads i p, memory := M } := by
  rw [List.replicate_succ, run_cons, hm, turn, Function.update_idem]

/-- A program that is given all turns gets through its first part, as if it were alone. -/
theorem exists_run_bind {β : Type} {p : Program h ι ε β} {f : β → Program h ι ε α}
    (hp : s.threads i = p >>= f) :
    ∃ m, s.run (List.replicate m i) =
      { threads := Function.update s.threads i (f (p.result (Memory.environment h) s.memory))
        memory := p.final (Memory.environment h) s.memory } := by
  induction p generalizing s with
  | ret x =>
    refine ⟨0, ?_⟩
    change s = { threads := Function.update s.threads i (f x), memory := s.memory }
    rw [show f x = s.threads i from hp.symm, Function.update_eq_self]
  | load v a k ih =>
    obtain ⟨m, hm⟩ := ih (s.memory.word h a) (s := s.turn i) (by rw [threads_turn_self, hp]; rfl)
    rw [memory_turn, hp] at hm
    exact ⟨m + 1, run_replicate_succ hm⟩
  | store a bs k ih =>
    obtain ⟨m, hm⟩ := ih (s := s.turn i) (by rw [threads_turn_self, hp]; rfl)
    rw [memory_turn, hp] at hm
    exact ⟨m + 1, run_replicate_succ hm⟩
  | note e k ih =>
    obtain ⟨m, hm⟩ := ih (s := s.turn i) (by rw [threads_turn_self, hp]; rfl)
    rw [memory_turn, hp] at hm
    exact ⟨m + 1, run_replicate_succ hm⟩

/-- A program that is given all turns returns, and leaves what it leaves when it is alone. -/
theorem exists_run_alone (s : Pool κ h ι ε α) (i : κ) :
    ∃ m, s.run (List.replicate m i) =
      { threads := Function.update s.threads i
          (.ret ((s.threads i).result (Memory.environment h) s.memory))
        memory := (s.threads i).final (Memory.environment h) s.memory } :=
  exists_run_bind (bind_pure (s.threads i)).symm

/-- Programs can run one after the other, each as if it were alone. -/
theorem exists_serial_run {order : List κ} (horder : order.Nodup) (s : Pool κ h ι ε α) :
    ∃ l, (∀ i ∈ order, ∃ x, (s.run l).threads i = .ret x) ∧ (s.run l).memory
      = order.foldl (fun N i => (s.threads i).final (Memory.environment h) N) s.memory := by
  induction order generalizing s with
  | nil => exact ⟨[], fun i hi => absurd hi List.not_mem_nil, rfl⟩
  | cons i order ih =>
    obtain ⟨hi, horder⟩ := List.nodup_cons.mp horder
    obtain ⟨m, hm⟩ := exists_run_alone s i
    obtain ⟨l, hret, hmem⟩ := ih horder (s.run (List.replicate m i))
    refine ⟨List.replicate m i ++ l, ?_, ?_⟩
    · intro j hj
      rw [run_append]
      rcases List.mem_cons.mp hj with rfl | hj
      · exact ⟨_, threads_run_of_ret (by rw [hm]; exact Function.update_self ..) l⟩
      · exact hret j hj
    · rw [run_append, hmem, List.foldl_cons, hm]
      refine List.foldl_ext _ _ _ fun N j hj => ?_
      dsimp only
      rw [Function.update_of_ne (ne_of_mem_of_not_mem hj hi)]

/-- **Programs that keep apart leave what they leave one after the other**, in any order. -/
theorem memory_eq_serial {W : κ → Memory} (hsep : Separate t)
    (hown : ∀ i x b, (t i).may x b → x ∈ (t i).rely)
    (hs : ∀ i, (s.threads i).Withstands (t i) s.memory fun _ V => V = W i) {order : List κ}
    (horder : order.Nodup) (hall : ∀ i, i ∈ order) {l : List κ} (hfin : (s.run l).Finished) :
    (s.run l).memory
      = order.foldl (fun N i => (s.threads i).final (Memory.environment h) N) s.memory := by
  obtain ⟨l', hret, hmem⟩ := exists_serial_run horder s
  obtain ⟨hin, hout⟩ := (kept_run hsep hs l).finished hown hfin
  obtain ⟨hin', hout'⟩ := (kept_run hsep hs l').finished hown fun i => hret i (hall i)
  rw [← hmem]
  funext x
  by_cases hx : ∃ i, x ∈ (t i).rely
  · obtain ⟨i, hx⟩ := hx
    rw [hin i x hx, hin' i x hx]
  · rw [hout x (not_exists.mp hx), hout' x (not_exists.mp hx)]

/-- A program that is given all turns gets to any of its stores. -/
theorem exists_run_before_store {a : ℤ} {bs : List Byte} {l l' : List (ℤ × List Byte)}
    {p : Program h ι ε α} (hp : s.threads i = p)
    (hs : stores (p.trace (Memory.environment h) s.memory) = l ++ (a, bs) :: l') :
    ∃ m k, s.run (List.replicate m i) =
      { threads := Function.update s.threads i (.store a bs k)
        memory := l.foldl (fun N r => N.write r.1 r.2) s.memory } := by
  induction p generalizing s l with
  | ret x => simp at hs
  | load v b k ih =>
    obtain ⟨m, k', hm⟩ := ih (s.memory.word h b) (s := s.turn i) (l := l)
      (by rw [threads_turn_self, hp]; rfl) (by simpa [turn, hp, step] using hs)
    rw [memory_turn, hp] at hm
    exact ⟨m + 1, k', run_replicate_succ hm⟩
  | store b cs k ih =>
    rw [trace_store, stores_store] at hs
    rcases List.cons_eq_append_iff.mp hs with ⟨rfl, heq⟩ | ⟨l, rfl, heq⟩
    · obtain ⟨heq, -⟩ := List.cons.inj heq
      obtain ⟨rfl, rfl⟩ := Prod.mk.inj heq
      refine ⟨0, k, ?_⟩
      rw [← hp, Function.update_eq_self]
      rfl
    · obtain ⟨m, k', hm⟩ := ih (s := s.turn i) (l := l)
        (by rw [threads_turn_self, hp]; rfl) (by simpa [turn, hp, step] using heq)
      rw [memory_turn, hp] at hm
      exact ⟨m + 1, k', run_replicate_succ hm⟩
  | note e k ih =>
    obtain ⟨m, k', hm⟩ := ih (s := s.turn i) (l := l)
      (by rw [threads_turn_self, hp]; rfl) (by simpa [turn, hp, step, trace] using hs)
    rw [memory_turn, hp] at hm
    exact ⟨m + 1, k', run_replicate_succ hm⟩

/-- **What is stored over can be lost.** If `i` alone stores a byte at `x`, then some schedule lets
`j` store its byte there first, and `i` right after it. -/
theorem exists_lost_update (hij : i ≠ j) {x : ℤ} {b : Byte} {y : α}
    (hj : s.threads j = .store x [b] (.ret y)) {a : ℤ} {bs : List Byte}
    (hs : (a, bs) ∈ stores ((s.threads i).trace (Memory.environment h) s.memory))
    (hx : a ≤ x ∧ x < a + bs.length) :
    ∃ l, (s.run l).threads j = .ret y ∧ bs[(x - a).toNat]? = some ((s.run l).memory x) := by
  obtain ⟨l₁, l₂, hsplit⟩ := List.append_of_mem hs
  obtain ⟨m, k, hm⟩ := exists_run_before_store rfl hsplit
  refine ⟨List.replicate m i ++ [j, i], ?_, ?_⟩
  · rw [run_append, hm, run_cons, run_cons, run_nil, threads_turn_of_ne hij.symm,
      threads_turn_self]
    simp [Function.update_of_ne hij.symm, hj, step]
  · obtain ⟨c, hc⟩ := Int.eq_ofNat_of_zero_le (sub_nonneg.mpr hx.1)
    have hlt : c < bs.length := by omega
    have hstore : ∀ N : Memory, N.write a bs x = bs[c] := by
      intro N
      rw [show x = a + c by omega, N.write_add hlt]
    rw [run_append, hm, run_cons, run_cons, run_nil, hc, Int.toNat_natCast,
      List.getElem?_eq_getElem hlt]
    simp [turn, Function.update_of_ne hij, step, hstore]

end Pool

end WordAccess
