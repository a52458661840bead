import Lssc.WordAccess.Program

/-!
# What holds on every path, and what a run ensures

A path through a program is fixed by what its loads are answered. `Always P Q` says of a program
that on every path all notes satisfy `P` and the result satisfies `Q`. It is defined by recursion on
the tree, so nothing has to be known about where the program runs, and it is proved one statement
at a time: a `bind` is entered with whatever the first part always returns.

`Ensures E p s Q` is about one run. It relates what the run returns, where it ends and what it
stores, and it is proved statement by statement in the same way.

## Main definitions

* `Program.notes` — the notes of a run
* `Program.Always` — notes and results on every path
* `Program.Ensures` — result, last state and stores of a run

## Main results

* `always_bind` — a program and what follows it
* `Always.of_mem_notes`, `Always.result` — what it says of a single run
* `bind_congr_of_always` — continuations count only on what can be returned
* `ensures_bind`, `ensures_bare`
-/

namespace WordAccess.Program

variable {h : ℕ} {ι ε α β σ : Type}

/-- The notes of a run from `s`, in order. -/
def notes (E : Environment h σ) : Program h ι ε α → σ → List ε
  | ret _, _ => []
  | load _ a k, s => (k (E.load s a).1).notes E (E.load s a).2
  | store a bs k, s => k.notes E (E.store s a bs)
  | note e k, s => e :: k.notes E s

/-- Whatever the loads of `p` are answered, all its notes satisfy `P` and its result `Q`. -/
def Always (P : ε → Prop) (Q : α → Prop) : Program h ι ε α → Prop
  | ret x => Q x
  | load _ _ k => ∀ w, (k w).Always P Q
  | store _ _ k => k.Always P Q
  | note e k => P e ∧ k.Always P Q

variable {P : ε → Prop} {Q Q' : α → Prop}

/-! ### One rule for each construct -/

@[simp] theorem always_pure (x : α) : (pure x : Program h ι ε α).Always P Q ↔ Q x := Iff.rfl

@[simp] theorem always_load (v : ι) (a : ℤ) (k : BitVec (h * 8) → Program h ι ε α) :
    (load v a k).Always P Q ↔ ∀ w, (k w).Always P Q := Iff.rfl

@[simp] theorem always_store (a : ℤ) (bs : List Byte) (k : Program h ι ε α) :
    (store a bs k).Always P Q ↔ k.Always P Q := Iff.rfl

@[simp] theorem always_note (e : ε) (k : Program h ι ε α) :
    (note e k).Always P Q ↔ P e ∧ k.Always P Q := Iff.rfl

/-- A program, and what follows it on each of its paths. -/
theorem always_bind {Q : β → Prop} (p : Program h ι ε α) (f : α → Program h ι ε β) :
    (p >>= f).Always P Q ↔ p.Always P fun x => (f x).Always P Q := by
  induction p with
  | ret x => rfl
  | load v a k ih => exact forall_congr' ih
  | store a bs k ih => exact ih
  | note e k ih => exact and_congr_right fun _ => ih

theorem Always.mono {p : Program h ι ε α} (hp : p.Always P Q) (hQ : ∀ x, Q x → Q' x) :
    p.Always P Q' := by
  induction p with
  | ret x => exact hQ x hp
  | load v a k ih => exact fun w => ih w (hp w)
  | store a bs k ih => exact ih hp
  | note e k ih => exact ⟨hp.1, ih hp.2⟩

/-- What follows need only be looked at for what is always returned. -/
theorem Always.bind {R : β → Prop} {p : Program h ι ε α} {f : α → Program h ι ε β}
    (hp : p.Always P Q) (hf : ∀ x, Q x → (f x).Always P R) : (p >>= f).Always P R :=
  (always_bind p f).mpr (hp.mono hf)

theorem always_true (p : Program h ι ε α) : p.Always (fun _ => True) fun _ => True := by
  induction p with
  | ret x => trivial
  | load v a k ih => exact ih
  | store a bs k ih => exact ih
  | note e k ih => exact ⟨trivial, ih⟩

/-- Where only the result matters, the first part may do anything. -/
theorem always_then {Q : β → Prop} {p : Program h ι ε α} {f : α → Program h ι ε β}
    (hf : ∀ x, (f x).Always (fun _ => True) Q) : (p >>= f).Always (fun _ => True) Q :=
  (always_true p).bind fun x _ => hf x

/-! ### What it says of a run -/

theorem Always.of_mem_notes {p : Program h ι ε α} (hp : p.Always P Q) (E : Environment h σ) (s : σ)
    {e : ε} (he : e ∈ p.notes E s) : P e := by
  induction p generalizing s with
  | ret x => exact absurd he List.not_mem_nil
  | load v a k ih => exact ih _ (hp _) _ he
  | store a bs k ih => exact ih hp _ he
  | note e' k ih =>
    rcases List.mem_cons.mp he with rfl | he
    · exact hp.1
    · exact ih hp.2 s he

theorem Always.result {p : Program h ι ε α} (hp : p.Always P Q) (E : Environment h σ) (s : σ) :
    Q (p.result E s) := by
  induction p generalizing s with
  | ret x => exact hp
  | load v a k ih => exact ih _ (hp _) _
  | store a bs k ih => exact ih hp _
  | note e k ih => exact ih hp.2 s

/-- Two continuations that agree on all that is ever returned are the same continuation. -/
theorem bind_congr_of_always {p : Program h ι ε α} {f f' : α → Program h ι ε β}
    (hp : p.Always P Q) (hf : ∀ x, Q x → f x = f' x) : p >>= f = p >>= f' := by
  induction p with
  | ret x => exact hf x hp
  | load v a k ih => exact congrArg (load v a) (funext fun w => ih w (hp w))
  | store a bs k ih => exact congrArg (store a bs) (ih hp)
  | note e k ih => exact congrArg (note e) (ih hp.2)

/-! ### One run -/

/-- What the run of `p` from `s` returns, the state it ends in and its stores satisfy `Q`. -/
def Ensures (E : Environment h σ) (p : Program h ι ε α) (s : σ)
    (Q : α → σ → List (ℤ × List Byte) → Prop) : Prop :=
  Q (p.result E s) (p.final E s) (stores (p.trace E s))

section Ensures

variable {E : Environment h σ} {s : σ} {Q Q' : α → σ → List (ℤ × List Byte) → Prop}

@[simp] theorem ensures_pure (x : α) :
    (pure x : Program h ι ε α).Ensures E s Q ↔ Q x s [] := Iff.rfl

@[simp] theorem ensures_load (v : ι) (a : ℤ) (k : BitVec (h * 8) → Program h ι ε α) :
    (load v a k).Ensures E s Q ↔ (k (E.load s a).1).Ensures E (E.load s a).2 Q := Iff.rfl

@[simp] theorem ensures_store (a : ℤ) (bs : List Byte) (k : Program h ι ε α) :
    (store a bs k).Ensures E s Q
      ↔ k.Ensures E (E.store s a bs) fun x t l => Q x t ((a, bs) :: l) := Iff.rfl

@[simp] theorem ensures_note (e : ε) (k : Program h ι ε α) :
    (note e k).Ensures E s Q ↔ k.Ensures E s Q := Iff.rfl

theorem ensures_bind {Q : β → σ → List (ℤ × List Byte) → Prop} (p : Program h ι ε α)
    (f : α → Program h ι ε β) :
    (p >>= f).Ensures E s Q
      ↔ p.Ensures E s fun x t l => (f x).Ensures E t fun y t' l' => Q y t' (l ++ l') := by
  rw [Ensures, result_bind, final_bind, trace_bind, stores_append]
  rfl

theorem ensures_bare (p : Program h ι ε α) : p.bare.Ensures E s Q ↔ p.Ensures E s Q := by
  rw [Ensures, result_bare, final_bare, trace_bare]
  rfl

theorem Ensures.mono {p : Program h ι ε α} (hp : p.Ensures E s Q)
    (hQ : ∀ x t l, Q x t l → Q' x t l) : p.Ensures E s Q' := hQ _ _ _ hp

/-- What follows need only be looked at for what the first part ensures. -/
theorem Ensures.bind {R : β → σ → List (ℤ × List Byte) → Prop} {p : Program h ι ε α}
    {f : α → Program h ι ε β} (hp : p.Ensures E s Q)
    (hf : ∀ x t l, Q x t l → (f x).Ensures E t fun y t' l' => R y t' (l ++ l')) :
    (p >>= f).Ensures E s R :=
  (ensures_bind p f).mpr (hp.mono hf)

end Ensures

end WordAccess.Program
