import Lssc.WordAccess.Bytes

/-!
# Programs as trees of memory accesses

A routine that moves words between registers and memory is represented by the tree of the
accesses it makes: a load continues with whatever word it is answered, a store goes on
unconditionally, and a leaf returns. What the loads answer is left to an *environment*, so that
one program has a run on a memory, a run against an oracle that makes the answers up, and so on,
and a statement about all environments is a statement about the program text.

Loads are of whole words of `h` bytes and carry a label `ι`, which tells apart the pointers of
the source they go through. Stores are rows of bytes of any length.

## Notes

Some of what a program does is no access at all and still matters: a shift by some count is fine
or undefined depending on the count. A `note` records such an evaluation and has no effect. The
meaning of a program never depends on its notes, which `bare` makes precise: it drops them, and
every run of `p.bare` is the run of `p`.

## Main definitions

* `Program`, `Access`, `Environment`
* `Program.bare` — the accesses of a program alone
* `Program.trace`, `final`, `result` — what a run does, where it ends, what it returns
* `stores`, `loads` — the stores of a trace, and its loads with a given label
* `extents` — their addresses and widths

## Main results

* `Program.bare_bind`, `trace_bind`, `final_bind`, `result_bind` — runs are compositional
* `Program.trace_bare`, `final_bare`, `result_bare` — notes change nothing
-/

namespace WordAccess

/-- A tree of accesses to words of `h` bytes: loads labelled by `ι`, notes in `ε`, results
in `α`. -/
inductive Program (h : ℕ) (ι ε α : Type) : Type
  | ret (x : α)
  | load (via : ι) (a : ℤ) (k : BitVec (h * 8) → Program h ι ε α)
  | store (a : ℤ) (bs : List Byte) (k : Program h ι ε α)
  | note (e : ε) (k : Program h ι ε α)

namespace Program

variable {h : ℕ} {ι ε α β : Type}

/-- Run `p` and continue with what it returns. -/
def bind : Program h ι ε α → (α → Program h ι ε β) → Program h ι ε β
  | ret x, f => f x
  | load v a k, f => load v a fun w => (k w).bind f
  | store a bs k, f => store a bs (k.bind f)
  | note e k, f => note e (k.bind f)

instance : Monad (Program h ι ε) where
  pure := ret
  bind := bind

theorem bind_ret (p : Program h ι ε α) : p.bind ret = p := by
  induction p with
  | ret x => rfl
  | load v a k ih => exact congrArg (load v a) (funext ih)
  | store a bs k ih => exact congrArg (store a bs) ih
  | note e k ih => exact congrArg (note e) ih

theorem bind_bind {γ : Type} (p : Program h ι ε α) (f : α → Program h ι ε β)
    (g : β → Program h ι ε γ) : (p.bind f).bind g = p.bind fun x => (f x).bind g := by
  induction p with
  | ret x => rfl
  | load v a k ih => exact congrArg (load v a) (funext ih)
  | store a bs k ih => exact congrArg (store a bs) ih
  | note e k ih => exact congrArg (note e) ih

instance : LawfulMonad (Program h ι ε) :=
  LawfulMonad.mk' _ bind_ret (fun _ _ => rfl) bind_bind

@[simp] theorem load_bind (v : ι) (a : ℤ) (k : BitVec (h * 8) → Program h ι ε α)
    (f : α → Program h ι ε β) : (load v a k >>= f) = load v a fun w => k w >>= f := rfl

@[simp] theorem store_bind (a : ℤ) (bs : List Byte) (k : Program h ι ε α)
    (f : α → Program h ι ε β) : (store a bs k >>= f) = store a bs (k >>= f) := rfl

@[simp] theorem note_bind (e : ε) (k : Program h ι ε α) (f : α → Program h ι ε β) :
    (note e k >>= f) = note e (k >>= f) := rfl

@[simp] theorem ret_bind (x : α) (f : α → Program h ι ε β) : (ret x >>= f) = f x := rfl

/-! ### Dropping the notes -/

/-- The accesses of `p`, without its notes. -/
def bare : Program h ι ε α → Program h ι ε α
  | ret x => ret x
  | load v a k => load v a fun w => (k w).bare
  | store a bs k => store a bs k.bare
  | note _ k => k.bare

@[simp] theorem bare_ret (x : α) : (ret x : Program h ι ε α).bare = ret x := rfl

@[simp] theorem bare_pure (x : α) : (pure x : Program h ι ε α).bare = pure x := rfl

@[simp] theorem bare_load (v : ι) (a : ℤ) (k : BitVec (h * 8) → Program h ι ε α) :
    (load v a k).bare = load v a fun w => (k w).bare := rfl

@[simp] theorem bare_store (a : ℤ) (bs : List Byte) (k : Program h ι ε α) :
    (store a bs k).bare = store a bs k.bare := rfl

@[simp] theorem bare_note (e : ε) (k : Program h ι ε α) : (note e k).bare = k.bare := rfl

@[simp] theorem bare_bind (p : Program h ι ε α) (f : α → Program h ι ε β) :
    (p >>= f).bare = p.bare >>= fun x => (f x).bare := by
  induction p with
  | ret x => rfl
  | load v a k ih => exact congrArg (load v a) (funext ih)
  | store a bs k ih => exact congrArg (store a bs) ih
  | note e k ih => exact ih

@[simp] theorem bare_ite (c : Prop) [Decidable c] (p q : Program h ι ε α) :
    (if c then p else q).bare = if c then p.bare else q.bare := by
  split <;> rfl

end Program

/-! ### Environments -/

/-- Where a program runs: how a load is answered, and what a load and a store leave behind. -/
structure Environment (h : ℕ) (σ : Type) where
  /-- The word a load answers, and the state after it. -/
  load : σ → ℤ → BitVec (h * 8) × σ
  /-- The state after a store. -/
  store : σ → ℤ → List Byte → σ

/-- One access of a run, with the bytes it moved in address order. -/
inductive Access (ι : Type) : Type
  | load (via : ι) (a : ℤ) (bs : List Byte)
  | store (a : ℤ) (bs : List Byte)
  deriving DecidableEq, Repr

/-- Where an access is and how wide. -/
def Access.extent {ι : Type} : Access ι → ℤ × ℕ
  | .load _ a bs => (a, bs.length)
  | .store a bs => (a, bs.length)

/-- The stores of a trace: address and bytes. -/
def stores {ι : Type} (t : List (Access ι)) : List (ℤ × List Byte) :=
  t.filterMap fun
    | .load .. => none
    | .store a bs => some (a, bs)

/-- The loads of a trace that go through `v`: address and bytes. -/
def loads {ι : Type} [DecidableEq ι] (v : ι) (t : List (Access ι)) : List (ℤ × List Byte) :=
  t.filterMap fun
    | .load via a bs => if via = v then some (a, bs) else none
    | .store .. => none

/-- Where accesses were and how wide. -/
def extents (l : List (ℤ × List Byte)) : List (ℤ × ℕ) := l.map fun s => (s.1, s.2.length)

@[simp] theorem extents_nil : extents [] = [] := rfl

@[simp] theorem extents_cons (s : ℤ × List Byte) (l : List (ℤ × List Byte)) :
    extents (s :: l) = (s.1, s.2.length) :: extents l := rfl

@[simp] theorem extents_append (l l' : List (ℤ × List Byte)) :
    extents (l ++ l') = extents l ++ extents l' := List.map_append

section Traces

variable {ι : Type} (t t' : List (Access ι))

@[simp] theorem stores_nil : stores ([] : List (Access ι)) = [] := rfl

@[simp] theorem stores_load (v : ι) (a : ℤ) (bs : List Byte) :
    stores (.load v a bs :: t) = stores t := rfl

@[simp] theorem stores_store (a : ℤ) (bs : List Byte) :
    stores (.store a bs :: t) = (a, bs) :: stores t := rfl

@[simp] theorem stores_append : stores (t ++ t') = stores t ++ stores t' :=
  List.filterMap_append

theorem mem_stores {s : ℤ × List Byte} (hs : Access.store s.1 s.2 ∈ t) : s ∈ stores t :=
  List.mem_filterMap.mpr ⟨_, hs, rfl⟩

variable [DecidableEq ι] (v : ι)

@[simp] theorem loads_nil : loads v ([] : List (Access ι)) = [] := rfl

@[simp] theorem loads_load (via : ι) (a : ℤ) (bs : List Byte) :
    loads v (.load via a bs :: t) = if via = v then (a, bs) :: loads v t else loads v t := by
  by_cases hv : via = v <;> simp [loads, hv]

@[simp] theorem loads_store (a : ℤ) (bs : List Byte) : loads v (.store a bs :: t) = loads v t :=
  rfl

@[simp] theorem loads_append : loads v (t ++ t') = loads v t ++ loads v t' :=
  List.filterMap_append

theorem mem_loads {s : ℤ × List Byte} (hs : Access.load v s.1 s.2 ∈ t) : s ∈ loads v t :=
  List.mem_filterMap.mpr ⟨_, hs, by simp⟩

/-- An access is a store or a load with some label. -/
theorem forall_extent {P : ℤ × ℕ → Prop} (hloads : ∀ v, ∀ s ∈ extents (loads v t), P s)
    (hstores : ∀ s ∈ extents (stores t), P s) : ∀ x ∈ t, P x.extent := by
  intro x hx
  cases x with
  | load v a bs => exact hloads v _ (List.mem_map_of_mem (mem_loads t v (s := (a, bs)) hx))
  | store a bs => exact hstores _ (List.mem_map_of_mem (mem_stores t (s := (a, bs)) hx))

end Traces

/-! ### Runs -/

namespace Program

variable {h : ℕ} {ι ε α β σ : Type} (E : Environment h σ)

/-- The accesses of a run from `s`, in order. -/
def trace : Program h ι ε α → σ → List (Access ι)
  | ret _, _ => []
  | load v a k, s => .load v a (bytes h (E.load s a).1) :: (k (E.load s a).1).trace (E.load s a).2
  | store a bs k, s => .store a bs :: k.trace (E.store s a bs)
  | note _ k, s => k.trace s

/-- The state a run from `s` ends in. -/
def final : Program h ι ε α → σ → σ
  | ret _, s => s
  | load _ a k, s => (k (E.load s a).1).final (E.load s a).2
  | store a bs k, s => k.final (E.store s a bs)
  | note _ k, s => k.final s

/-- What a run from `s` returns. -/
def result : Program h ι ε α → σ → α
  | ret x, _ => x
  | load _ a k, s => (k (E.load s a).1).result (E.load s a).2
  | store a bs k, s => k.result (E.store s a bs)
  | note _ k, s => k.result s

variable {E} (s : σ)

@[simp] theorem trace_ret (x : α) : (ret x : Program h ι ε α).trace E s = [] := rfl

@[simp] theorem trace_pure (x : α) : (pure x : Program h ι ε α).trace E s = [] := rfl

@[simp] theorem trace_load (v : ι) (a : ℤ) (k : BitVec (h * 8) → Program h ι ε α) :
    (load v a k).trace E s
      = .load v a (bytes h (E.load s a).1) :: (k (E.load s a).1).trace E (E.load s a).2 := rfl

@[simp] theorem trace_store (a : ℤ) (bs : List Byte) (k : Program h ι ε α) :
    (store a bs k).trace E s = .store a bs :: k.trace E (E.store s a bs) := rfl

@[simp] theorem final_ret (x : α) : (ret x : Program h ι ε α).final E s = s := rfl

@[simp] theorem final_pure (x : α) : (pure x : Program h ι ε α).final E s = s := rfl

@[simp] theorem final_load (v : ι) (a : ℤ) (k : BitVec (h * 8) → Program h ι ε α) :
    (load v a k).final E s = (k (E.load s a).1).final E (E.load s a).2 := rfl

@[simp] theorem final_store (a : ℤ) (bs : List Byte) (k : Program h ι ε α) :
    (store a bs k).final E s = k.final E (E.store s a bs) := rfl

@[simp] theorem result_pure (x : α) : (pure x : Program h ι ε α).result E s = x := rfl

@[simp] theorem result_load (v : ι) (a : ℤ) (k : BitVec (h * 8) → Program h ι ε α) :
    (load v a k).result E s = (k (E.load s a).1).result E (E.load s a).2 := rfl

@[simp] theorem result_store (a : ℤ) (bs : List Byte) (k : Program h ι ε α) :
    (store a bs k).result E s = k.result E (E.store s a bs) := rfl

theorem trace_bind (p : Program h ι ε α) (f : α → Program h ι ε β) :
    (p >>= f).trace E s = p.trace E s ++ (f (p.result E s)).trace E (p.final E s) := by
  induction p generalizing s with
  | ret x => rfl
  | load v a k ih => exact congrArg (_ :: ·) (ih _ _)
  | store a bs k ih => exact congrArg (_ :: ·) (ih _)
  | note e k ih => exact ih s

theorem final_bind (p : Program h ι ε α) (f : α → Program h ι ε β) :
    (p >>= f).final E s = (f (p.result E s)).final E (p.final E s) := by
  induction p generalizing s with
  | ret x => rfl
  | load v a k ih => exact ih _ _
  | store a bs k ih => exact ih _
  | note e k ih => exact ih s

theorem result_bind (p : Program h ι ε α) (f : α → Program h ι ε β) :
    (p >>= f).result E s = (f (p.result E s)).result E (p.final E s) := by
  induction p generalizing s with
  | ret x => rfl
  | load v a k ih => exact ih _ _
  | store a bs k ih => exact ih _
  | note e k ih => exact ih s

/-- **Notes change nothing**: neither what a run does nor where it ends. -/
theorem trace_bare (p : Program h ι ε α) : p.bare.trace E s = p.trace E s := by
  induction p generalizing s with
  | ret x => rfl
  | load v a k ih => exact congrArg (_ :: ·) (ih _ _)
  | store a bs k ih => exact congrArg (_ :: ·) (ih _)
  | note e k ih => exact ih s

theorem final_bare (p : Program h ι ε α) : p.bare.final E s = p.final E s := by
  induction p generalizing s with
  | ret x => rfl
  | load v a k ih => exact ih _ _
  | store a bs k ih => exact ih _
  | note e k ih => exact ih s

theorem result_bare (p : Program h ι ε α) : p.bare.result E s = p.result E s := by
  induction p generalizing s with
  | ret x => rfl
  | load v a k ih => exact ih _ _
  | store a bs k ih => exact ih _
  | note e k ih => exact ih s

end Program

end WordAccess
