import Lssc.WordAccess.Memory

/-!
# Mirror images of programs

Reflecting the address space, `x ↦ K - 1 - x`, turns a range into a range of the same length and
reverses the order of its bytes. The mirror image of a program makes the reflected accesses: the
same kinds, in the same order, of the same widths, at reflected places and with reversed bytes.

Addresses are integers, so the reflection is defined everywhere and no hypothesis about bounds
enters anywhere below. Whatever is proved about a program for all environments is thereby proved
about its mirror image: `trace_mirror` turns a run of the one into a run of the other in the
reflected environment.

## Main definitions

* `reflectRange`, `Access.reflect`, `Memory.reflect`, `Environment.mirror`
* `Program.mirror` — the mirror image
* `Program.Mirrors` — a simulation that goes through two programs side by side

## Main results

* `Program.Mirrors.bind`, `Program.Mirrors.bare_eq`, `Program.Mirrors.run_memory` — the simulation,
  and what it gives
* `Program.trace_mirror`, `final_mirror` — runs of a mirror image, in any environment
* `Program.trace_mirror_memory`, `final_mirror_memory` — on a memory, the trace is reflected and
  so is the memory the run ends in
-/

namespace WordAccess

variable {h : ℕ} {ι ε α β σ : Type} (K : ℤ)

/-- The reflected range, its bytes in address order. -/
def reflectRange (r : ℤ × List Byte) : ℤ × List Byte := (K - r.1 - r.2.length, r.2.reverse)

/-- The reflected access. -/
def Access.reflect : Access ι → Access ι
  | .load v a bs => .load v (K - a - bs.length) bs.reverse
  | .store a bs => .store (K - a - bs.length) bs.reverse

theorem stores_map_reflect (t : List (Access ι)) :
    stores (t.map (Access.reflect K)) = (stores t).map (reflectRange K) := by
  induction t with
  | nil => rfl
  | cons x t ih => cases x <;> simp [Access.reflect, reflectRange, ih]

theorem loads_map_reflect [DecidableEq ι] (v : ι) (t : List (Access ι)) :
    loads v (t.map (Access.reflect K)) = (loads v t).map (reflectRange K) := by
  induction t with
  | nil => rfl
  | cons x t ih =>
    cases x with
    | load via a bs => by_cases hv : via = v <;> simp [Access.reflect, reflectRange, hv, ih]
    | store a bs => simp [Access.reflect, ih]

/-- The reflected range, without its bytes. -/
def reflectExtent (s : ℤ × ℕ) : ℤ × ℕ := (K - s.1 - s.2, s.2)

theorem extents_map_reflectRange (l : List (ℤ × List Byte)) :
    extents (l.map (reflectRange K)) = (extents l).map (reflectExtent K) := by
  rw [extents, extents, List.map_map, List.map_map]
  refine List.map_congr_left fun s _ => ?_
  simp [reflectRange, reflectExtent]

theorem Access.reflect_reflect (x : Access ι) : (x.reflect K).reflect K = x := by
  cases x with
  | load v a bs =>
    simp only [Access.reflect, List.reverse_reverse, List.length_reverse, Access.load.injEq,
      true_and, and_true]
    ring
  | store a bs =>
    simp only [Access.reflect, List.reverse_reverse, List.length_reverse, Access.store.injEq,
      and_true]
    ring

theorem Access.reflect_injective : Function.Injective (Access.reflect K : Access ι → Access ι) :=
  Function.LeftInverse.injective (Access.reflect_reflect K)

theorem Access.extent_reflect (x : Access ι) : (x.reflect K).extent = reflectExtent K x.extent := by
  cases x <;> simp [Access.reflect, Access.extent, reflectExtent]

/-! ### Memories -/

/-- The memory seen through the reflection. -/
def Memory.reflect (M : Memory) : Memory := fun x => M (K - 1 - x)

@[simp] theorem Memory.reflect_reflect (M : Memory) : (M.reflect K).reflect K = M := by
  funext x
  simp [Memory.reflect]

theorem Memory.word_reflect (M : Memory) (a : ℤ) :
    (M.reflect K).word h a = revBytes (M.word h (K - a - h)) := by
  refine eq_of_byte_eq fun k hk => ?_
  rw [byte_revBytes _ hk, Memory.byte_word _ _ hk, Memory.byte_word _ _ (by omega),
    Memory.reflect]
  congr 1
  omega

theorem Memory.slice_reflect (M : Memory) (a : ℤ) (n : ℕ) :
    (M.reflect K).slice (K - a - n) n = (M.slice a n).reverse := by
  apply List.ext_getElem?
  intro k
  by_cases hk : k < n
  · rw [List.getElem?_reverse (by rwa [length_slice]), getElem?_slice, getElem?_slice, if_pos hk,
      length_slice, if_pos (by omega), Memory.reflect]
    congr 2
    omega
  · rw [List.getElem?_eq_none (by rw [length_slice]; omega),
      List.getElem?_eq_none (by rw [List.length_reverse, length_slice]; omega)]

theorem Memory.reflect_write (M : Memory) (a : ℤ) (bs : List Byte) :
    (M.write (K - a - bs.length) bs.reverse).reflect K = (M.reflect K).write a bs := by
  funext x
  simp only [Memory.reflect, Memory.write, List.length_reverse, List.getD_eq_getElem?_getD]
  by_cases hx : a ≤ x ∧ x < a + bs.length
  · rw [if_pos (by omega), if_pos hx, List.getElem?_reverse (by omega)]
    congr 2
    omega
  · rw [if_neg (by omega), if_neg hx]

/-! ### Environments -/

/-- The environment seen through the reflection. -/
def Environment.mirror (E : Environment h σ) : Environment h σ where
  load s a := (revBytes (E.load s (K - a - h)).1, (E.load s (K - a - h)).2)
  store s a bs := E.store s (K - a - bs.length) bs.reverse

namespace Program

/-- The mirror image of the accesses of `p`. -/
def mirror : Program h ι ε α → Program h ι ε α
  | ret x => ret x
  | load v a k => load v (K - a - h) fun w => (k (revBytes w)).mirror
  | store a bs k => store (K - a - bs.length) bs.reverse k.mirror
  | note _ k => k.mirror

variable {K}

@[simp] theorem mirror_ret (x : α) : (ret x : Program h ι ε α).mirror K = ret x := rfl

@[simp] theorem mirror_load (v : ι) (a : ℤ) (k : BitVec (h * 8) → Program h ι ε α) :
    (load v a k).mirror K = load v (K - a - h) fun w => (k (revBytes w)).mirror K := rfl

@[simp] theorem mirror_store (a : ℤ) (bs : List Byte) (k : Program h ι ε α) :
    (store a bs k).mirror K = store (K - a - bs.length) bs.reverse (k.mirror K) := rfl

/-! ### Programs that mirror each other -/

/-- `q` makes the reflected accesses of `p`, and `R` relates what they return. Notes of either
program do not count. -/
inductive Mirrors (K : ℤ) {α β : Type} (R : α → β → Prop) :
    Program h ι ε α → Program h ι ε β → Prop
  | ret {x : α} {y : β} : R x y → Mirrors K R (ret x) (ret y)
  | load {v : ι} {a b : ℤ} {k : BitVec (h * 8) → Program h ι ε α}
      {l : BitVec (h * 8) → Program h ι ε β} :
      a + b + h = K → (∀ w, Mirrors K R (k w) (l (revBytes w))) →
        Mirrors K R (load v a k) (load v b l)
  | store {a b : ℤ} {bs : List Byte} {k : Program h ι ε α} {l : Program h ι ε β} :
      a + b + bs.length = K → Mirrors K R k l →
        Mirrors K R (store a bs k) (store b bs.reverse l)
  | noteLeft {e : ε} {k : Program h ι ε α} {l : Program h ι ε β} :
      Mirrors K R k l → Mirrors K R (note e k) l
  | noteRight {e : ε} {k : Program h ι ε α} {l : Program h ι ε β} :
      Mirrors K R k l → Mirrors K R k (note e l)

namespace Mirrors

variable {γ δ : Type} {R : α → β → Prop} {S : γ → δ → Prop} {p : Program h ι ε α}
  {q : Program h ι ε β}

theorem pure {x : α} {y : β} (hxy : R x y) :
    Mirrors K R (Pure.pure x : Program h ι ε α) (Pure.pure y) := ret hxy

/-- Related programs continued by related programs are related. -/
theorem bind {f : α → Program h ι ε γ} {f' : β → Program h ι ε δ} (hpq : Mirrors K R p q)
    (hf : ∀ x y, R x y → Mirrors K S (f x) (f' y)) : Mirrors K S (p >>= f) (q >>= f') := by
  induction hpq with
  | ret hxy => exact hf _ _ hxy
  | load hab _ ih => exact load hab ih
  | store hab _ ih => exact store hab ih
  | noteLeft _ ih => exact noteLeft ih
  | noteRight _ ih => exact noteRight ih

/-- A program that mirrors `p` and returns the same makes the accesses of the mirror image. -/
theorem bare_eq {q : Program h ι ε α} (hpq : Mirrors K Eq p q) : q.bare = p.mirror K := by
  induction hpq with
  | ret hxy => rw [bare_ret, mirror_ret, hxy]
  | @load v a b k l hab _ ih =>
    rw [bare_load, mirror_load, show K - a - h = b by omega]
    refine congrArg (Program.load v b) (funext fun w => ?_)
    rw [← ih (revBytes w), revBytes_revBytes]
  | @store a b bs k l hab _ ih =>
    rw [bare_store, mirror_store, ih, show K - a - bs.length = b by omega]
  | noteLeft _ ih => exact ih
  | noteRight _ ih => exact ih

end Mirrors

/-! ### Runs of a mirror image -/

/-- **A run of the mirror image is the reflected run in the reflected environment.** -/
theorem trace_mirror (E : Environment h σ) (p : Program h ι ε α) (s : σ) :
    (p.mirror K).trace E s = (p.trace (E.mirror K) s).map (Access.reflect K) := by
  induction p generalizing s with
  | ret x => rfl
  | load v a k ih =>
    have hword : (revBytes (E.load s (K - a - h)).1) = ((E.mirror K).load s a).1 := rfl
    simp only [mirror_load, trace_load, List.map_cons, Access.reflect, length_bytes, ih]
    rw [← hword, reverse_bytes, revBytes_revBytes]
    rfl
  | store a bs k ih => exact congrArg (_ :: ·) (ih _)
  | note e k ih => exact ih s

theorem final_mirror (E : Environment h σ) (p : Program h ι ε α) (s : σ) :
    (p.mirror K).final E s = p.final (E.mirror K) s := by
  induction p generalizing s with
  | ret x => rfl
  | load v a k ih => exact ih _ _
  | store a bs k ih => exact ih _
  | note e k ih => exact ih s

/-! ### Against an oracle -/

/-- An oracle seen through the reflection is an oracle. -/
theorem mirror_oracleEnvironment (ω : ℕ → ℤ → BitVec (h * 8)) :
    (oracleEnvironment ω).mirror K = oracleEnvironment fun t a => revBytes (ω t (K - a - h)) :=
  rfl

/-! ### On a memory -/

theorem mirror_environment_load (M : Memory) (a : ℤ) :
    ((Memory.environment h).mirror K).load M a = ((M.reflect K).word h a, M) := by
  rw [Memory.word_reflect]
  rfl

theorem reflect_mirror_environment_store (M : Memory) (a : ℤ) (bs : List Byte) :
    (((Memory.environment h).mirror K).store M a bs).reflect K = (M.reflect K).write a bs :=
  M.reflect_write K a bs

theorem trace_memory_mirror (p : Program h ι ε α) (M : Memory) :
    p.trace ((Memory.environment h).mirror K) M
      = p.trace (Memory.environment h) (M.reflect K) := by
  induction p generalizing M with
  | ret x => rfl
  | load v a k ih =>
    rw [trace_load, trace_load, mirror_environment_load, Memory.environment_load, ih]
  | store a bs k ih =>
    rw [trace_store, trace_store, ih, reflect_mirror_environment_store,
      Memory.environment_store]
  | note e k ih => exact ih M

theorem final_memory_mirror (p : Program h ι ε α) (M : Memory) :
    p.final ((Memory.environment h).mirror K) M
      = (p.final (Memory.environment h) (M.reflect K)).reflect K := by
  induction p generalizing M with
  | ret x => exact (M.reflect_reflect K).symm
  | load v a k ih =>
    rw [final_load, final_load, mirror_environment_load, Memory.environment_load, ih]
  | store a bs k ih =>
    rw [final_store, final_store, ih, reflect_mirror_environment_store,
      Memory.environment_store]
  | note e k ih => exact ih M

theorem result_memory_mirror (p : Program h ι ε α) (M : Memory) :
    p.result ((Memory.environment h).mirror K) M
      = p.result (Memory.environment h) (M.reflect K) := by
  induction p generalizing M with
  | ret x => rfl
  | load v a k ih =>
    rw [result_load, result_load, mirror_environment_load, Memory.environment_load, ih]
  | store a bs k ih =>
    rw [result_store, result_store, ih, reflect_mirror_environment_store,
      Memory.environment_store]
  | note e k ih => exact ih M

/-- **Step for step**, the mirror image does on a memory the reflection of what the program does
on the reflected memory. -/
theorem trace_mirror_memory (p : Program h ι ε α) (M : Memory) :
    (p.mirror K).trace (Memory.environment h) M
      = (p.trace (Memory.environment h) (M.reflect K)).map (Access.reflect K) := by
  rw [trace_mirror, trace_memory_mirror]

theorem final_mirror_memory (p : Program h ι ε α) (M : Memory) :
    (p.mirror K).final (Memory.environment h) M
      = (p.final (Memory.environment h) (M.reflect K)).reflect K := by
  rw [final_mirror, final_memory_mirror]

namespace Mirrors

variable {R : α → β → Prop} {p : Program h ι ε α} {q : Program h ι ε β}

/-- Programs that mirror each other run as each other's reflections, and what the runs return is
related. -/
theorem run (hpq : Mirrors K R p q) (E : Environment h σ) (s : σ) :
    R (p.result (E.mirror K) s) (q.result E s) ∧ q.final E s = p.final (E.mirror K) s ∧
      q.trace E s = (p.trace (E.mirror K) s).map (Access.reflect K) := by
  induction hpq generalizing s with
  | ret hxy => exact ⟨hxy, rfl, rfl⟩
  | @load v a b k l hab _ ih =>
    obtain rfl : b = K - a - h := by omega
    have hrun := ih (revBytes (E.load s (K - a - h)).1) (E.load s (K - a - h)).2
    rw [revBytes_revBytes] at hrun
    refine ⟨hrun.1, hrun.2.1, ?_⟩
    have hword : revBytes (E.load s (K - a - h)).1 = ((E.mirror K).load s a).1 := rfl
    rw [trace_load, trace_load, List.map_cons, hrun.2.2, Access.reflect, length_bytes, ← hword,
      reverse_bytes, revBytes_revBytes]
    rfl
  | @store a b bs k l hab _ ih =>
    obtain rfl : b = K - a - bs.length := by omega
    have hrun := ih (E.store s (K - a - bs.length) bs.reverse)
    exact ⟨hrun.1, hrun.2.1, congrArg (_ :: ·) hrun.2.2⟩
  | noteLeft _ ih => exact ih s
  | noteRight _ ih => exact ih s

/-- The same on a memory. -/
theorem run_memory (hpq : Mirrors K R p q) (M : Memory) :
    R (p.result (Memory.environment h) (M.reflect K)) (q.result (Memory.environment h) M) ∧
      q.final (Memory.environment h) M
        = (p.final (Memory.environment h) (M.reflect K)).reflect K ∧
      q.trace (Memory.environment h) M
        = (p.trace (Memory.environment h) (M.reflect K)).map (Access.reflect K) := by
  have hrun := hpq.run (Memory.environment h) M
  rwa [result_memory_mirror, final_memory_mirror, trace_memory_mirror] at hrun

end Mirrors

end Program

end WordAccess
