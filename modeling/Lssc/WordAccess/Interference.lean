import Lssc.WordAccess.Mirror

/-!
# A program among others

Several programs may share a memory. What one of them can rely on is then not the memory but the
part of it that nobody else changes, and what it owes the others is a bound on its own stores. The
two together are its `Terms`.

`Withstands t p V Q` says that `p` keeps its side of the terms `t` and ends with `Q`, whatever is
done outside the bytes it relies on. It says so about the program text: there is no second program
in the definition, only loads whose answers are free outside `t.rely`. The memory `V` in it is the
*view* of `p`, the memory it would have if it were alone: where it started, and its own stores. Of
the true memory it is known to be right on `t.rely` and nowhere else.

A program that is alone is a special case, so `Withstands` also says what a run on a memory does
(`Withstands.final`), and it is proved one statement at a time like `Always` and `Ensures`.

## Main definitions

* `Terms` — what is relied on, and what may be stored
* `Program.Withstands`

## Main results

* `withstands_bind`, `Withstands.mono` — the rules
* `Withstands.final`, `Withstands.may_of_mem_stores` — the run of a program that is alone
* `withstands_of_stores` — a program that is known by its stores alone
* `withstands_bare`, `withstands_mirror` — notes do not count, and mirror images withstand the
  mirror image of the interference
-/

namespace WordAccess

/-- The terms on which a program shares a memory with others. -/
structure Terms where
  /-- The bytes that nobody else changes. -/
  rely : Set ℤ
  /-- What the program may store, byte by byte. -/
  may : ℤ → Byte → Prop

/-- Whatever is stored from `a` on is something that may be stored. -/
def Terms.Grants (t : Terms) (a : ℤ) (bs : List Byte) : Prop :=
  ∀ (i : ℕ) (b : Byte), bs[i]? = some b → t.may (a + i) b

/-- The terms as they look in the mirror. -/
def Terms.reflect (K : ℤ) (t : Terms) : Terms where
  rely := {x | K - 1 - x ∈ t.rely}
  may x b := t.may (K - 1 - x) b

theorem Terms.grants_reflect {K : ℤ} {t : Terms} {a : ℤ} {bs : List Byte} :
    (t.reflect K).Grants a bs ↔ t.Grants (K - a - bs.length) bs.reverse := by
  constructor
  · intro hbs i b hb
    have hi : i < bs.length := by
      have := (List.getElem?_eq_some_iff.mp hb).1
      rwa [List.length_reverse] at this
    rw [List.getElem?_reverse hi] at hb
    have hmay := hbs _ b hb
    simp only [Terms.reflect] at hmay
    rwa [show K - a - (bs.length : ℤ) + i = K - 1 - (a + ((bs.length - 1 - i : ℕ) : ℤ)) by omega]
  · intro hbs i b hb
    have hi : i < bs.length := (List.getElem?_eq_some_iff.mp hb).1
    have hback : bs.reverse[bs.length - 1 - i]? = some b := by
      rw [List.getElem?_reverse (by omega), show bs.length - 1 - (bs.length - 1 - i) = i by omega]
      exact hb
    have hmay := hbs _ b hback
    simp only [Terms.reflect]
    rwa [show K - a - (bs.length : ℤ) + ((bs.length - 1 - i : ℕ) : ℤ) = K - 1 - (a + i) by omega]
      at hmay

namespace Program

variable {h : ℕ} {ι ε α β : Type}

/-- `p`, which sees `V`, stores what `t` grants and ends with `Q` of its result and its view then,
whatever its loads are answered for bytes it cannot rely on. -/
def Withstands (t : Terms) :
    Program h ι ε α → Memory → (α → Memory → Prop) → Prop
  | ret x, V, Q => Q x V
  | load _ a k, V, Q =>
    ∀ w, (∀ i : ℕ, i < h → a + i ∈ t.rely → byte w i = V (a + i)) → (k w).Withstands t V Q
  | store a bs k, V, Q => t.Grants a bs ∧ k.Withstands t (V.write a bs) Q
  | note _ k, V, Q => k.Withstands t V Q

variable {t : Terms} {V : Memory} {Q Q' : α → Memory → Prop}

/-! ### One rule for each construct -/

@[simp] theorem withstands_pure (x : α) :
    (pure x : Program h ι ε α).Withstands t V Q ↔ Q x V := Iff.rfl

@[simp] theorem withstands_load (v : ι) (a : ℤ) (k : BitVec (h * 8) → Program h ι ε α) :
    (load v a k).Withstands t V Q ↔
      ∀ w, (∀ i : ℕ, i < h → a + i ∈ t.rely → byte w i = V (a + i)) → (k w).Withstands t V Q :=
  Iff.rfl

@[simp] theorem withstands_store (a : ℤ) (bs : List Byte) (k : Program h ι ε α) :
    (store a bs k).Withstands t V Q ↔ t.Grants a bs ∧ k.Withstands t (V.write a bs) Q := Iff.rfl

@[simp] theorem withstands_note (e : ε) (k : Program h ι ε α) :
    (note e k).Withstands t V Q ↔ k.Withstands t V Q := Iff.rfl

/-- A program, and what follows it. -/
theorem withstands_bind {Q : β → Memory → Prop} (p : Program h ι ε α) (f : α → Program h ι ε β) :
    (p >>= f).Withstands t V Q ↔ p.Withstands t V fun x V' => (f x).Withstands t V' Q := by
  induction p generalizing V with
  | ret x => rfl
  | load v a k ih => exact forall_congr' fun w => imp_congr_right fun _ => ih w
  | store a bs k ih => exact and_congr_right fun _ => ih
  | note e k ih => exact ih

theorem Withstands.mono {p : Program h ι ε α} (hp : p.Withstands t V Q)
    (hQ : ∀ x V', Q x V' → Q' x V') : p.Withstands t V Q' := by
  induction p generalizing V with
  | ret x => exact hQ x V hp
  | load v a k ih => exact fun w hw => ih w (hp w hw)
  | store a bs k ih => exact ⟨hp.1, ih hp.2⟩
  | note e k ih => exact ih hp

/-- What follows need only be looked at for what the first part ends with. -/
theorem Withstands.bind {R : β → Memory → Prop} {p : Program h ι ε α} {f : α → Program h ι ε β}
    (hp : p.Withstands t V Q) (hf : ∀ x V', Q x V' → (f x).Withstands t V' R) :
    (p >>= f).Withstands t V R :=
  (withstands_bind p f).mpr (hp.mono hf)

/-- Notes do not count. -/
theorem withstands_bare (p : Program h ι ε α) : p.bare.Withstands t V Q ↔ p.Withstands t V Q := by
  induction p generalizing V with
  | ret x => rfl
  | load v a k ih => exact forall_congr' fun w => imp_congr_right fun _ => ih w
  | store a bs k ih => exact and_congr_right fun _ => ih
  | note e k ih => exact ih

/-! ### In the mirror -/

/-- **The mirror image of a program withstands the mirror image of what the program withstands.** -/
theorem withstands_mirror {K : ℤ} (p : Program h ι ε α) :
    (p.mirror K).Withstands t V Q
      ↔ p.Withstands (t.reflect K) (V.reflect K) fun x V' => Q x (V'.reflect K) := by
  induction p generalizing V with
  | ret x =>
    change Q x V ↔ Q x ((V.reflect K).reflect K)
    rw [Memory.reflect_reflect]
  | load v a k ih =>
    -- a word is an admissible answer if and only if its reversal is one on the other side
    have hanswer : ∀ w : BitVec (h * 8),
        (∀ i : ℕ, i < h → K - a - h + i ∈ t.rely → byte w i = V (K - a - h + i)) ↔
          ∀ i : ℕ, i < h → a + i ∈ (t.reflect K).rely →
            byte (revBytes w) i = V.reflect K (a + i) := by
      intro w
      constructor
      · intro hw i hi hin
        have hplace : K - a - h + ((h - 1 - i : ℕ) : ℤ) = K - 1 - (a + i) := by omega
        rw [byte_revBytes _ hi, hw _ (by omega) (hplace ▸ hin), hplace, Memory.reflect]
      · intro hw i hi hin
        have hplace : K - 1 - (a + ((h - 1 - i : ℕ) : ℤ)) = K - a - h + i := by omega
        have hbyte := hw (h - 1 - i) (by omega) (show K - 1 - _ ∈ t.rely from hplace ▸ hin)
        rw [byte_revBytes _ (by omega), show h - 1 - (h - 1 - i) = i by omega, Memory.reflect,
          hplace] at hbyte
        exact hbyte
    rw [mirror_load, withstands_load, withstands_load]
    constructor
    · intro hp w hw
      have hback := hp (revBytes w) ((hanswer _).mpr (by rwa [revBytes_revBytes]))
      rwa [revBytes_revBytes, ih] at hback
    · intro hp w hw
      exact (ih _).mpr (hp (revBytes w) ((hanswer w).mp hw))
  | store a bs k ih =>
    rw [mirror_store, withstands_store, withstands_store, Terms.grants_reflect, ih,
      Memory.reflect_write]
  | note e k ih => exact ih

/-! ### Alone -/

/-- **A program that withstands interference does the same when there is none.** -/
theorem Withstands.final {p : Program h ι ε α} (hp : p.Withstands t V Q) :
    Q (p.result (Memory.environment h) V) (p.final (Memory.environment h) V) := by
  induction p generalizing V with
  | ret x => exact hp
  | load v a k ih => exact ih _ (hp _ fun i hi _ => V.byte_word a hi)
  | store a bs k ih => exact ih hp.2
  | note e k ih => exact ih hp

/-- What it stores then is granted. -/
theorem Withstands.may_of_mem_stores {p : Program h ι ε α} (hp : p.Withstands t V Q)
    {s : ℤ × List Byte} (hs : s ∈ stores (p.trace (Memory.environment h) V)) :
    t.Grants s.1 s.2 := by
  induction p generalizing V with
  | ret x => cases hs
  | load v a k ih => exact ih _ (hp _ fun i hi _ => V.byte_word a hi) hs
  | store a bs k ih =>
    rcases List.mem_cons.mp hs with rfl | hs
    · exact hp.1
    · exact ih hp.2 hs
  | note e k ih => exact ih hp hs

/-! ### Where it stores -/

/-- `E`, started from `s` by the first access of a run, which is answered `w` if it is a load. -/
def startFrom {σ : Type} (E : Environment h σ) (w : BitVec (h * 8)) (s : σ) :
    Environment h (Option σ) where
  load
    | none, _ => (w, some s)
    | some s', a => ((E.load s' a).1, some (E.load s' a).2)
  store
    | none, _, _ => some s
    | some s', a, bs => some (E.store s' a bs)

theorem trace_startFrom {σ : Type} (E : Environment h σ) (w : BitVec (h * 8)) (s : σ)
    (p : Program h ι ε α) (s' : σ) : p.trace (startFrom E w s) (some s') = p.trace E s' := by
  induction p generalizing s' with
  | ret x => rfl
  | load v a k ih => exact congrArg (_ :: ·) (ih _ _)
  | store a bs k ih => exact congrArg (_ :: ·) (ih _)
  | note e k ih => exact ih s'

/-- A program that stores only what is granted, in every environment, does so without relying on
anything. -/
theorem withstands_of_stores {p : Program h ι ε α}
    (hp : ∀ {σ : Type} (E : Environment h σ) (s : σ),
      ∀ r ∈ stores (p.trace E s), t.Grants r.1 r.2) :
    p.Withstands t V fun _ _ => True := by
  induction p generalizing V with
  | ret x => trivial
  | load v a k ih =>
    intro w _
    refine ih w fun E s r hr => hp (startFrom E w s) none r ?_
    rw [← trace_startFrom E w s] at hr
    exact hr
  | store a bs k ih =>
    refine ⟨hp (Memory.environment h) V (a, bs) (List.mem_cons_self ..), ih fun E s r hr => ?_⟩
    rw [← trace_startFrom E 0 s] at hr
    exact hp (startFrom E 0 s) none r (List.mem_cons_of_mem _ hr)
  | note e k ih => exact ih hp

end Program

end WordAccess
