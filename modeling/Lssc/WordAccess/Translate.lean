import Lssc.WordAccess.Stream

/-!
# Programs at other addresses

A program that is moved makes its accesses elsewhere, and otherwise does what it did. The loads may
move by a distance of their own for each label, the stores by another one.

A stream that is moved by whole words is a stream: where it cuts its range, and which units it
stores, depends on how the range lies in its words.

## Main definitions

* `Program.translate` — the program at other addresses

## Main results

* `Program.translate_bind`, `mirror_translate`
* `deliver_translate`, `copyStream_translate`, `fillWords_translate`, `fillUnits_translate`
-/

namespace WordAccess

variable {h : ℕ} {ι ε α β σ : Type}

namespace Program

/-- The program whose loads through `v` are moved by `δ v`, and whose stores are moved by `K`. -/
def translate (δ : ι → ℤ) (K : ℤ) : Program h ι ε α → Program h ι ε α
  | ret x => ret x
  | load v a k => load v (a + δ v) fun w => (k w).translate δ K
  | store a bs k => store (a + K) bs (k.translate δ K)
  | note e k => note e (k.translate δ K)

variable {δ : ι → ℤ} {K : ℤ}

@[simp] theorem translate_pure (x : α) :
    (pure x : Program h ι ε α).translate δ K = pure x := rfl

@[simp] theorem translate_load (v : ι) (a : ℤ) (k : BitVec (h * 8) → Program h ι ε α) :
    (load v a k).translate δ K = load v (a + δ v) fun w => (k w).translate δ K := rfl

@[simp] theorem translate_store (a : ℤ) (bs : List Byte) (k : Program h ι ε α) :
    (store a bs k).translate δ K = store (a + K) bs (k.translate δ K) := rfl

@[simp] theorem translate_bind (p : Program h ι ε α) (f : α → Program h ι ε β) :
    (p >>= f).translate δ K = p.translate δ K >>= fun x => (f x).translate δ K := by
  induction p with
  | ret x => rfl
  | load v a k ih => exact congrArg (load v (a + δ v)) (funext ih)
  | store a bs k ih => exact congrArg (store (a + K) bs) ih
  | note e k ih => exact congrArg (note e) ih

/-- The mirror image moves the other way. -/
theorem mirror_translate (C : ℤ) (p : Program h ι ε α) :
    (p.translate δ K).mirror C = (p.mirror C).translate (fun v => -δ v) (-K) := by
  induction p with
  | ret x => rfl
  | load v a k ih =>
    rw [translate_load, mirror_load, mirror_load, translate_load,
      show C - (a + δ v) - (h : ℤ) = C - a - h + -δ v by ring]
    exact congrArg _ (funext fun w => ih (revBytes w))
  | store a bs k ih =>
    rw [translate_store, mirror_store, mirror_store, translate_store, ih,
      show C - (a + K) - (bs.length : ℤ) = C - a - bs.length + -K by ring]
  | note e k ih => exact ih

theorem mirror_bare (C : ℤ) (p : Program h ι ε α) : p.bare.mirror C = p.mirror C := by
  induction p with
  | ret x => rfl
  | load v a k ih => exact congrArg (load v (C - a - h)) (funext fun w => ih (revBytes w))
  | store a bs k ih => exact congrArg (store (C - a - bs.length) bs.reverse) ih
  | note e k ih => exact ih

end Program

/-! ### Pieces -/

namespace Cutter

variable {C : Cutter} {K : ℤ}

theorem cuts_add (hC : ∀ a n, C.width (a + K) n = C.width a n) (a : ℤ) (n : ℕ) :
    C.cuts (a + K) n = (C.cuts a n).map fun s => (s.1 + K, s.2) := by
  induction a, n using Cutter.cuts.induct C with
  | case1 a => rw [cuts_zero, cuts_zero, List.map_nil]
  | case2 a n hn ih =>
    have hpos : 0 < n := Nat.pos_of_ne_zero hn
    rw [C.cuts_of_pos a hpos, C.cuts_of_pos (a + K) hpos, List.map_cons, ← ih, hC, add_right_comm]

theorem chop_add (hC : ∀ a n, C.width (a + K) n = C.width a n) (a : ℤ) (bs : List Byte) :
    C.chop (a + K) bs = (C.chop a bs).map fun s => (s.1 + K, s.2) := by
  induction a, bs using Cutter.chop.induct C with
  | case1 a bs hbs => rw [List.eq_nil_of_length_eq_zero hbs, chop_nil, chop_nil, List.map_nil]
  | case2 a bs hbs ih =>
    have hpos : 0 < bs.length := Nat.pos_of_ne_zero hbs
    rw [C.chop_of_pos a hpos, C.chop_of_pos (a + K) hpos, List.map_cons, ← ih, hC, add_right_comm]

end Cutter

theorem emod_add_of_dvd {K : ℤ} (hK : (h : ℤ) ∣ K) (a : ℤ) : (a + K) % h = a % h := by
  obtain ⟨k, rfl⟩ := hK
  exact Int.add_mul_emod_self_left a h k

section Words

variable [NeZero h] {K : ℤ}

theorem wordCutter_width_add (hK : (h : ℤ) ∣ K) (a : ℤ) (n : ℕ) :
    (wordCutter h).width (a + K) n = (wordCutter h).width a n := by
  rw [wordCutter]
  dsimp only
  rw [emod_add_of_dvd hK]

theorem greedyCutter_width_add (hK : (h : ℤ) ∣ K) (a : ℤ) (n : ℕ) :
    (greedyCutter h).width (a + K) n = (greedyCutter h).width a n := by
  rw [greedyCutter]
  dsimp only
  congr 1
  funext p
  refine propext (and_congr_right fun hp => and_congr_left' ?_)
  have hpK : (p : ℤ) ∣ K := (Int.natCast_dvd_natCast.mpr hp).trans hK
  exact Int.dvd_add_left hpK

end Words

/-! ### Streams -/

section Streams

variable [NeZero h] {δ : ι → ℤ} {K : ℤ}

omit [NeZero h] in
/-- A stream that is moved, from a supply that is moved along by `φ`. -/
theorem deliver_translate {S : Supply h ι ε σ} {emit : ℤ → List Byte → Program h ι ε Unit}
    (φ : σ → σ)
    (hS : ∀ q n, S.take (φ q) n = (S.take q n).translate δ K >>= fun r => pure (r.1, φ r.2))
    (hemit : ∀ a bs, emit (a + K) bs = (emit a bs).translate δ K) (ps : List (ℤ × ℕ)) (q : σ) :
    deliver S emit (ps.map fun s => (s.1 + K, s.2)) (φ q)
      = (deliver S emit ps q).translate δ K := by
  induction ps generalizing q with
  | nil => rfl
  | cons p ps ih =>
    rw [List.map_cons, deliver_cons, deliver_cons, hS, bind_assoc, Program.translate_bind]
    refine congrArg _ (funext fun r => ?_)
    rw [pure_bind, Program.translate_bind, hemit]
    exact congrArg _ (funext fun _ => ih r.2)

omit [NeZero h] in
theorem queueSupply_translate (v : ι) (q : ℤ × List Byte) (n : ℕ) :
    (queueSupply v : Supply h ι ε _).take (q.1 + δ v, q.2) n
      = ((queueSupply v : Supply h ι ε _).take q n).translate δ K >>=
          fun r => pure (r.1, (r.2.1 + δ v, r.2.2)) := by
  rw [queueSupply]
  dsimp only
  split
  · simp only [Program.translate_load, Program.translate_pure, Program.load_bind, pure_bind,
      add_right_comm]
  · rfl

theorem emitUnits_translate (hK : (h : ℤ) ∣ K) (a : ℤ) (bs : List Byte) :
    (emitUnits (a + K) bs : Program h ι ε Unit) = (emitUnits a bs).translate δ K := by
  rw [emitUnits, emitUnits, Cutter.chop_add (greedyCutter_width_add hK)]
  induction (greedyCutter h).chop a bs with
  | nil => rfl
  | cons s ss ih => exact congrArg (Program.store (s.1 + K) s.2) ih

omit [NeZero h] in
theorem emitWord_translate (hK : (h : ℤ) ∣ K) {w : ι} (hw : δ w = K) (c : BitVec (h * 8)) (a : ℤ)
    (bs : List Byte) :
    (emitWord w c (a + K) bs : Program h ι ε Unit) = (emitWord w c a bs).translate δ K := by
  rw [emitWord, emitWord, emod_add_of_dvd hK, add_sub_right_comm]
  split
  · rw [Program.translate_load, hw]
    rfl
  · rfl

variable {v w : ι} {dest src : ℤ} {n : ℕ}

/-- **A copy that is moved by whole words**, its source by as many as the loads through `v`. -/
theorem copyStream_translate {emit : BitVec (h * 8) → ℤ → List Byte → Program h ι ε Unit}
    (hemit : ∀ c a bs, emit c (a + K) bs = (emit c a bs).translate δ K) (hK : (h : ℤ) ∣ K)
    (hv : (h : ℤ) ∣ δ v) (hw : δ w = K) (hne : dest + K = src + δ v ↔ dest = src) :
    copyStream v w emit (dest + K) (src + δ v) n
      = (copyStream v w emit dest src n).translate δ K := by
  have hstream : ∀ (c : BitVec (h * 8)) (q : ℤ × List Byte),
      deliver (queueSupply v) (emit c) ((wordCutter h).cuts (dest + K) n) (q.1 + δ v, q.2)
        = (deliver (queueSupply v) (emit c) ((wordCutter h).cuts dest n) q).translate δ K := by
    intro c q
    rw [Cutter.cuts_add (wordCutter_width_add hK)]
    exact deliver_translate (fun q => (q.1 + δ v, q.2)) (queueSupply_translate v) (hemit c) _ q
  rw [copyStream, copyStream, emod_add_of_dvd hK, emod_add_of_dvd hv]
  simp only [hne]
  split
  · rfl
  split
  · exact hstream 0 (src, [])
  · rw [Program.translate_load, add_sub_right_comm]
    refine congrArg _ (funext fun x => ?_)
    rw [Program.translate_load, add_sub_right_comm, hw]
    refine congrArg _ (funext fun c => ?_)
    rw [← hstream, add_right_comm]

omit [NeZero h] in
theorem constSupply_translate (x : Byte) (q : Unit) (n : ℕ) :
    (constSupply x : Supply h ι ε _).take q n
      = ((constSupply x : Supply h ι ε _).take q n).translate δ K >>= fun r => pure (r.1, r.2) :=
  rfl

theorem fillUnits_translate (hK : (h : ℤ) ∣ K) (x : Byte) :
    (fillUnits x (dest + K) n : Program h ι ε Unit) = (fillUnits x dest n).translate δ K := by
  rw [fillUnits, fillUnits, Cutter.cuts_add (wordCutter_width_add hK)]
  exact deliver_translate id (constSupply_translate x) (emitUnits_translate hK) _ ()

theorem fillWords_translate (hK : (h : ℤ) ∣ K) (hw : δ w = K) (x : Byte) :
    (fillWords w x (dest + K) n : Program h ι ε Unit) = (fillWords w x dest n).translate δ K := by
  have hstream : ∀ c : BitVec (h * 8),
      (deliver (constSupply x) (emitWord w c) ((wordCutter h).cuts (dest + K) n) () :
          Program h ι ε Unit)
        = (deliver (constSupply x) (emitWord w c) ((wordCutter h).cuts dest n) ()).translate
          δ K := by
    intro c
    rw [Cutter.cuts_add (wordCutter_width_add hK)]
    exact deliver_translate id (constSupply_translate x) (emitWord_translate hK hw c) _ ()
  rw [fillWords, fillWords, emod_add_of_dvd hK]
  split
  · rfl
  split
  · exact hstream 0
  · rw [Program.translate_load, add_sub_right_comm, hw]
    exact congrArg _ (funext hstream)

end Streams

end WordAccess
