import Lssc.WordAccess.Greedy

/-!
# Moving bytes word by word

What a word-wise copy or fill is for, without its registers. The range to be written is cut at the
word boundaries. Each piece in turn takes its bytes from a *supply* and is handed to an *emitter*
that stores them.

The supply of a copy is a queue of bytes loaded and not yet written, together with the address of
the next word: it loads one word whenever the queue is too short for the piece, and never
otherwise. There are two emitters. `emitWord` stores whole words, filling up what is not in the
piece with the bytes that are there already. `emitUnits` stores the piece alone, cut into naturally
aligned units.

## Main definitions

* `Supply`, `queueSupply`, `constSupply`
* `emitWord`, `emitUnits`
* `deliver` — supply and emit, piece by piece
* `copyStream`, `fillWords`, `fillUnits` — the programs made of these
-/

namespace WordAccess

variable {h : ℕ} {ι ε σ τ : Type}

/-- Where the bytes come from. A supply may load but not store, and it answers a request for at
most a word with as many bytes as were asked for. -/
structure Supply (h : ℕ) (ι ε σ : Type) where
  /-- The next `n` bytes, and the supply after them. -/
  take : σ → ℕ → Program h ι ε (List Byte × σ)
  length_eq : ∀ {τ : Type} (E : Environment h τ) (q : σ) {n : ℕ} (t : τ), n ≤ h →
    ((take q n).result E t).1.length = n
  stores_eq : ∀ {τ : Type} (E : Environment h τ) (q : σ) (n : ℕ) (t : τ),
    stores ((take q n).trace E t) = []

/-- The bytes of `q`, and after them those of the words from `s` on: `(s, q)`. -/
def queueSupply (via : ι) : Supply h ι ε (ℤ × List Byte) where
  take q n :=
    if q.2.length < n then
      .load via q.1 fun x =>
        pure ((q.2 ++ bytes h x).take n, (q.1 + h, (q.2 ++ bytes h x).drop n))
    else pure (q.2.take n, (q.1, q.2.drop n))
  length_eq E q n t hn := by
    split <;> simp <;> omega
  stores_eq E q n t := by
    split <;> simp

/-- The byte `x`, over and over. -/
def constSupply (x : Byte) : Supply h ι ε Unit where
  take _ n := pure (List.replicate n x, ())
  length_eq E q n t _ := by simp
  stores_eq E q n t := by simp

/-- Store the word of `a` with the bytes from `a` on replaced by `bs`. What lies before `a` is
taken from `c`, what lies after the last byte is loaded. -/
def emitWord (via : ι) (c : BitVec (h * 8)) (a : ℤ) (bs : List Byte) : Program h ι ε Unit :=
  let j := (a % h).toNat
  if j + bs.length < h then
    .load via (a - a % h) fun c' =>
      .store (a - a % h) (bytes j c ++ bs ++ (bytes h c').drop (j + bs.length)) (pure ())
  else .store (a - a % h) (bytes j c ++ bs) (pure ())

/-- Make these stores, in order. -/
def storeAll : List (ℤ × List Byte) → Program h ι ε Unit
  | [] => pure ()
  | s :: ss => .store s.1 s.2 (storeAll ss)

/-- Store `bs` from `a` on, in naturally aligned units. -/
def emitUnits [NeZero h] (a : ℤ) (bs : List Byte) : Program h ι ε Unit :=
  storeAll ((greedyCutter h).chop a bs)

/-- Supply and emit, piece by piece. -/
def deliver (S : Supply h ι ε σ) (emit : ℤ → List Byte → Program h ι ε Unit) :
    List (ℤ × ℕ) → σ → Program h ι ε Unit
  | [], _ => pure ()
  | p :: ps, q => do
    let r ← S.take q p.2
    emit p.1 r.1
    deliver S emit ps r.2

section Programs

variable [NeZero h]

/-- Copy `[src, src + n)` to dest. Unless both are aligned, the words they start in are loaded
first, and the emitter is told what the word of dest holds. -/
def copyStream (viaSrc viaDest : ι)
    (emit : BitVec (h * 8) → ℤ → List Byte → Program h ι ε Unit) (dest src : ℤ) (n : ℕ) :
    Program h ι ε Unit :=
  if dest = src ∨ n = 0 then pure ()
  else if src % h = 0 ∧ dest % h = 0 then
    deliver (queueSupply viaSrc) (emit 0) ((wordCutter h).cuts dest n) (src, [])
  else
    .load viaSrc (src - src % h) fun x => .load viaDest (dest - dest % h) fun c =>
      deliver (queueSupply viaSrc) (emit c) ((wordCutter h).cuts dest n)
        (src - src % h + h, (bytes h x).drop (src % h).toNat)

/-- Fill `[dest, dest + n)` with `x` by storing whole words. -/
def fillWords (via : ι) (x : Byte) (dest : ℤ) (n : ℕ) : Program h ι ε Unit :=
  if n = 0 then pure ()
  else if dest % h = 0 then
    deliver (constSupply x) (emitWord via 0) ((wordCutter h).cuts dest n) ()
  else
    .load via (dest - dest % h) fun c =>
      deliver (constSupply x) (emitWord via c) ((wordCutter h).cuts dest n) ()

/-- Fill `[dest, dest + n)` with `x` and store nothing else. -/
def fillUnits (x : Byte) (dest : ℤ) (n : ℕ) : Program h ι ε Unit :=
  deliver (constSupply x) emitUnits ((wordCutter h).cuts dest n) ()

end Programs

/-! ### One piece at a time -/

theorem deliver_cons (S : Supply h ι ε σ) (emit : ℤ → List Byte → Program h ι ε Unit)
    (p : ℤ × ℕ) (ps : List (ℤ × ℕ)) (q : σ) :
    deliver S emit (p :: ps) q
      = S.take q p.2 >>= fun r => emit p.1 r.1 >>= fun _ => deliver S emit ps r.2 := rfl

theorem deliver_singleton (S : Supply h ι ε σ) (emit : ℤ → List Byte → Program h ι ε Unit)
    (p : ℤ × ℕ) (q : σ) :
    deliver S emit [p] q = S.take q p.2 >>= fun r => emit p.1 r.1 := by
  rw [deliver_cons]
  exact congrArg _ (funext fun r => bind_pure (emit p.1 r.1))

theorem queueSupply_take_of_lt (via : ι) {s : ℤ} {q : List Byte} {n : ℕ} (hq : q.length < n) :
    (queueSupply via : Supply h ι ε _).take (s, q) n = .load via s fun x =>
      pure ((q ++ bytes h x).take n, (s + h, (q ++ bytes h x).drop n)) := if_pos hq

theorem queueSupply_take_of_le (via : ι) {s : ℤ} {q : List Byte} {n : ℕ} (hq : n ≤ q.length) :
    (queueSupply via : Supply h ι ε _).take (s, q) n = pure (q.take n, (s, q.drop n)) :=
  if_neg (Nat.not_lt.mpr hq)

theorem deliver_const_cons (x : Byte) (emit : ℤ → List Byte → Program h ι ε Unit)
    (p : ℤ × ℕ) (ps : List (ℤ × ℕ)) (q : Unit) :
    deliver (constSupply x) emit (p :: ps) q
      = emit p.1 (List.replicate p.2 x) >>= fun _ => deliver (constSupply x) emit ps q := rfl

/-- One whole word from a queue that does not hold it yet. -/
theorem deliver_queue_word [NeZero h] (via : ι) (emit : ℤ → List Byte → Program h ι ε Unit)
    {s a : ℤ} {n : ℕ} {q : List Byte} (ha : (h : ℤ) ∣ a) (hq : q.length < h) (hn : h ≤ n) :
    deliver (queueSupply via) emit ((wordCutter h).cuts a n) (s, q)
      = .load via s fun x => emit a ((q ++ bytes h x).take h) >>= fun _ =>
          deliver (queueSupply via) emit ((wordCutter h).cuts (a + h) (n - h))
            (s + h, (q ++ bytes h x).drop h) := by
  have hmod : a % (h : ℤ) = (0 : ℕ) := Int.emod_eq_zero_of_dvd ha
  rw [cuts_word_cons hmod (by omega), deliver_cons, Nat.sub_zero, Nat.cast_zero, sub_zero,
    queueSupply_take_of_lt _ hq]
  rfl

/-- The first word of a fill. -/
theorem deliver_const_first [NeZero h] (x : Byte) (emit : ℤ → List Byte → Program h ι ε Unit)
    {a : ℤ} {n j : ℕ} (hj : a % h = j) (hn : 0 < n) :
    deliver (constSupply x) emit ((wordCutter h).cuts a n) ()
      = if n < h - j then emit a (List.replicate n x)
        else emit a (List.replicate (h - j) x) >>= fun _ =>
          deliver (constSupply x) emit ((wordCutter h).cuts (a - j + h) (n - (h - j))) () := by
  split
  · rw [cuts_word_single hn (by omega), deliver_singleton]
    rfl
  · rw [cuts_word_cons hj (by omega), deliver_const_cons]

/-! ### What the stores of an emitter are -/

@[simp] theorem trace_storeAll (E : Environment h τ) (ss : List (ℤ × List Byte)) (t : τ) :
    (storeAll ss : Program h ι ε Unit).trace E t = ss.map fun s => .store s.1 s.2 := by
  induction ss generalizing t with
  | nil => rfl
  | cons s ss ih => rw [storeAll, Program.trace_store, ih, List.map_cons]

theorem stores_map_store (ss : List (ℤ × List Byte)) :
    stores (ss.map fun s => (Access.store s.1 s.2 : Access ι)) = ss := by
  induction ss with
  | nil => rfl
  | cons s ss ih => rw [List.map_cons, stores_store, ih]

/-! ### Units -/

section Units

variable [NeZero h]

@[simp] theorem emitUnits_nil (a : ℤ) : (emitUnits a [] : Program h ι ε Unit) = pure () := by
  rw [emitUnits, Cutter.chop_nil]
  rfl

/-- The first unit of the low bytes of a word. -/
theorem emitUnits_bytes {a : ℤ} {n p : ℕ} (hp : 0 < p) (hn : p ≤ n)
    (hwidth : (greedyCutter h).width a n = p) (x : BitVec (h * 8)) :
    (emitUnits a (bytes n x) : Program h ι ε Unit)
      = .store a (bytes p x) (emitUnits (a + p) (bytes (n - p) (x >>> (p * 8)))) := by
  rw [emitUnits, Cutter.chop_of_pos _ _ (by rw [length_bytes]; omega), length_bytes, hwidth,
    take_bytes hn, drop_bytes hn]
  rfl

/-- An aligned word is one unit. -/
theorem emitUnits_word {a : ℤ} (ha : (h : ℤ) ∣ a) (x : BitVec (h * 8)) :
    (emitUnits a (bytes h x) : Program h ι ε Unit) = .store a (bytes h x) (pure ()) := by
  have hwidth : (greedyCutter h).width a h = h :=
    greedyCutter_width_eq (Nat.dvd_refl h) ha le_rfl fun q _ _ hq => hq
  rw [emitUnits_bytes (Nat.pos_of_neZero h) le_rfl hwidth, Nat.sub_self, bytes_zero, emitUnits_nil]

end Units

end WordAccess
