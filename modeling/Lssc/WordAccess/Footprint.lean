import Lssc.WordAccess.Stream

/-!
# What a stream touches

Where a stream stores, how wide, and which words it loads are facts about the addresses it is
given. They hold in every environment, so nothing here looks at the bytes that are moved.

The words loaded by the queue of a copy are the words of its source, no more and no fewer: a word
is loaded when a byte of it is due and never again. `loads_deliver_queue` is the general form, for
a queue that holds some bytes already.

## Main results

* `stores_copyStream_units`, `stores_fillUnits` — the greedy units of dest
* `stores_copyStream_words`, `stores_fillWords` — the words of dest
* `loads_copyStream_src` — the words of src
* `loads_copyStream_dest`, `loads_fillWords` — words of dest
-/

namespace WordAccess

variable {h : ℕ} [NeZero h] {ι ε σ τ : Type} {E : Environment h τ}

/-! ### Pieces and units -/

/-- A piece lies in one word. -/
theorem fits_of_mem_cuts_word {a : ℤ} {n : ℕ} {p : ℤ × ℕ} (hp : p ∈ (wordCutter h).cuts a n) :
    p.1 % h + p.2 ≤ h := by
  induction a, n using Cutter.cuts.induct (wordCutter h) with
  | case1 a => rw [Cutter.cuts_zero] at hp; cases hp
  | case2 a n hn ih =>
    rw [Cutter.cuts_of_pos _ _ (by omega)] at hp
    rcases List.mem_cons.mp hp with rfl | hp
    · have := emod_lt_natCast h a
      have := emod_nonneg_natCast h a
      simp only [wordCutter]
      omega
    · exact ih hp

/-- The first piece of a row is cut greedily on its own. -/
theorem chop_greedy_first (a : ℤ) (bs : List Byte) :
    (greedyCutter h).chop a bs
      = (greedyCutter h).chop a (bs.take ((wordCutter h).width a bs.length))
        ++ (greedyCutter h).chop (a + (wordCutter h).width a bs.length)
          (bs.drop ((wordCutter h).width a bs.length)) := by
  have hle := (wordCutter h).le a bs.length
  have hlen : (bs.take ((wordCutter h).width a bs.length)).length
      = (wordCutter h).width a bs.length := by
    rw [List.length_take, Nat.min_eq_left hle]
  rcases Nat.lt_or_ge ((wordCutter h).width a bs.length) bs.length with hlt | hge
  · have hend : a % h + (wordCutter h).width a bs.length = h := by
      have := emod_lt_natCast h a
      have := emod_nonneg_natCast h a
      simp only [wordCutter] at hlt ⊢
      omega
    have hsplit := chop_greedy_append (bs.take ((wordCutter h).width a bs.length))
      (bs.drop ((wordCutter h).width a bs.length)) fun _ => by rw [hlen]; exact hend
    rwa [List.take_append_drop, hlen] at hsplit
  · rw [List.drop_of_length_le hge, List.take_of_length_le hge, Cutter.chop_nil, List.append_nil]

/-- Cutting each piece greedily cuts the row greedily. -/
theorem flatMap_chop_greedy (a : ℤ) (bs : List Byte) :
    ((wordCutter h).chop a bs).flatMap (fun s => (greedyCutter h).chop s.1 s.2)
      = (greedyCutter h).chop a bs := by
  induction a, bs using Cutter.chop.induct (wordCutter h) with
  | case1 a bs hbs => rw [List.eq_nil_of_length_eq_zero hbs]; simp
  | case2 a bs hbs ih =>
    rw [Cutter.chop_of_pos _ a (by omega), List.flatMap_cons, ih, ← chop_greedy_first]

theorem flatMap_cuts_greedy (a : ℤ) (n : ℕ) :
    ((wordCutter h).cuts a n).flatMap (fun s => (greedyCutter h).cuts s.1 s.2)
      = (greedyCutter h).cuts a n := by
  have hchop := congrArg extents (flatMap_chop_greedy (h := h) a (List.replicate n 0))
  rw [Cutter.extents_chop, List.length_replicate] at hchop
  rw [← hchop]
  have hword := (wordCutter h).extents_chop a (List.replicate n 0)
  rw [List.length_replicate] at hword
  rw [← hword, extents, extents, List.flatMap_map, List.map_flatMap]
  refine List.flatMap_congr fun s _ => ?_
  exact ((greedyCutter h).extents_chop s.1 s.2).symm

/-! ### Emitters -/

@[simp] theorem stores_emitUnits (a : ℤ) (bs : List Byte) (t : τ) :
    stores ((emitUnits a bs : Program h ι ε Unit).trace E t) = (greedyCutter h).chop a bs := by
  rw [emitUnits, trace_storeAll, stores_map_store]

theorem loads_emitUnits [DecidableEq ι] (v : ι) (a : ℤ) (bs : List Byte) (t : τ) :
    loads v ((emitUnits a bs : Program h ι ε Unit).trace E t) = [] := by
  rw [emitUnits, trace_storeAll]
  induction (greedyCutter h).chop a bs with
  | nil => rfl
  | cons s ss ih => rw [List.map_cons, loads_store, ih]

theorem extents_stores_emitWord (v : ι) (c : BitVec (h * 8)) {a : ℤ} {bs : List Byte}
    (hend : a % h + bs.length ≤ h) (t : τ) :
    extents (stores ((emitWord v c a bs : Program h ι ε Unit).trace E t)) = [(a - a % h, h)] := by
  have hnonneg := emod_nonneg_natCast h a
  rw [emitWord]
  split
  · simp
    omega
  · simp
    omega

omit [NeZero h] in
theorem loads_emitWord [DecidableEq ι] (v w : ι) (c : BitVec (h * 8)) (a : ℤ) (bs : List Byte)
    (t : τ) {x : ℤ × List Byte}
    (hx : x ∈ loads w ((emitWord v c a bs : Program h ι ε Unit).trace E t)) :
    v = w ∧ x.1 = a - a % h ∧ x.2.length = h := by
  rw [emitWord] at hx
  split at hx
  · by_cases hv : v = w <;> simp [hv] at hx
    exact ⟨hv, by rw [hx], by simp [hx]⟩
  · simp at hx

/-! ### Delivering -/

omit [NeZero h] in
theorem loads_queueSupply [DecidableEq ι] {v w : ι} (hvw : v ≠ w) (q : ℤ × List Byte) (n : ℕ)
    (t : τ) : loads w (((queueSupply v : Supply h ι ε _).take q n).trace E t) = [] := by
  rw [queueSupply]
  dsimp only
  split <;> simp [hvw]

/-- Where a stream stores, for an emitter that stores in the same places whatever the bytes are. -/
theorem extents_stores_deliver (S : Supply h ι ε σ) {emit : ℤ → List Byte → Program h ι ε Unit}
    {F : ℤ → ℕ → List (ℤ × ℕ)}
    (hemit : ∀ (a : ℤ) (bs : List Byte) (t : τ), a % h + bs.length ≤ h →
      extents (stores ((emit a bs).trace E t)) = F a bs.length)
    {ps : List (ℤ × ℕ)} (hps : ∀ p ∈ ps, p.1 % h + p.2 ≤ h) (q : σ) (t : τ) :
    extents (stores ((deliver S emit ps q).trace E t)) = ps.flatMap fun p => F p.1 p.2 := by
  induction ps generalizing q t with
  | nil => rfl
  | cons p ps ih =>
    have hfits := hps p (List.mem_cons_self ..)
    have hnonneg := emod_nonneg_natCast h p.1
    have hlen := S.length_eq E q t (n := p.2) (by omega)
    rw [deliver_cons, Program.trace_bind, Program.trace_bind, stores_append, stores_append,
      S.stores_eq, List.nil_append, extents_append, hemit _ _ _ (by rw [hlen]; exact hfits), hlen,
      ih fun p hp => hps p (List.mem_cons_of_mem _ hp), List.flatMap_cons]

omit [NeZero h] in
/-- Loads that the supply does not make are made by the emitter. -/
theorem mem_loads_deliver [DecidableEq ι] {S : Supply h ι ε σ}
    {emit : ℤ → List Byte → Program h ι ε Unit} {v : ι}
    (hS : ∀ (q : σ) (n : ℕ) (t : τ), loads v ((S.take q n).trace E t) = [])
    {ps : List (ℤ × ℕ)} {q : σ} {t : τ} {x : ℤ × List Byte}
    (hx : x ∈ loads v ((deliver S emit ps q).trace E t)) :
    ∃ p ∈ ps, ∃ bs t, x ∈ loads v ((emit p.1 bs).trace E t) := by
  induction ps generalizing q t with
  | nil => simp [deliver] at hx
  | cons p ps ih =>
    rw [deliver_cons, Program.trace_bind, Program.trace_bind, loads_append, loads_append, hS,
      List.nil_append] at hx
    rcases List.mem_append.mp hx with hx | hx
    · exact ⟨p, List.mem_cons_self .., _, _, hx⟩
    · obtain ⟨p', hp', hrest⟩ := ih hx
      exact ⟨p', List.mem_cons_of_mem _ hp', hrest⟩

/-- **The words a queue loads** are those of what is due and not in the queue yet. -/
theorem loads_deliver_queue [DecidableEq ι] {v : ι} {emit : ℤ → List Byte → Program h ι ε Unit}
    (hemit : ∀ (a : ℤ) (bs : List Byte) (t : τ), loads v ((emit a bs).trace E t) = [])
    {s a : ℤ} {n : ℕ} {q : List Byte} (hs : (h : ℤ) ∣ s) (t : τ) :
    extents (loads v
        ((deliver (queueSupply v) emit ((wordCutter h).cuts a n) (s, q)).trace E t))
      = (words h s (n - q.length)).map fun x => (x, h) := by
  induction a, n using Cutter.cuts.induct (wordCutter h) generalizing s q t with
  | case1 a => rw [Cutter.cuts_zero, Nat.zero_sub, words_zero]; rfl
  | case2 a n hn ih =>
    have hle := (wordCutter h).le a n
    have hwidth : (wordCutter h).width a n ≤ h := by
      have := emod_nonneg_natCast h a
      simp only [wordCutter]
      omega
    rw [Cutter.cuts_of_pos _ _ (by omega), deliver_cons]
    dsimp only
    rcases Nat.lt_or_ge q.length ((wordCutter h).width a n) with hq | hq
    · have hnext : (h : ℤ) ∣ s + h := Int.dvd_add hs (Int.dvd_refl _)
      have hrest : n - (wordCutter h).width a n
          - ((q ++ bytes h (E.load t s).1).drop ((wordCutter h).width a n)).length
          = n - q.length - h := by
        rw [List.length_drop, List.length_append, length_bytes]
        omega
      rw [queueSupply_take_of_lt v hq, Program.load_bind, Program.trace_load, loads_load,
        if_pos rfl, extents_cons, length_bytes, pure_bind, Program.trace_bind, loads_append, hemit,
        List.nil_append, ih hnext, hrest, words_of_dvd hs (by omega), List.map_cons]
    · rw [queueSupply_take_of_le v hq, pure_bind, Program.trace_bind, loads_append, hemit,
        List.nil_append, ih hs, List.length_drop]
      congr 2
      omega

/-! ### Copying -/

section Copying

variable {v w : ι} {emit : BitVec (h * 8) → ℤ → List Byte → Program h ι ε Unit} {dest src : ℤ}
  {n : ℕ}

/-- Where a copy stores, for an emitter that stores in the same places whatever the bytes are. -/
theorem extents_stores_copyStream {F : ℤ → ℕ → List (ℤ × ℕ)}
    (hemit : ∀ (c : BitVec (h * 8)) (a : ℤ) (bs : List Byte) (t : τ), a % h + bs.length ≤ h →
      extents (stores ((emit c a bs).trace E t)) = F a bs.length)
    (hne : dest ≠ src) (t : τ) :
    extents (stores ((copyStream v w emit dest src n).trace E t))
      = ((wordCutter h).cuts dest n).flatMap fun p => F p.1 p.2 := by
  rw [copyStream]
  by_cases hn : n = 0
  · rw [if_pos (Or.inr hn), hn, Cutter.cuts_zero]
    rfl
  rw [if_neg (by simp [hne, hn])]
  have hfits : ∀ p ∈ (wordCutter h).cuts dest n, p.1 % h + p.2 ≤ h :=
    fun p hp => fits_of_mem_cuts_word hp
  split
  · exact extents_stores_deliver _ (hemit 0) hfits _ t
  · simp only [Program.trace_load, stores_load]
    exact extents_stores_deliver _ (hemit _) hfits _ _

/-- **A copy by units stores the greedy units of dest.** -/
theorem stores_copyStream_units (hne : dest ≠ src) (t : τ) :
    extents (stores ((copyStream v w (fun _ => emitUnits) dest src n :
      Program h ι ε Unit).trace E t)) = (greedyCutter h).cuts dest n := by
  rw [extents_stores_copyStream (F := (greedyCutter h).cuts) _ hne t, flatMap_cuts_greedy]
  intro c a bs t _
  rw [stores_emitUnits, Cutter.extents_chop]

/-- **A copy by words stores the words of dest.** -/
theorem stores_copyStream_words (hne : dest ≠ src) (t : τ) :
    extents (stores ((copyStream v w (emitWord w) dest src n : Program h ι ε Unit).trace E t))
      = (words h dest n).map fun x => (x, h) := by
  rw [extents_stores_copyStream (F := fun a _ => [(a - a % h, h)]) _ hne t, words, List.map_map,
    List.map_eq_flatMap]
  · rfl
  · exact fun c a bs t hend => extents_stores_emitWord w c hend t

variable [DecidableEq ι]

/-- **The source words a copy loads** are the words of src. -/
theorem loads_copyStream_src (hvw : w ≠ v)
    (hemit : ∀ (c : BitVec (h * 8)) (a : ℤ) (bs : List Byte) (t : τ),
      loads v ((emit c a bs).trace E t) = [])
    (hne : dest ≠ src) (t : τ) :
    extents (loads v ((copyStream v w emit dest src n).trace E t))
      = (words h src n).map fun x => (x, h) := by
  rw [copyStream]
  by_cases hn : n = 0
  · rw [if_pos (Or.inr hn), hn, words_zero]
    rfl
  rw [if_neg (by simp [hne, hn])]
  split
  · exact loads_deliver_queue (hemit 0) (Int.dvd_of_emod_eq_zero (by omega)) t
  · have hlt := emod_lt_natCast h src
    have hj : src % h = ((src % h).toNat : ℕ) :=
      (Int.toNat_of_nonneg (emod_nonneg_natCast h src)).symm
    have hnext : (h : ℤ) ∣ src - src % h + h := Int.dvd_add (dvd_sub_emod src) (Int.dvd_refl _)
    simp only [Program.trace_load, loads_load, if_neg hvw, if_true, extents_cons, length_bytes]
    rw [loads_deliver_queue (hemit _) hnext, words_of_pos hj (by omega), List.length_drop,
      length_bytes, ← hj, List.map_cons]

/-- The dest words a copy loads, for an emitter that loads no word but the one it stores to. -/
theorem loads_copyStream_dest (hvw : v ≠ w)
    (hemit : ∀ (c : BitVec (h * 8)) (a : ℤ) (bs : List Byte) (t : τ),
      ∀ x ∈ loads w ((emit c a bs).trace E t), x.1 = a - a % h ∧ x.2.length = h)
    (t : τ) {x : ℤ × List Byte}
    (hx : x ∈ loads w ((copyStream v w emit dest src n).trace E t)) :
    x.1 ∈ words h dest n ∧ x.2.length = h := by
  have hstream : ∀ {c : BitVec (h * 8)} {q : ℤ × List Byte} {t : τ},
      x ∈ loads w ((deliver (queueSupply v) (emit c) ((wordCutter h).cuts dest n) q).trace E t) →
        x.1 ∈ words h dest n ∧ x.2.length = h := by
    intro c q t hx
    obtain ⟨p, hp, bs, t, hx⟩ := mem_loads_deliver (loads_queueSupply hvw) hx
    obtain ⟨hword, hlen⟩ := hemit c p.1 bs t x hx
    exact ⟨hword ▸ List.mem_map.mpr ⟨p, hp, rfl⟩, hlen⟩
  rw [copyStream] at hx
  split at hx
  · simp at hx
  split at hx
  · exact hstream hx
  · simp only [Program.trace_load, loads_load, if_neg hvw, if_true, List.mem_cons] at hx
    rcases hx with rfl | hx
    · exact ⟨mem_words.mpr ⟨dest, le_rfl, by omega, rfl⟩, length_bytes ..⟩
    · exact hstream hx

end Copying

/-! ### Filling -/

section Filling

variable {w : ι} {x : Byte} {dest : ℤ} {n : ℕ}

/-- **A fill by units stores the greedy units of dest.** -/
theorem stores_fillUnits (t : τ) :
    extents (stores ((fillUnits x dest n : Program h ι ε Unit).trace E t))
      = (greedyCutter h).cuts dest n := by
  rw [fillUnits, extents_stores_deliver _ (F := (greedyCutter h).cuts) _
    (fun p hp => fits_of_mem_cuts_word hp), flatMap_cuts_greedy]
  intro a bs t _
  rw [stores_emitUnits, Cutter.extents_chop]

/-- **A fill by words stores the words of dest.** -/
theorem stores_fillWords (t : τ) :
    extents (stores ((fillWords w x dest n : Program h ι ε Unit).trace E t))
      = (words h dest n).map fun x => (x, h) := by
  have hstream : ∀ (c : BitVec (h * 8)) (t : τ),
      extents (stores ((deliver (constSupply x) (emitWord w c) ((wordCutter h).cuts dest n) () :
        Program h ι ε Unit).trace E t)) = (words h dest n).map fun x => (x, h) := by
    intro c t
    rw [extents_stores_deliver _ (F := fun a _ => [(a - a % h, h)])
      (fun a bs t hend => extents_stores_emitWord w c hend t)
      (fun p hp => fits_of_mem_cuts_word hp), words, List.map_map, List.map_eq_flatMap]
    rfl
  rw [fillWords]
  split
  · rw [‹n = 0›, words_zero]
    rfl
  split
  · exact hstream 0 t
  · simp only [Program.trace_load, stores_load]
    exact hstream _ _

variable [DecidableEq ι]

/-- A fill by units loads nothing. -/
theorem loads_fillUnits (v : ι) (t : τ) :
    loads v ((fillUnits x dest n : Program h ι ε Unit).trace E t) = [] := by
  refine List.eq_nil_iff_forall_not_mem.mpr fun y hy => ?_
  obtain ⟨p, -, bs, t, hy⟩ := mem_loads_deliver (fun _ _ _ => rfl) hy
  rw [loads_emitUnits] at hy
  cases hy

/-- The words a fill by words loads, through whatever label. -/
theorem loads_fillWords (v : ι) (t : τ) {y : ℤ × List Byte}
    (hy : y ∈ loads v ((fillWords w x dest n : Program h ι ε Unit).trace E t)) :
    y.1 ∈ words h dest n ∧ y.2.length = h := by
  have hstream : ∀ {c : BitVec (h * 8)} {t : τ},
      y ∈ loads v ((deliver (constSupply x) (emitWord w c) ((wordCutter h).cuts dest n) () :
        Program h ι ε Unit).trace E t) → y.1 ∈ words h dest n ∧ y.2.length = h := by
    intro c t hy
    obtain ⟨p, hp, bs, t, hy⟩ := mem_loads_deliver (fun _ _ _ => rfl) hy
    obtain ⟨-, hword, hlen⟩ := loads_emitWord w v c p.1 bs t hy
    exact ⟨hword ▸ List.mem_map.mpr ⟨p, hp, rfl⟩, hlen⟩
  rw [fillWords] at hy
  split at hy
  · simp at hy
  split at hy
  · exact hstream hy
  · simp only [Program.trace_load, loads_load] at hy
    split at hy
    · rcases List.mem_cons.mp hy with rfl | hy
      · exact ⟨mem_words.mpr ⟨dest, le_rfl, by omega, rfl⟩, length_bytes ..⟩
      · exact hstream hy
    · exact hstream hy

end Filling

end WordAccess
