import Lssc.WordAccess.Delivery
import Lssc.WordAccess.Interference

/-!
# Streams among others, and over themselves

A stream reads ahead of what it writes. Two things can then happen to a source byte before it is
read: somebody else changes it, or the stream itself does, if dest lies inside src. Both are a
matter of what the loads are answered, and both are settled by one induction here.

The first is what `Withstands` is about: a copy relies on its source, and a copy by words on the
words of dest as well, because it stores the neighbours of dest back.

The second has an exact answer. Let dest lie above src. If the distance is less than a word, then
every word is loaded just before it is stored over, and the copy delivers the bytes that were there
at the start. If it is a word or more, then every word that is loaded below dest + k has been
delivered already, and the copy repeats its first bytes over and over, as a copy byte by byte would.
`Memory.seen` is the memory the source bytes are taken from in either case, and `Feeds` says that
the loads do find its bytes.

## Main definitions

* `Memory.seen` — where a copy finds the bytes of its source
* `Feeds` — loads find the bytes of a given memory
* `bytesIn`, `wordsIn` — the addresses of a range, and those of its words

## Main results

* `feeds_seen` — what a copy finds, for all ranges
* `withstands_copyStream_units`, `withstands_copyStream_words`
* `withstands_fillUnits`, `withstands_fillWords`
-/

namespace WordAccess

variable {h : ℕ} {ι ε σ : Type}

/-- The addresses of `[a, a + n)`. -/
def bytesIn (a : ℤ) (n : ℕ) : Set ℤ := {x | a ≤ x ∧ x < a + n}

theorem mem_bytesIn {a x : ℤ} {n : ℕ} : x ∈ bytesIn a n ↔ a ≤ x ∧ x < a + n := Iff.rfl

/-- The addresses of the words that hold a byte of `[a, a + n)`. -/
def wordsIn (h : ℕ) (a : ℤ) (n : ℕ) : Set ℤ := {x | WordMeets h a n (x - x % h)}

theorem mem_bytesIn_reflect {K a x : ℤ} {n : ℕ} :
    K - 1 - x ∈ bytesIn a n ↔ x ∈ bytesIn (K - a - n) n := by
  change _ ∧ _ ↔ _ ∧ _
  omega

theorem bytesIn_subset_wordsIn [NeZero h] (a : ℤ) (n : ℕ) : bytesIn a n ⊆ wordsIn h a n := by
  rintro x ⟨hlow, hhigh⟩
  have hlt := emod_lt_natCast h x
  have hnonneg := emod_nonneg_natCast h x
  exact ⟨dvd_sub_emod x, by omega, by omega⟩

theorem mem_wordsIn_reflect [NeZero h] {K a x : ℤ} {n : ℕ} (hK : (h : ℤ) ∣ K) :
    K - 1 - x ∈ wordsIn h a n ↔ x ∈ wordsIn h (K - a - n) n := by
  have hlt := emod_lt_natCast h x
  have hnonneg := emod_nonneg_natCast h x
  have hword : K - (x - x % h) - h = K - 1 - x - (K - 1 - x) % h :=
    eq_sub_emod (Int.dvd_sub (Int.dvd_sub hK (dvd_sub_emod x)) (Int.dvd_refl _)) (by omega)
      (by omega)
  change WordMeets h a n _ ↔ WordMeets h _ n _
  rw [← hword]
  constructor
  · intro hx
    have hback := hx.reflect (b := K - a - n) hK (by ring)
    rwa [show K - (K - (x - x % h) - h) - (h : ℤ) = x - x % h by ring] at hback
  · intro hx
    exact hx.reflect hK (by ring)

/-- A byte of a slice that has been written somewhere else. -/
theorem Memory.write_slice_add (M T : Memory) (dest src : ℤ) {i k : ℕ} (hi : i < k) :
    M.write dest (T.slice src k) (dest + i) = T (src + i) := by
  have hget := T.getElem?_slice src k i
  rw [if_pos hi] at hget
  obtain ⟨hlt, hget⟩ := List.getElem?_eq_some_iff.mp hget
  rw [M.write_add hlt, hget]

@[simp] theorem Memory.slice_const (x : Byte) (a : ℤ) (n : ℕ) :
    Memory.slice (fun _ => x) a n = List.replicate n x := by
  rw [slice, List.map_const', List.length_range]

/-! ### Writing a slice, up to some place -/

section Views

variable (M T : Memory) (dest src : ℤ)

/-- What has been written stays as it is. -/
theorem Memory.write_slice_of_lt {k n : ℕ} (hk : k ≤ n) {x : ℤ} (hx : x < dest + k) :
    M.write dest (T.slice src k) x = M.write dest (T.slice src n) x := by
  rcases lt_or_ge x dest with hlow | hlow
  · rw [M.write_of_outside (Or.inl hlow), M.write_of_outside (Or.inl hlow)]
  · obtain ⟨i, hi⟩ := Int.eq_ofNat_of_zero_le (sub_nonneg.mpr hlow)
    rw [show x = dest + i by omega, M.write_slice_add _ _ _ (by omega),
      M.write_slice_add _ _ _ (by omega)]

theorem Memory.write_slice_write (k p : ℕ) :
    (M.write dest (T.slice src k)).write (dest + k) (T.slice (src + k) p)
      = M.write dest (T.slice src (k + p)) := by
  have hjoin := M.write_write dest (T.slice src k) (T.slice (src + k) p)
  rwa [length_slice, ← slice_add] at hjoin

end Views

/-! ### Where a copy finds its source -/

/-- What a forward copy finds where its source should be: the bytes that were there at the start,
or, if dest is a word or more above src, the first bytes over and over. -/
def Memory.seen (h : ℕ) (M : Memory) (dest src : ℤ) : Memory := fun x =>
  if h ≤ dest - src then M (src + (x - src) % (dest - src)) else M x

/-- The loads of a copy find the bytes of `T` in its source: the first one in `M`, and the others
where `k` bytes have been delivered and `r` are waiting. -/
structure Feeds (h : ℕ) (M T : Memory) (dest src : ℤ) (n : ℕ) : Prop where
  first : ∀ x, src ≤ x → x < src - src % h + h → x < src + n → M x = T x
  next : ∀ k r : ℕ, k < n → (k = 0 ∨ (h : ℤ) ∣ dest + k) → (h : ℤ) ∣ src + k + r →
    (dest + k) % h + r < h → ∀ x, src + k + r ≤ x → x < src + k + r + h → x < src + n →
      M.write dest (T.slice src k) x = T x

section Feeds

variable {M : Memory} {dest src : ℤ} {n : ℕ}

theorem Memory.seen_of_lt (hlt : dest - src < h) : M.seen h dest src = M := by
  funext x
  rw [seen, if_neg (by omega)]

theorem Memory.seen_of_le (hle : h ≤ dest - src) (x : ℤ) :
    M.seen h dest src x = M (src + (x - src) % (dest - src)) := by rw [seen, if_pos hle]

/-- Less than a word above src, or not above it at all. -/
theorem feeds_of_lt (hlt : dest - src < h) : Feeds h M M dest src n where
  first _ _ _ _ := rfl
  next k r hk hedge hs hr x hlow hhigh hx := by
    refine M.write_of_outside ?_
    rw [Memory.length_slice]
    rcases le_or_gt dest src with hle | hgt
    · omega
    rcases hedge with rfl | hd
    · omega
    · -- the word that is loaded is the one that is about to be stored
      have hdvd : (h : ℤ) ∣ dest - src - r := by
        have := Int.dvd_sub hd hs
        rwa [show dest + k - (src + k + r) = dest - src - r by ring] at this
      have hmod : (dest + k) % (h : ℤ) = 0 := Int.emod_eq_zero_of_dvd hd
      have hzero := Int.eq_zero_of_abs_lt_dvd hdvd (by rw [abs_lt]; omega)
      omega

/-- A word or more above src. -/
theorem feeds_of_le [NeZero h] (hle : h ≤ dest - src) :
    Feeds h M (M.seen h dest src) dest src n := by
  have hpos := Nat.pos_of_neZero h
  have hstart : ∀ x, src ≤ x → x < dest → M x = M.seen h dest src x := by
    intro x hlow hhigh
    rw [Memory.seen_of_le hle, Int.emod_eq_of_lt (by omega) (by omega)]
    congr 1
    ring
  refine ⟨fun x hlow hhigh _ => hstart x hlow ?_, fun k r hk hedge hs hr x hlow hhigh hx => ?_⟩
  · have := emod_nonneg_natCast h src
    omega
  · -- what is loaded has been delivered already, or lies below dest
    have hfar : r + h ≤ dest - src := by
      have hdvd := Int.dvd_sub (dvd_sub_emod (h := h) (dest + k)) hs
      have hle := Int.le_of_dvd (by omega) hdvd
      have := emod_nonneg_natCast h (dest + k)
      omega
    rcases lt_or_ge x dest with hx' | hx'
    · rw [M.write_of_outside (Or.inl hx'), hstart x (by omega) hx']
    · obtain ⟨i, hi⟩ := Int.eq_ofNat_of_zero_le (sub_nonneg.mpr hx')
      have hik : i < k := by omega
      rw [show x = dest + i by omega, M.write_slice_add _ _ _ hik, Memory.seen_of_le hle,
        Memory.seen_of_le hle, show dest + i - src = src + i - src + (dest - src) by ring,
        Int.add_emod_right]

end Feeds

/-! ### Emitters -/

section Emitters

variable {t : Terms} {V : Memory}

theorem withstands_storeAll {ss : List (ℤ × List Byte)} (hss : ∀ s ∈ ss, t.Grants s.1 s.2) :
    (storeAll ss : Program h ι ε Unit).Withstands t V fun _ V' =>
      V' = ss.foldl (fun N s => N.write s.1 s.2) V := by
  induction ss generalizing V with
  | nil => rfl
  | cons s ss ih =>
    exact ⟨hss s (List.mem_cons_self ..), ih fun s' hs' => hss s' (List.mem_cons_of_mem _ hs')⟩

/-- The pieces of what may be stored may be stored. -/
theorem Terms.Grants.of_mem_chop {C : Cutter} {a : ℤ} {bs : List Byte} (hbs : t.Grants a bs)
    {s : ℤ × List Byte} (hs : s ∈ C.chop a bs) : t.Grants s.1 s.2 := by
  induction a, bs using Cutter.chop.induct C with
  | case1 a bs hlen =>
    rw [Cutter.chop, if_pos hlen] at hs
    cases hs
  | case2 a bs hlen ih =>
    rw [C.chop_of_pos a (by omega)] at hs
    rcases List.mem_cons.mp hs with rfl | hs
    · intro i b hb
      rw [List.getElem?_take] at hb
      split at hb
      · exact hbs i b hb
      · cases hb
    · refine ih (fun i b hb => ?_) hs
      rw [List.getElem?_drop] at hb
      have hmay := hbs _ b hb
      rwa [Nat.cast_add, ← add_assoc] at hmay

/-- Units are stored whatever goes on around them. -/
theorem withstands_emitUnits [NeZero h] {a : ℤ} {bs : List Byte} (hbs : t.Grants a bs) :
    (emitUnits a bs : Program h ι ε Unit).Withstands t V fun _ V' => V' = V.write a bs := by
  rw [emitUnits, ← (greedyCutter h).foldl_write_chop a bs V]
  exact withstands_storeAll fun s hs => hbs.of_mem_chop hs

/-- A word is stored back around a piece, if the word can be relied on. -/
theorem withstands_emitWord [NeZero h] {via : ι} {c : BitVec (h * 8)} {a : ℤ} {bs : List Byte}
    (hc : bytes (a % h).toNat c = V.slice (a - a % h) (a % h).toNat)
    (hrely : ∀ i : ℕ, i < h → a - a % h + i ∈ t.rely)
    (hmay : ∀ i : ℕ, i < h → t.may (a - a % h + i) (V.write a bs (a - a % h + i)))
    (hend : a % h + bs.length ≤ h) :
    (emitWord via c a bs : Program h ι ε Unit).Withstands t V fun _ V' => V' = V.write a bs := by
  have hj : ((a % h).toNat : ℤ) = a % h := Int.toNat_of_nonneg (emod_nonneg_natCast h a)
  have hstart : a - a % h + ((a % h).toNat : ℤ) = a := by omega
  -- a word whose margins hold what is there
  have hword : ∀ q, (a % h).toNat + bs.length + q = h →
      t.Grants (a - a % h) (bytes (a % h).toNat c ++ bs ++ V.slice (a + bs.length) q) ∧
        V.write (a - a % h) (bytes (a % h).toNat c ++ bs ++ V.slice (a + bs.length) q)
          = V.write a bs := by
    intro q hq
    have hwrite := V.write_margins (a - a % h) (a % h).toNat q bs
    rw [hstart, ← hc] at hwrite
    refine ⟨fun i b hb => ?_, hwrite⟩
    obtain ⟨hlt, hget⟩ := List.getElem?_eq_some_iff.mp hb
    have hi : i < h := by
      rw [List.length_append, List.length_append, length_bytes, Memory.length_slice] at hlt
      omega
    have hbyte := hmay i hi
    rwa [← hwrite, V.write_add hlt, hget] at hbyte
  rw [emitWord]
  split
  · rw [Program.withstands_load]
    intro w hw
    have hright : (bytes h w).drop ((a % h).toNat + bs.length)
        = V.slice (a + bs.length) (h - ((a % h).toNat + bs.length)) := by
      have hall : bytes h w = V.slice (a - a % h) h := by
        refine bytes_eq (by simp) fun k hk => ?_
        rw [Memory.getElem?_slice, if_pos hk, hw k hk (hrely k hk)]
      rw [hall, Memory.drop_slice _ _ (by omega), Nat.cast_add, ← add_assoc, hstart]
    rw [hright]
    exact hword _ (by omega)
  · have hzero := hword 0 (by omega)
    rw [Memory.slice_zero, List.append_nil] at hzero
    exact hzero

end Emitters

/-! ### Delivering -/

section Delivering

variable [NeZero h] {t : Terms} {M T : Memory} {dest src : ℤ} {n : ℕ}

/-- **What a stream withstands.** Where `k` bytes have been delivered the view is `M` with these
bytes written, the supply is in a state with `I k`, and each of the two goes on from there. -/
theorem withstands_deliver {S : Supply h ι ε σ} {emit : ℤ → List Byte → Program h ι ε Unit}
    (I : ℕ → σ → Prop)
    (htake : ∀ k q, k < n → (k = 0 ∨ (h : ℤ) ∣ dest + k) → I k q →
      (S.take q ((wordCutter h).width (dest + k) (n - k))).Withstands t
        (M.write dest (T.slice src k)) fun r V => V = M.write dest (T.slice src k) ∧
          r.1 = T.slice (src + k) ((wordCutter h).width (dest + k) (n - k)) ∧
          I (k + (wordCutter h).width (dest + k) (n - k)) r.2)
    (hemit : ∀ k, k < n → (k = 0 ∨ (h : ℤ) ∣ dest + k) →
      (emit (dest + k) (T.slice (src + k) ((wordCutter h).width (dest + k) (n - k)))).Withstands t
        (M.write dest (T.slice src k)) fun _ V =>
          V = M.write dest (T.slice src (k + (wordCutter h).width (dest + k) (n - k))))
    {k : ℕ} {q : σ} (hk : k ≤ n) (hedge : k < n → k = 0 ∨ (h : ℤ) ∣ dest + k) (hq : I k q) :
    (deliver S emit ((wordCutter h).cuts (dest + k) (n - k)) q).Withstands t
      (M.write dest (T.slice src k)) fun _ V => V = M.write dest (T.slice src n) := by
  induction hm : n - k using Nat.strong_induction_on generalizing k q with
  | h m ih =>
    subst hm
    rcases Nat.eq_or_lt_of_le hk with rfl | hlt
    · rw [Nat.sub_self, Cutter.cuts_zero]
      rfl
    have hpos := (wordCutter h).pos (dest + k) (n - k) (by omega)
    have hle := (wordCutter h).le (dest + k) (n - k)
    have hend := dvd_add_wordCutter_width (h := h) (dest + k) (n - k)
    rw [Cutter.cuts_of_pos _ _ (by omega), deliver_cons]
    refine (htake k q hlt (hedge hlt) hq).bind ?_
    rintro ⟨bs, q'⟩ V ⟨rfl, rfl, hq'⟩
    refine (hemit k hlt (hedge hlt)).bind ?_
    rintro _ V rfl
    have hrest := ih _ (by omega) (k := k + (wordCutter h).width (dest + k) (n - k)) (by omega)
      (fun hlt' => Or.inr ?_) hq' rfl
    · rwa [Nat.cast_add, ← add_assoc, Nat.sub_add_eq] at hrest
    · rw [Nat.cast_add, ← add_assoc]
      exact hend (by omega)

/-- The queue of a copy whose loads find the bytes of `T`. -/
theorem withstands_queueSupply {v : ι} (hfeeds : Feeds h M T dest src n)
    (hrely : bytesIn src n ⊆ t.rely) {k : ℕ} {q : ℤ × List Byte} (hk : k < n)
    (hedge : k = 0 ∨ (h : ℤ) ∣ dest + k)
    (hq : q.1 = src + k + q.2.length ∧ (h : ℤ) ∣ q.1 ∧ Queued T (src + k) (n - k) q.2) :
    ((queueSupply v : Supply h ι ε _).take q ((wordCutter h).width (dest + k) (n - k))).Withstands t
      (M.write dest (T.slice src k)) fun r V => V = M.write dest (T.slice src k) ∧
        r.1 = T.slice (src + k) ((wordCutter h).width (dest + k) (n - k)) ∧
        r.2.1 = src + ((k + (wordCutter h).width (dest + k) (n - k) : ℕ) : ℤ) + r.2.2.length ∧
        (h : ℤ) ∣ r.2.1 ∧ Queued T (src + ((k + (wordCutter h).width (dest + k) (n - k) : ℕ) : ℤ))
          (n - (k + (wordCutter h).width (dest + k) (n - k))) r.2.2 := by
  obtain ⟨s, q⟩ := q
  obtain ⟨hstart, hs, hq⟩ := hq
  dsimp only at hstart hs hq ⊢
  subst hstart
  have hle := (wordCutter h).le (dest + k) (n - k)
  have hwidth : (dest + k) % h + (wordCutter h).width (dest + k) (n - k) ≤ h := by
    have := emod_nonneg_natCast h (dest + k)
    have := emod_lt_natCast h (dest + k)
    simp only [wordCutter]
    omega
  have hoffset := emod_nonneg_natCast h (dest + k)
  generalize (wordCutter h).width (dest + k) (n - k) = p at *
  have hdone : ∀ q' : List Byte, Queued T (src + k) (n - k) q' → p ≤ q'.length →
      q'.take p = T.slice (src + k) p ∧
        Queued T (src + ((k + p : ℕ) : ℤ)) (n - (k + p)) (q'.drop p) := by
    intro q' hq' hp
    refine ⟨hq'.take_eq hle hp, ?_⟩
    have hdrop := hq'.drop p
    rwa [add_assoc, ← Nat.cast_add, Nat.sub_sub] at hdrop
  rcases Nat.lt_or_ge q.length p with hlt | hge
  · rw [queueSupply_take_of_lt v hlt, Program.withstands_load]
    intro w hw
    have hbytes : ∀ i < h, src + k + q.length + i < src + k + ((n - k : ℕ) : ℤ) →
        byte w i = T (src + k + q.length + i) := by
      intro i hi hin
      rw [hw i hi (hrely ⟨by omega, by omega⟩)]
      exact hfeeds.next k q.length hk hedge hs (by omega) _ (by omega) (by omega) (by omega)
    obtain ⟨htake, hrest⟩ := hdone _ (hq.append hbytes) (by simp; omega)
    refine ⟨rfl, htake, ?_, Int.dvd_add hs (Int.dvd_refl _), hrest⟩
    change src + k + q.length + h = _
    rw [List.length_drop, List.length_append, length_bytes]
    omega
  · rw [queueSupply_take_of_le v hge]
    obtain ⟨htake, hrest⟩ := hdone q hq hge
    refine ⟨rfl, htake, ?_, hs, hrest⟩
    change src + k + q.length = _
    rw [List.length_drop]
    omega

end Delivering

/-! ### Copying -/

section Copying

variable [NeZero h] {v w : ι} {t : Terms} {M T : Memory} {dest src : ℤ} {n : ℕ}

/-- A copy whose loads find the bytes of `T`, for an emitter that withstands what `t` allows once
it has been told what is below dest in its word. -/
theorem withstands_copyStream (hfeeds : Feeds h M T dest src n)
    (hrely : bytesIn src n ⊆ t.rely)
    {emit : BitVec (h * 8) → ℤ → List Byte → Program h ι ε Unit}
    (hemit : ∀ c : BitVec (h * 8),
      (∀ i : ℕ, i < dest % h → dest - dest % h + i ∈ t.rely → byte c i = M (dest - dest % h + i)) →
      ∀ k, k < n → (k = 0 ∨ (h : ℤ) ∣ dest + k) →
        (emit c (dest + k)
            (T.slice (src + k) ((wordCutter h).width (dest + k) (n - k)))).Withstands t
          (M.write dest (T.slice src k)) fun _ V =>
            V = M.write dest (T.slice src (k + (wordCutter h).width (dest + k) (n - k))))
    (hne : dest ≠ src) :
    (copyStream v w emit dest src n : Program h ι ε Unit).Withstands t M fun _ V =>
      V = M.write dest (T.slice src n) := by
  have hlt := emod_lt_natCast h src
  have hnonneg := emod_nonneg_natCast h src
  rw [copyStream]
  by_cases hn : n = 0
  · rw [if_pos (Or.inr hn), hn, Memory.slice_zero, Memory.write_nil]
    rfl
  rw [if_neg (by simp [hne, hn])]
  have hstream : ∀ (c : BitVec (h * 8)) (q : ℤ × List Byte),
      (∀ i : ℕ, i < dest % h → dest - dest % h + i ∈ t.rely →
        byte c i = M (dest - dest % h + i)) →
      q.1 = src + q.2.length → (h : ℤ) ∣ q.1 → Queued T src n q.2 →
      (deliver (queueSupply v) (emit c) ((wordCutter h).cuts dest n) q :
        Program h ι ε Unit).Withstands t M fun _ V => V = M.write dest (T.slice src n) := by
    intro c q hc hs hdvd hq
    have hrun := withstands_deliver _
      (fun k q => withstands_queueSupply (v := v) (k := k) (q := q) hfeeds hrely)
      (hemit c hc) (k := 0) (q := q) (Nat.zero_le n) (fun _ => Or.inl rfl)
      ⟨by simpa using hs, hdvd, by simpa using hq⟩
    simpa using hrun
  split
  · rename_i haligned
    refine hstream 0 _ (fun i hi => ?_) (by simp) (Int.dvd_of_emod_eq_zero haligned.1)
      (fun i _ hlen => by simp at hlen)
    omega
  · rw [Program.withstands_load]
    intro x hx
    rw [Program.withstands_load]
    intro c hc
    refine hstream c _ (fun i hi => ?_) ?_ (Int.dvd_add (dvd_sub_emod src) (Int.dvd_refl _)) ?_
    · have := emod_lt_natCast h dest
      exact hc i (by omega)
    · rw [List.length_drop, length_bytes]
      omega
    · intro i hi hlen
      rw [List.length_drop, length_bytes] at hlen
      have hplace : src - src % h + (((src % h).toNat + i : ℕ) : ℤ) = src + i := by omega
      rw [List.getElem?_drop, getElem?_bytes, if_pos (by omega),
        hx _ (by omega) (hrely ⟨by omega, by omega⟩), hplace,
        hfeeds.first _ (by omega) (by omega) (by omega)]

end Copying

/-! ### Pieces of a range -/

section Pieces

variable [NeZero h] {v w : ι} {t : Terms} {M T : Memory} {dest src : ℤ} {n : ℕ}

/-- The bytes around a piece are bytes of words of the range. -/
theorem mem_wordsIn {k i : ℕ} (hk : k < n) (hi : i < h) :
    dest + k - (dest + k) % h + i ∈ wordsIn h dest n := by
  have := emod_lt_natCast h (dest + k)
  have := emod_nonneg_natCast h (dest + k)
  have hword := eq_sub_emod (dvd_sub_emod (h := h) (dest + k))
    (show dest + k - (dest + k) % h ≤ dest + k - (dest + k) % h + i by omega) (by omega)
  change WordMeets h dest n (_ - _ % (h : ℤ))
  rw [← hword]
  exact ⟨dvd_sub_emod _, dest + k, by omega, by omega, by omega, by omega⟩

/-- The first `k` bytes of a range and the piece after them, emitted by units. -/
theorem withstands_piece_units
    (hmay : ∀ x ∈ bytesIn dest n, t.may x (M.write dest (T.slice src n) x)) {k p : ℕ}
    (hkp : k + p ≤ n) :
    (emitUnits (dest + k) (T.slice (src + k) p) : Program h ι ε Unit).Withstands t
      (M.write dest (T.slice src k)) fun _ V => V = M.write dest (T.slice src (k + p)) := by
  rw [← Memory.write_slice_write]
  refine withstands_emitUnits fun i b hb => ?_
  rw [Memory.getElem?_slice] at hb
  split at hb
  · obtain rfl := Option.some.inj hb
    have hbyte := hmay (dest + ((k + i : ℕ) : ℤ)) ⟨by omega, by omega⟩
    rw [M.write_slice_add _ _ _ (by omega)] at hbyte
    rwa [Nat.cast_add, ← add_assoc, ← add_assoc] at hbyte
  · cases hb

/-- The same by words, once the margin before the range is known. -/
theorem withstands_piece_words (hrely : wordsIn h dest n ⊆ t.rely)
    (hmay : ∀ x ∈ wordsIn h dest n, t.may x (M.write dest (T.slice src n) x))
    {c : BitVec (h * 8)}
    (hc : ∀ i : ℕ, i < dest % h → dest - dest % h + i ∈ t.rely →
      byte c i = M (dest - dest % h + i)) {k : ℕ} (hk : k < n)
    (hedge : k = 0 ∨ (h : ℤ) ∣ dest + k) :
    (emitWord w c (dest + k) (T.slice (src + k) ((wordCutter h).width (dest + k) (n - k))) :
      Program h ι ε Unit).Withstands t (M.write dest (T.slice src k)) fun _ V =>
        V = M.write dest (T.slice src (k + (wordCutter h).width (dest + k) (n - k))) := by
  have hlt := emod_lt_natCast h (dest + k)
  have hnonneg := emod_nonneg_natCast h (dest + k)
  have hwidth : ((wordCutter h).width (dest + k) (n - k) : ℤ) = min (n - k : ℤ) (h - (dest + k) % h)
      := by
    simp only [wordCutter]
    omega
  generalize (wordCutter h).width (dest + k) (n - k) = p at hwidth ⊢
  rw [← Memory.write_slice_write]
  refine withstands_emitWord ?_ (fun i hi => hrely (mem_wordsIn hk hi)) (fun i hi => ?_) ?_
  · refine bytes_eq (by simp) fun i hi => ?_
    rcases hedge with rfl | hd
    · simp only [Nat.cast_zero, add_zero, Memory.slice_zero, Memory.write_nil] at hi hlt hnonneg ⊢
      have hin : dest + (0 : ℕ) - (dest + (0 : ℕ)) % h + i ∈ wordsIn h dest n :=
        mem_wordsIn hk (by omega)
      rw [Nat.cast_zero, add_zero] at hin
      rw [Memory.getElem?_slice, if_pos hi, hc i (by omega) (hrely hin)]
    · rw [Int.emod_eq_zero_of_dvd hd] at hi
      cases hi
  · have hbyte := hmay _ (mem_wordsIn hk hi)
    rw [Memory.write_slice_write]
    rcases Nat.eq_or_lt_of_le (show k + p ≤ n by omega) with heq | hlt'
    · rwa [heq]
    · rwa [Memory.write_slice_of_lt M T dest src (show k + p ≤ n by omega) (by omega)]
  · rw [Memory.length_slice]
    omega

end Pieces

/-! ### What the streams withstand -/

section Streams

variable [NeZero h] {v w : ι} {t : Terms} {M : Memory} {dest src : ℤ} {n : ℕ} {x : Byte}

/-- **What a copy finds**, for all ranges. -/
theorem feeds_seen (M : Memory) (dest src : ℤ) (n : ℕ) :
    Feeds h M (M.seen h dest src) dest src n := by
  rcases lt_or_ge (dest - src) h with hlt | hge
  · rw [Memory.seen_of_lt hlt]
    exact feeds_of_lt hlt
  · exact feeds_of_le hge

/-- A range copied onto itself. -/
theorem withstands_copyStream_self {emit : BitVec (h * 8) → ℤ → List Byte → Program h ι ε Unit} :
    (copyStream v w emit src src n : Program h ι ε Unit).Withstands t M fun _ V =>
      V = M.write src ((M.seen h src src).slice src n) := by
  have hpos := Nat.pos_of_neZero h
  rw [copyStream, if_pos (Or.inl rfl), Memory.seen_of_lt (by omega), Memory.write_slice]
  rfl

/-- **A copy by units** relies on its source and stores dest. -/
theorem withstands_copyStream_units (hrely : bytesIn src n ⊆ t.rely)
    (hmay : dest ≠ src → ∀ x ∈ bytesIn dest n,
      t.may x (M.write dest ((M.seen h dest src).slice src n) x)) :
    (copyStream v w (fun _ => emitUnits) dest src n : Program h ι ε Unit).Withstands t M fun _ V =>
      V = M.write dest ((M.seen h dest src).slice src n) := by
  by_cases hne : dest = src
  · subst hne
    exact withstands_copyStream_self
  refine withstands_copyStream (feeds_seen M dest src n) hrely (fun c hc k hk hedge => ?_) hne
  have hle := (wordCutter h).le (dest + k) (n - k)
  exact withstands_piece_units (hmay hne) (by omega)

/-- **A copy by words** relies on the words of dest as well, and stores them. -/
theorem withstands_copyStream_words (hsrc : bytesIn src n ⊆ t.rely)
    (hdest : dest ≠ src → wordsIn h dest n ⊆ t.rely)
    (hmay : dest ≠ src → ∀ x ∈ wordsIn h dest n,
      t.may x (M.write dest ((M.seen h dest src).slice src n) x)) :
    (copyStream v w (emitWord w) dest src n : Program h ι ε Unit).Withstands t M fun _ V =>
      V = M.write dest ((M.seen h dest src).slice src n) := by
  by_cases hne : dest = src
  · subst hne
    exact withstands_copyStream_self
  exact withstands_copyStream (feeds_seen M dest src n) hsrc
    (fun c hc k hk hedge => withstands_piece_words (hdest hne) (hmay hne) hc hk hedge) hne

/-- A fill, for an emitter that withstands what `t` allows. -/
theorem withstands_deliver_const {emit : ℤ → List Byte → Program h ι ε Unit}
    (hemit : ∀ k, k < n → (k = 0 ∨ (h : ℤ) ∣ dest + k) →
      (emit (dest + k) (Memory.slice (fun _ => x) (0 + k)
          ((wordCutter h).width (dest + k) (n - k)))).Withstands t
        (M.write dest (Memory.slice (fun _ => x) 0 k)) fun _ V =>
          V = M.write dest (Memory.slice (fun _ => x) 0
            (k + (wordCutter h).width (dest + k) (n - k)))) :
    (deliver (constSupply x) emit ((wordCutter h).cuts dest n) () :
      Program h ι ε Unit).Withstands t M fun _ V => V = M.write dest (List.replicate n x) := by
  have hrun := withstands_deliver (ε := ε) (S := constSupply x) (M := M) (fun _ _ => True)
    (fun k q _ _ _ => ⟨rfl, by rw [Memory.slice_const], trivial⟩) hemit
    (k := 0) (q := ()) (Nat.zero_le n) (fun _ => Or.inl rfl) trivial
  simpa using hrun

/-- **A fill by units** relies on nothing and stores dest. -/
theorem withstands_fillUnits
    (hmay : ∀ y ∈ bytesIn dest n, t.may y (M.write dest (List.replicate n x) y)) :
    (fillUnits x dest n : Program h ι ε Unit).Withstands t M fun _ V =>
      V = M.write dest (List.replicate n x) := by
  rw [← Memory.slice_const x 0 n] at hmay
  refine withstands_deliver_const fun k hk hedge => ?_
  have hle := (wordCutter h).le (dest + k) (n - k)
  exact withstands_piece_units hmay (by omega)

/-- **A fill by words** relies on the words of dest and stores them. -/
theorem withstands_fillWords (hrely : wordsIn h dest n ⊆ t.rely)
    (hmay : ∀ y ∈ wordsIn h dest n, t.may y (M.write dest (List.replicate n x) y)) :
    (fillWords w x dest n : Program h ι ε Unit).Withstands t M fun _ V =>
      V = M.write dest (List.replicate n x) := by
  rw [← Memory.slice_const x 0 n] at hmay
  have hstream : ∀ c : BitVec (h * 8),
      (∀ i : ℕ, i < dest % h → dest - dest % h + i ∈ t.rely →
        byte c i = M (dest - dest % h + i)) →
      (deliver (constSupply x) (emitWord w c) ((wordCutter h).cuts dest n) () :
        Program h ι ε Unit).Withstands t M fun _ V => V = M.write dest (List.replicate n x) :=
    fun c hc => withstands_deliver_const fun k hk hedge =>
      withstands_piece_words hrely hmay hc hk hedge
  rw [fillWords]
  split
  · rw [‹n = 0›, List.replicate_zero, Memory.write_nil]
    rfl
  split
  · exact hstream 0 fun i hi => by omega
  · rw [Program.withstands_load]
    intro c hc
    refine hstream c fun i hi => hc i ?_
    have := emod_lt_natCast h dest
    omega

end Streams

end WordAccess
