import Lssc.Reflect
import Lssc.Streams
import Lssc.WordAccess.Translate

/-!
# The routines at other addresses

Every routine takes its addresses apart into a word and an offset in it, and decides what to do by
the offsets and the length. So a routine whose dest and src are moved by whole words, each by as
many as one likes, makes the same accesses with the same shifts between them, only elsewhere. There
is one exception: a copy that is moved onto its own source returns at once.

## Main results

* `routines_translate` — the accesses of a routine that is moved
-/

namespace Lssc

open WordAccess Program

/-- Where the loads go, if dest is moved by `K` and src by `K'`. -/
def moved (K K' : ℤ) : Ptr → ℤ
  | .s => K'
  | .d => K

variable {g : Geometry} {K K' dest src : ℤ} (n : ℕ)

section Copies

variable (hK : (g.mwordSize : ℤ) ∣ K) (hK' : (g.mwordSize : ℤ) ∣ K')
  (hne : dest + K = src + K' ↔ dest = src)

include hK hK' hne

theorem lsscLf_translate : (lsscLf g (dest + K) (src + K') n).bare
    = (lsscLf g dest src n).bare.translate (moved K K') K := by
  rw [bare_lsscLf, bare_lsscLf]
  exact copyStream_translate (δ := moved K K') (emitWord_translate hK rfl) hK hK' rfl hne

theorem lsscLft_translate : (lsscLft g (dest + K) (src + K') n).bare
    = (lsscLft g dest src n).bare.translate (moved K K') K := by
  rw [bare_lsscLft, bare_lsscLft]
  exact copyStream_translate (δ := moved K K') (fun _ => emitUnits_translate hK) hK hK' rfl hne

end Copies

/-- On the other side of the mirror, dest and src move the other way. -/
theorem reverse_translate {forward reverse : ℤ → ℤ → ℕ → Code g Unit}
    (hmirror : ∀ dest src, (reverse dest src n).bare
      = (forward (0 - dest - n) (0 - src - n) n).mirror 0)
    (hforward : (forward (0 - dest - n + -K) (0 - src - n + -K') n).bare
      = (forward (0 - dest - n) (0 - src - n) n).bare.translate (moved (-K) (-K')) (-K)) :
    (reverse (dest + K) (src + K') n).bare
      = (reverse dest src n).bare.translate (moved K K') K := by
  have hplace : ∀ a L : ℤ, 0 - (a + L) - n = 0 - a - n + -L := fun a L => by ring
  have hback : (fun v => -moved (-K) (-K') v) = moved K K' := by
    funext v
    cases v <;> exact neg_neg _
  rw [hmirror, hmirror, hplace, hplace, ← mirror_bare, hforward, mirror_translate, mirror_bare,
    hback, neg_neg]

theorem copies_translate (hK : (g.mwordSize : ℤ) ∣ K) (hK' : (g.mwordSize : ℤ) ∣ K')
    (hne : dest + K = src + K' ↔ dest = src) :
    ∀ copy ∈ [lsscLf g, lsscLft g, lsscLr g, lsscLrt g], (copy (dest + K) (src + K') n).bare
      = (copy dest src n).bare.translate (moved K K') K := by
  have hback : 0 - dest - n + -K = 0 - src - n + -K' ↔ 0 - dest - (n : ℤ) = 0 - src - n := by
    omega
  intro copy hcopy
  simp only [List.mem_cons, List.not_mem_nil, or_false] at hcopy
  rcases hcopy with rfl | rfl | rfl | rfl
  · exact lsscLf_translate n hK hK' hne
  · exact lsscLft_translate n hK hK' hne
  · exact reverse_translate n (fun d s => bare_lsscLr_eq_mirror (Int.dvd_zero _) d s n)
      (lsscLf_translate n (Int.dvd_neg.mpr hK) (Int.dvd_neg.mpr hK') hback)
  · exact reverse_translate n (fun d s => bare_lsscLrt_eq_mirror (Int.dvd_zero _) d s n)
      (lsscLft_translate n (Int.dvd_neg.mpr hK) (Int.dvd_neg.mpr hK') hback)

variable (g)

/-- **Routines that are moved by whole words** make the same accesses elsewhere. For the copies
this takes that dest and src are equal afterwards if and only if they were equal before. -/
theorem routines_translate (hK : (g.mwordSize : ℤ) ∣ K) (hK' : (g.mwordSize : ℤ) ∣ K')
    (hne : dest + K = src + K' ↔ dest = src) (ch : ℤ) :
    (∀ copy ∈ [lsscLf g, lsscLft g, lsscLr g, lsscLrt g], (copy (dest + K) (src + K') n).bare
        = (copy dest src n).bare.translate (moved K K') K) ∧
      (∀ init ∈ [initLf g, initLft g], (init (dest + K) ch n).bare
        = (init dest ch n).bare.translate (moved K K') K) ∧
      ∀ zero ∈ [zeroLf g, zeroLft g], (zero (dest + K) n).bare
        = (zero dest n).bare.translate (moved K K') K := by
  refine ⟨copies_translate n hK hK' hne, fun init hinit => ?_, fun zero hzero => ?_⟩
  · rcases List.mem_pair.mp hinit with rfl | rfl
    · rw [bare_initLf, bare_initLf]
      exact fillWords_translate (δ := moved K K') hK rfl _
    · rw [bare_initLft, bare_initLft]
      exact fillUnits_translate hK _
  · rcases List.mem_pair.mp hzero with rfl | rfl
    · rw [bare_zeroLf, bare_zeroLf]
      exact fillWords_translate (δ := moved K K') hK rfl _
    · rw [bare_zeroLft, bare_zeroLft]
      exact fillUnits_translate hK _

/-- dest up by five words, src down by one. -/
theorem routines_translate_apart : (lsscLrt .x86_64 (14 + 40) (3 + -8) 25).bare
    = (lsscLrt .x86_64 14 3 25).bare.translate (moved 40 (-8)) 40 :=
  (routines_translate .x86_64 25 (by decide) (by decide) (by decide) 0).1 (lsscLrt .x86_64)
    (by simp)

end Lssc
