import Mathlib.Algebra.Order.Ring.Int

/-!
# Averages of bounded samples

A counter is sampled; only the sum and the number of the samples are kept, next to
bounds of all of them. Nothing here knows what is sampled.
-/

namespace PdmaXen.Samples
set_option autoImplicit false

/-- A sum of `cnt` samples, each of them between `lo` and `hi`. -/
structure Between (total cnt lo hi : Int) : Prop where
  cnt_nonneg : 0 ≤ cnt
  le_total : cnt * lo ≤ total
  total_le : total ≤ cnt * hi

namespace Between
variable {total cnt lo hi lo' hi' val : Int}

theorem empty (lo hi : Int) : Between 0 0 lo hi := by
  constructor <;> simp

theorem first (h : Between total 0 lo hi) : total = 0 := by
  have hle := h.le_total
  have hge := h.total_le
  rw [Int.zero_mul] at hle hge
  omega

theorem widen (h : Between total cnt lo hi) (hlo : cnt = 0 ∨ lo' ≤ lo) (hhi : cnt = 0 ∨ hi ≤ hi') :
    Between total cnt lo' hi' := by
  rcases Decidable.eq_or_ne cnt 0 with rfl | hne
  · rw [h.first]
    exact empty lo' hi'
  · have hlo' := hlo.resolve_left hne
    have hhi' := hhi.resolve_left hne
    refine ⟨h.cnt_nonneg, ?_, ?_⟩
    · exact (Int.mul_le_mul_of_nonneg_left hlo' h.cnt_nonneg).trans h.le_total
    · exact h.total_le.trans (Int.mul_le_mul_of_nonneg_left hhi' h.cnt_nonneg)

theorem sample (h : Between total cnt lo hi) (hlo : lo ≤ val) (hhi : val ≤ hi) :
    Between (total + val) (cnt + 1) lo hi := by
  have hcnt := h.cnt_nonneg
  have hle := h.le_total
  have hge := h.total_le
  refine ⟨by omega, ?_, ?_⟩
  · rw [Int.add_mul, Int.one_mul]
    omega
  · rw [Int.add_mul, Int.one_mul]
    omega

/-- A running maximum, started at 0. -/
theorem sample_max (h : Between total cnt lo hi) (hlo : lo ≤ val) :
    Between (total + val) (cnt + 1) lo (if val > hi then val else hi) := by
  split
  case isTrue hgt => exact (h.widen (.inr (le_refl lo)) (.inr (le_of_lt hgt))).sample hlo (le_refl val)
  case isFalse hle => exact h.sample hlo (Int.not_lt.mp hle)

/-- A running minimum, set by the first sample. -/
theorem sample_min (h : Between total cnt lo hi) (hhi : val ≤ hi) :
    Between (total + val) (cnt + 1) (if val < lo ∨ cnt + 1 = 1 then val else lo) hi := by
  split
  case isTrue hset =>
    have hlo : cnt = 0 ∨ val ≤ lo := by omega
    exact (h.widen hlo (.inr (le_refl hi))).sample (le_refl val) hhi
  case isFalse hkeep => exact h.sample (by omega) hhi

theorem total_le_of_cnt_le {n : Int} (h : Between total cnt lo hi) (hcnt : cnt ≤ n) (hhi : 0 ≤ hi) :
    total ≤ n * hi :=
  h.total_le.trans (Int.mul_le_mul_of_nonneg_right hcnt hhi)

theorem le_avg (h : Between total cnt lo hi) (hcnt : 0 < cnt) : lo ≤ total / cnt := by
  apply Int.le_ediv_of_mul_le hcnt
  rw [Int.mul_comm]
  exact h.le_total

theorem avg_le (h : Between total cnt lo hi) (hcnt : 0 < cnt) : total / cnt ≤ hi := by
  apply Int.ediv_le_of_le_mul hcnt
  rw [Int.mul_comm]
  exact h.total_le

end Between

/-- A whole number of percent, with what is not zero rounded up to one. -/
def percent (depth x : Nat) : Nat :=
  if x * 100 / depth = 0 ∧ x ≠ 0 then 1 else x * 100 / depth

theorem percent_mono {depth x y : Nat} (h : x ≤ y) : percent depth x ≤ percent depth y := by
  have hdiv : x * 100 / depth ≤ y * 100 / depth := Nat.div_le_div_right (by omega)
  unfold percent
  split <;> split <;> omega

theorem percent_le {depth x : Nat} (h : x ≤ depth) : percent depth x ≤ 100 := by
  have hdiv : x * 100 / depth ≤ 100 := Nat.div_le_of_le_mul (Nat.mul_le_mul_right 100 h)
  unfold percent
  split <;> omega

end PdmaXen.Samples
