import Mathlib.Data.ZMod.Basic
import Mathlib.RingTheory.Nilpotent.Basic
import Mathlib.Data.Finset.Card
import Mathlib.Order.Interval.Finset.Nat
import Mathlib.Tactic.Ring

/-!
# Quadratic permutation polynomials

When `i ↦ a * i + b * i ^ 2` permutes the residues of `n`: a linear coefficient that
is a unit and a quadratic coefficient that is nilpotent are enough.
-/

namespace PdmaXen.Qpp
set_option autoImplicit false

/-- The quadratic polynomial over any commutative ring. -/
def quadratic {R : Type*} [CommRing R] (a b i : R) : R := a * i + b * i ^ 2

section Ring
variable {R : Type*} [CommRing R] {a b : R}

theorem quadratic_sub (i j : R) :
    quadratic a b i - quadratic a b j = (i - j) * (a + b * (i + j)) := by
  unfold quadratic
  ring

theorem isUnit_slope (ha : IsUnit a) (hb : IsNilpotent b) (i j : R) :
    IsUnit (a + b * (i + j)) := by
  have hnil : IsNilpotent (b * (i + j)) := (Commute.all b (i + j)).isNilpotent_mul_right hb
  exact hnil.isUnit_add_left_of_commute ha (Commute.all _ _)

theorem quadratic_injective (ha : IsUnit a) (hb : IsNilpotent b) :
    Function.Injective (quadratic a b) := by
  intro i j hij
  have hzero : (i - j) * (a + b * (i + j)) = 0 := by
    rw [← quadratic_sub, hij, sub_self]
  exact sub_eq_zero.mp ((isUnit_slope ha hb i j).mul_left_eq_zero.mp hzero)

end Ring

/-! ## On the residues below `n` -/

/-- The index map on numbers. -/
def index (a b n i : Nat) : Nat := (a * i + b * i ^ 2) % n

theorem index_lt {a b n i : Nat} (hn : 0 < n) : index a b n i < n := Nat.mod_lt _ hn

theorem natCast_index (a b n i : Nat) :
    ((index a b n i : Nat) : ZMod n) = quadratic (a : ZMod n) (b : ZMod n) (i : ZMod n) := by
  simp [index, quadratic]

theorem isNilpotent_natCast {b n k : Nat} (h : n ∣ b ^ k) : IsNilpotent (b : ZMod n) := by
  apply Exists.intro k
  rw [← Nat.cast_pow]
  exact (ZMod.natCast_eq_zero_iff (b ^ k) n).mpr h

theorem index_injOn {a b n k : Nat} (ha : Nat.Coprime a n) (hb : n ∣ b ^ k) :
    Set.InjOn (index a b n) (Set.Iio n) := by
  intro i hi j hj hij
  have hcast := congrArg (Nat.cast : Nat → ZMod n) hij
  rw [natCast_index, natCast_index] at hcast
  have heq := quadratic_injective ((ZMod.isUnit_iff_coprime a n).mpr ha)
    (isNilpotent_natCast hb) hcast
  rw [ZMod.natCast_eq_natCast_iff'] at heq
  rwa [Nat.mod_eq_of_lt hi, Nat.mod_eq_of_lt hj] at heq

/-- The index map is a permutation of `0, …, n - 1`. -/
theorem index_bijOn {a b n k : Nat} (hn : 0 < n) (ha : Nat.Coprime a n) (hb : n ∣ b ^ k) :
    Set.BijOn (index a b n) (Set.Iio n) (Set.Iio n) := by
  have hmaps : Set.MapsTo (index a b n) (Set.Iio n) (Set.Iio n) := fun i _ => index_lt hn
  have hinj := index_injOn ha hb
  refine ⟨hmaps, hinj, ?_⟩
  rw [← Finset.coe_range] at hmaps hinj ⊢
  exact Finset.surjOn_of_injOn_of_card_le (index a b n) hmaps hinj le_rfl

end PdmaXen.Qpp
