import Mathlib.Order.Nat

/-!
# Skipping

The places of a list that is sorted are taken; counting goes past them.
-/

namespace PdmaXen.Skipping
set_option autoImplicit false

/-- One place up, from the place `r` on. -/
def skip (n r : Nat) : Nat := if r ≤ n then n + 1 else n

/-- The place that free place `n` is in. -/
def skipAll (taken : List Nat) (n : Nat) : Nat := taken.foldl skip n

theorem skip_lt_skip {a b : Nat} (h : a < b) (r : Nat) : skip a r < skip b r := by
  rw [skip, skip]
  split <;> split <;> omega

theorem le_skip (n r : Nat) : n ≤ skip n r := by
  rw [skip]
  split <;> omega

theorem skip_ne (n r : Nat) : skip n r ≠ r := by
  rw [skip]
  split <;> omega

theorem skipAll_cons (r : Nat) (taken : List Nat) (n : Nat) :
    skipAll (r :: taken) n = skipAll taken (skip n r) := rfl

theorem skipAll_strictMono (taken : List Nat) {a b : Nat} (h : a < b) :
    skipAll taken a < skipAll taken b := by
  induction taken generalizing a b with
  | nil => exact h
  | cons r taken ih => exact ih (skip_lt_skip h r)

theorem skipAll_injective (taken : List Nat) {a b : Nat} (h : skipAll taken a = skipAll taken b) :
    a = b := by
  rcases Nat.lt_trichotomy a b with hlt | rfl | hgt
  · exact absurd h (skipAll_strictMono taken hlt).ne
  · rfl
  · exact absurd h (skipAll_strictMono taken hgt).ne'

theorem le_skipAll (taken : List Nat) (n : Nat) : n ≤ skipAll taken n := by
  induction taken generalizing n with
  | nil => exact le_refl n
  | cons r taken ih => exact (le_skip n r).trans (ih (skip n r))

theorem skipAll_le (taken : List Nat) (n : Nat) : skipAll taken n ≤ n + taken.length := by
  induction taken generalizing n with
  | nil => exact le_refl n
  | cons r taken ih =>
    have hstep : skip n r ≤ n + 1 := by
      rw [skip]
      split <;> omega
    have hrest := ih (skip n r)
    rw [skipAll_cons, List.length_cons]
    omega

/-- Places from `n` on upwards do not matter. -/
theorem skipAll_eq_self {taken : List Nat} {n : Nat} (h : ∀ r ∈ taken, n < r) : skipAll taken n = n := by
  induction taken with
  | nil => rfl
  | cons r taken ih =>
    have hr : ¬ r ≤ n := Nat.not_le.mpr (h r List.mem_cons_self)
    rw [skipAll_cons, skip, if_neg hr]
    exact ih fun r' hr' => h r' (List.mem_cons_of_mem r hr')

/-- No place is taken twice. -/
theorem skipAll_notMem {taken : List Nat} (hsorted : taken.Pairwise (· < ·)) (n : Nat) :
    skipAll taken n ∉ taken := by
  induction taken generalizing n with
  | nil => exact List.not_mem_nil
  | cons r taken ih =>
    obtain ⟨hfirst, hrest⟩ := List.pairwise_cons.mp hsorted
    rw [skipAll_cons, List.mem_cons, not_or]
    refine ⟨?_, ih hrest (skip n r)⟩
    rcases Nat.lt_or_gt_of_ne (skip_ne n r) with hlt | hgt
    · rw [skipAll_eq_self fun r' hr' => hlt.trans (hfirst r' hr')]
      exact hlt.ne
    · exact (hgt.trans_le (le_skipAll taken _)).ne'

end PdmaXen.Skipping
