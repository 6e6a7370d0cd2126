import Mathlib.RingTheory.PowerSeries.Basic
import Mathlib.RingTheory.PowerSeries.Inverse
import Mathlib.Tactic.LinearCombination

/-!
# Recursive systematic codes

A shift register with a feedback sum and a forward sum, over any commutative ring, and
its transfer function: what the register puts out is the input times a quotient of two
polynomials in the delay `X`.
-/

namespace PdmaXen.Recursive
set_option autoImplicit false
open PowerSeries

def taps {R : Type*} [CommRing R] : List R → List R → R
  | g :: gs, s :: ss => g * s + taps gs ss
  | _, _ => 0

/-- A code of rate 1/2: the taps of the feedback, the direct tap and the taps of the output. -/
structure Code (R : Type*) where
  feedback : List R
  direct : R
  forward : List R

variable {R : Type*} [CommRing R]

namespace Code

def entry (c : Code R) (s : List R) (u : R) : R := u - taps c.feedback s

def output (c : Code R) (s : List R) (u : R) : R := c.direct * c.entry s u + taps c.forward s

def next (c : Code R) (s : List R) (u : R) : List R := c.entry s u :: s.dropLast

def zero (c : Code R) : List R := List.replicate c.feedback.length 0

/-- The register before step `n`, from the zero state. -/
def state (c : Code R) (u : Nat → R) : Nat → List R
  | 0 => c.zero
  | n + 1 => c.next (c.state u n) (u n)

def entries (c : Code R) (u : Nat → R) (n : Nat) : R := c.entry (c.state u n) (u n)

def parity (c : Code R) (u : Nat → R) (n : Nat) : R := c.output (c.state u n) (u n)

end Code

/-! ## The register as a window of a sequence -/

/-- The last `m` members of a sequence before position `n`, newest first. -/
def window (a : Nat → R) : Nat → Nat → List R
  | 0, _ => []
  | m + 1, 0 => 0 :: window a m 0
  | m + 1, n + 1 => a n :: window a m n

theorem window_zero (a : Nat → R) (m : Nat) : window a m 0 = List.replicate m 0 := by
  induction m with
  | zero => rfl
  | succ m ih => rw [window, ih, List.replicate_succ]

theorem length_window (a : Nat → R) (m n : Nat) : (window a m n).length = m := by
  induction m generalizing n with
  | zero => rfl
  | succ m ih => cases n <;> simp [window, ih]

theorem dropLast_window (a : Nat → R) (m n : Nat) :
    (window a (m + 1) n).dropLast = window a m n := by
  induction m generalizing n with
  | zero => cases n <;> rfl
  | succ m ih =>
    have hne : ∀ k, window a (m + 1) k ≠ [] := by
      intro k h
      have := congrArg List.length h
      simp [length_window] at this
    cases n with
    | zero => rw [window, List.dropLast_cons_of_ne_nil (hne 0), ih, window]
    | succ n => rw [window, List.dropLast_cons_of_ne_nil (hne n), ih, window]

theorem Code.state_eq_window (c : Code R) (u : Nat → R) (h : c.feedback ≠ []) (n : Nat) :
    c.state u n = window (c.entries u) c.feedback.length n := by
  obtain ⟨m, hm⟩ : ∃ m, c.feedback.length = m + 1 :=
    Nat.exists_eq_succ_of_ne_zero (by simpa using h)
  induction n with
  | zero => rw [state, zero, window_zero]
  | succ n ih =>
    have hentry : c.entry (c.state u n) (u n) = c.entries u n := rfl
    rw [state, next, hentry, ih, hm, dropLast_window, window]

/-! ## The transfer function -/

/-- The delays of the taps: `g₁ X + g₂ X ^ 2 + …`. -/
noncomputable def tapSeries : List R → PowerSeries R
  | [] => 0
  | g :: gs => X * (C g + tapSeries gs)

theorem coeff_tapSeries_mul (g : List R) (a : Nat → R) (n : Nat) :
    coeff n (tapSeries g * PowerSeries.mk a) = taps g (window a g.length n) := by
  induction g generalizing n with
  | nil => simp [tapSeries, taps]
  | cons g gs ih =>
    rw [tapSeries, mul_assoc, add_mul, List.length_cons]
    cases n with
    | zero =>
      have hzero := ih 0
      rw [coeff_zero_X_mul, window, taps, mul_zero, zero_add, ← hzero]
      cases gs with
      | nil => simp [tapSeries]
      | cons h hs => rw [tapSeries, mul_assoc, coeff_zero_X_mul]
    | succ n => rw [coeff_succ_X_mul, map_add, coeff_C_mul, coeff_mk, ih n, window, taps]

namespace Code

noncomputable def denominator (c : Code R) : PowerSeries R := 1 + tapSeries c.feedback

noncomputable def numerator (c : Code R) : PowerSeries R := C c.direct + tapSeries c.forward

variable {c : Code R} {u : Nat → R}

theorem denominator_mul_entries (h : c.feedback ≠ []) :
    c.denominator * PowerSeries.mk (c.entries u) = PowerSeries.mk u := by
  ext n
  rw [denominator, add_mul, one_mul, map_add, coeff_tapSeries_mul, coeff_mk, coeff_mk,
    ← c.state_eq_window u h n]
  simp [entries, entry]

theorem parity_eq_numerator_mul (h : c.feedback ≠ []) (hlen : c.forward.length = c.feedback.length) :
    PowerSeries.mk (c.parity u) = c.numerator * PowerSeries.mk (c.entries u) := by
  ext n
  rw [numerator, add_mul, map_add, coeff_C_mul, coeff_tapSeries_mul, coeff_mk, coeff_mk, hlen,
    ← c.state_eq_window u h n]
  rfl

/-- The parity is the input times `numerator / denominator`. -/
theorem denominator_mul_parity (h : c.feedback ≠ [])
    (hlen : c.forward.length = c.feedback.length) :
    c.denominator * PowerSeries.mk (c.parity u) = c.numerator * PowerSeries.mk u := by
  rw [parity_eq_numerator_mul h hlen, mul_left_comm, denominator_mul_entries h]

theorem constantCoeff_denominator (c : Code R) : constantCoeff c.denominator = 1 := by
  rw [denominator, map_add, map_one]
  cases hf : c.feedback with
  | nil => simp [tapSeries]
  | cons g gs => simp [tapSeries]

theorem parity_series {k : Type*} [Field k] {c : Code k} {u : Nat → k} (h : c.feedback ≠ [])
    (hlen : c.forward.length = c.feedback.length) :
    PowerSeries.mk (c.parity u) = c.numerator * c.denominator⁻¹ * PowerSeries.mk u := by
  have hunit : c.denominator * c.denominator⁻¹ = 1 := by
    apply PowerSeries.mul_inv_cancel
    rw [constantCoeff_denominator]
    exact one_ne_zero
  calc PowerSeries.mk (c.parity u)
      = c.denominator * c.denominator⁻¹ * PowerSeries.mk (c.parity u) := by rw [hunit, one_mul]
    _ = c.denominator⁻¹ * (c.denominator * PowerSeries.mk (c.parity u)) := by ring
    _ = c.denominator⁻¹ * (c.numerator * PowerSeries.mk u) := by
      rw [denominator_mul_parity h hlen]
    _ = c.numerator * c.denominator⁻¹ * PowerSeries.mk u := by ring

/-! ## Tails -/

theorem state_congr {c : Code R} {u v : Nat → R} {n : Nat} (h : ∀ i < n, u i = v i) :
    c.state u n = c.state v n := by
  induction n with
  | zero => rfl
  | succ n ih => rw [state, state, ih fun i hi => h i (by omega), h n (by omega)]

theorem parity_congr {c : Code R} {u v : Nat → R} {n : Nat} (h : ∀ i ≤ n, u i = v i) :
    c.parity u n = c.parity v n := by
  rw [parity, parity, state_congr fun i hi => h i (by omega), h n le_rfl]

/-- From step `K` on the input is what the feedback gives. -/
def Tailed (c : Code R) (K : Nat) (u : Nat → R) : Prop :=
  ∀ n, K ≤ n → u n = taps c.feedback (c.state u n)

theorem entries_of_tailed {K n : Nat} (h : c.Tailed K u) (hn : K ≤ n) : c.entries u n = 0 := by
  rw [entries, entry, h n hn, sub_self]

theorem window_eq_replicate {a : Nat → R} {K m n : Nat} (ha : ∀ i, K ≤ i → a i = 0)
    (hn : K + m ≤ n) : window a m n = List.replicate m 0 := by
  induction m generalizing n with
  | zero => rfl
  | succ m ih =>
    cases n with
    | zero => omega
    | succ n => rw [window, ha n (by omega), ih (by omega), List.replicate_succ]

/-- A tail as long as the register brings it back to zero. -/
theorem state_of_tailed {K n : Nat} (hne : c.feedback ≠ []) (h : c.Tailed K u)
    (hn : K + c.feedback.length ≤ n) : c.state u n = c.zero := by
  rw [c.state_eq_window u hne]
  exact window_eq_replicate (fun i hi => entries_of_tailed h hi) hn

theorem taps_replicate_zero (g : List R) (m : Nat) : taps g (List.replicate m 0) = 0 := by
  induction m generalizing g with
  | zero => cases g <;> rfl
  | succ m ih =>
    cases g with
    | nil => rfl
    | cons g gs => rw [List.replicate_succ, taps, ih, mul_zero, add_zero]

theorem input_of_tailed {K n : Nat} (hne : c.feedback ≠ []) (h : c.Tailed K u)
    (hn : K + c.feedback.length ≤ n) : u n = 0 := by
  rw [h n (by omega), state_of_tailed hne h hn, zero, taps_replicate_zero]

theorem parity_of_tailed {K n : Nat} (hne : c.feedback ≠ []) (h : c.Tailed K u)
    (hn : K + c.feedback.length ≤ n) : c.parity u n = 0 := by
  have hentry : c.entry (c.state u n) (u n) = 0 := entries_of_tailed h (by omega)
  rw [parity, output, hentry, state_of_tailed hne h hn, zero, taps_replicate_zero, mul_zero,
    add_zero]

/-- The input `v` up to step `K` and the tail after it, with the register it leaves. -/
def tailState (c : Code R) (K : Nat) (v : Nat → R) : Nat → List R
  | 0 => c.zero
  | n + 1 =>
    if n < K then c.next (c.tailState K v n) (v n) else 0 :: (c.tailState K v n).dropLast

def tail (c : Code R) (K : Nat) (v : Nat → R) (n : Nat) : R :=
  if n < K then v n else taps c.feedback (c.tailState K v n)

theorem state_tail (c : Code R) (K : Nat) (v : Nat → R) (n : Nat) :
    c.state (c.tail K v) n = c.tailState K v n := by
  induction n with
  | zero => rfl
  | succ n ih =>
    rw [state, tailState, ih, tail]
    split
    · rfl
    · rw [next, entry, sub_self]

theorem tailState_congr {c : Code R} {K : Nat} {v w : Nat → R} (h : ∀ i < K, v i = w i) (n : Nat) :
    c.tailState K v n = c.tailState K w n := by
  induction n with
  | zero => rfl
  | succ n ih =>
    rw [tailState, tailState, ih]
    split
    · rename_i hlt
      rw [h n hlt]
    · rfl

theorem tail_congr {c : Code R} {K : Nat} {v w : Nat → R} (h : ∀ i < K, v i = w i) :
    c.tail K v = c.tail K w := by
  funext n
  rw [tail, tail, tailState_congr h]
  split
  · rename_i hlt
    exact h n hlt
  · rfl

theorem tail_of_lt {K n : Nat} {v : Nat → R} (h : n < K) : c.tail K v n = v n := if_pos h

theorem tailed_tail (c : Code R) (K : Nat) (v : Nat → R) : c.Tailed K (c.tail K v) := by
  intro n hn
  rw [state_tail]
  exact if_neg (by omega)

end Code

end PdmaXen.Recursive
