import Mathlib.Algebra.BigOperators.Group.Finset.Basic
import Mathlib.Algebra.Order.Ring.Int
import Mathlib.Order.Lattice

/-!
# Trellises

States that are reached from two states each, and the search for a path of the greatest
value: the value of the best path into every state, the choice that attains it, and the
path that the choices lead back along.
-/

namespace PdmaXen.Trellis
set_option autoImplicit false

section Trellis
variable {S : Type} (prev : S → Bool → S) (init : S → Int) (branch : Nat → S → Bool → Int)

/-- The value of the best path into `s` at time `t`. -/
def best : Nat → S → Int
  | 0, s => init s
  | t + 1, s => max (best t (prev s false) + branch t s false) (best t (prev s true) + branch t s true)

def choice (t : Nat) (s : S) : Bool :=
  decide (best prev init branch t (prev s false) + branch t s false ≤
    best prev init branch t (prev s true) + branch t s true)

/-- A path through the states `σ`, with the steps `c`. -/
def Path (n : Nat) (σ : Nat → S) (c : Nat → Bool) : Prop := ∀ t < n, σ t = prev (σ (t + 1)) (c t)

def value (n : Nat) (σ : Nat → S) (c : Nat → Bool) : Int :=
  init (σ 0) + ∑ t ∈ Finset.range n, branch t (σ (t + 1)) (c t)

/-- The state `k` steps before `s` at time `n`, on the path that the choices lead back along. -/
def trace (n : Nat) (s : S) : Nat → S
  | 0 => s
  | k + 1 => prev (trace n s k) (choice prev init branch (n - (k + 1)) (trace n s k))

variable {prev init branch}

theorem choice_spec (t : Nat) (s : S) : best prev init branch (t + 1) s =
    best prev init branch t (prev s (choice prev init branch t s)) +
      branch t s (choice prev init branch t s) := by
  rw [best, choice]
  by_cases h : best prev init branch t (prev s false) + branch t s false ≤
      best prev init branch t (prev s true) + branch t s true
  · rw [decide_eq_true h, max_eq_right h]
  · rw [decide_eq_false h, max_eq_left (le_of_not_ge h)]

theorem step_le_best (t : Nat) (s : S) (b : Bool) :
    best prev init branch t (prev s b) + branch t s b ≤ best prev init branch (t + 1) s := by
  cases b
  · exact le_max_left _ _
  · exact le_max_right _ _

theorem value_le_best {n : Nat} {σ : Nat → S} {c : Nat → Bool} (h : Path prev n σ c) :
    value init branch n σ c ≤ best prev init branch n (σ n) := by
  induction n with
  | zero =>
    rw [value, Finset.sum_range_zero, add_zero]
    exact le_rfl
  | succ n ih =>
    have hpath := ih fun t ht => h t (Nat.lt_succ_of_lt ht)
    have hstep : best prev init branch n (prev (σ (n + 1)) (c n)) + branch n (σ (n + 1)) (c n) ≤
        best prev init branch (n + 1) (σ (n + 1)) := step_le_best n (σ (n + 1)) (c n)
    rw [← h n n.lt_succ_self] at hstep
    rw [value] at hpath ⊢
    rw [Finset.sum_range_succ, ← add_assoc]
    omega

theorem trace_succ (n : Nat) (s : S) (k : Nat) : trace prev init branch (n + 1) s (k + 1) =
    trace prev init branch n (prev s (choice prev init branch n s)) k := by
  induction k with
  | zero => rfl
  | succ k ih =>
    have htime : n + 1 - (k + 1 + 1) = n - (k + 1) := by omega
    rw [trace, ih, htime]
    rfl

def traced (prev : S → Bool → S) (init : S → Int) (branch : Nat → S → Bool → Int) (n : Nat) (s : S)
    (t : Nat) : S := trace prev init branch n s (n - t)

def tracedChoice (prev : S → Bool → S) (init : S → Int) (branch : Nat → S → Bool → Int) (n : Nat)
    (s : S) (t : Nat) : Bool := choice prev init branch t (traced prev init branch n s (t + 1))

theorem traced_end (n : Nat) (s : S) : traced prev init branch n s n = s := by
  rw [traced, Nat.sub_self]
  rfl

theorem traced_succ {n : Nat} (s : S) {t : Nat} (ht : t ≤ n) : traced prev init branch (n + 1) s t =
    traced prev init branch n (prev s (choice prev init branch n s)) t := by
  have hindex : n + 1 - t = n - t + 1 := by omega
  rw [traced, hindex, trace_succ]
  rfl

theorem traced_path (n : Nat) (s : S) :
    Path prev n (traced prev init branch n s) (tracedChoice prev init branch n s) := by
  intro t ht
  have hindex : n - t = n - (t + 1) + 1 := by omega
  have htime : n - (n - (t + 1) + 1) = t := by omega
  rw [tracedChoice, traced, hindex, trace, htime]
  rfl

/-- The traced path is worth what is known of the best one. -/
theorem value_traced (n : Nat) (s : S) : value init branch n (traced prev init branch n s)
    (tracedChoice prev init branch n s) = best prev init branch n s := by
  induction n generalizing s with
  | zero =>
    rw [value, Finset.sum_range_zero, add_zero]
    rfl
  | succ n ih =>
    have hlast : tracedChoice prev init branch (n + 1) s n = choice prev init branch n s := by
      rw [tracedChoice, traced_end]
    have hsum : ∑ t ∈ Finset.range n, branch t (traced prev init branch (n + 1) s (t + 1))
        (tracedChoice prev init branch (n + 1) s t) =
          ∑ t ∈ Finset.range n, branch t
            (traced prev init branch n (prev s (choice prev init branch n s)) (t + 1))
            (tracedChoice prev init branch n (prev s (choice prev init branch n s)) t) := by
      apply Finset.sum_congr rfl
      intro t ht
      have hlt := Finset.mem_range.mp ht
      rw [tracedChoice, tracedChoice, traced_succ s (by omega)]
    rw [value, Finset.sum_range_succ, hsum, hlast, traced_end, traced_succ s (Nat.zero_le n),
      ← add_assoc, choice_spec, ← ih]
    rfl

end Trellis

/-! ## Spread -/

/-- How far the best values of two states can be apart: `gap s s'` bounds it at the start, and
whenever a state `s` can follow the last step into `s'` from a state less far apart. -/
theorem best_spread {S : Type} {prev : S → Bool → S} {init : S → Int} {branch : Nat → S → Bool → Int}
    {gap : S → S → Int} (hinit : ∀ s s', init s' ≤ init s + gap s s')
    (hstep : ∀ t s s' b', ∃ b, branch t s' b' + gap (prev s b) (prev s' b') ≤ branch t s b + gap s s')
    (t : Nat) (s s' : S) : best prev init branch t s' ≤ best prev init branch t s + gap s s' := by
  induction t generalizing s s' with
  | zero => exact hinit s s'
  | succ t ih =>
    have hinto := @choice_spec S prev init branch t s'
    generalize choice prev init branch t s' = b' at hinto
    obtain ⟨b, hb⟩ := hstep t s s' b'
    have hle := @step_le_best S prev init branch t s b
    have hgap := ih (prev s b) (prev s' b')
    omega

end PdmaXen.Trellis
