import Mathlib.Data.List.Basic
import Mathlib.Logic.Function.Iterate

/-!
# Linear recurrences, a bit and a word at a time

A shift register of `L` bits puts out a sequence in which every bit is the sum of some of
the bits `L` places before it. When the taps are few and low, words of `L + 1` bits can be
stepped whole.
-/

namespace PdmaXen.Recurrence
set_option autoImplicit false

/-- The sum of a sequence over the taps. -/
def tapSum (taps : List Nat) (f : Nat → Bool) : Bool := taps.foldr (fun t acc => f t ^^ acc) false

theorem tapSum_congr {taps : List Nat} {f g : Nat → Bool} (h : ∀ t ∈ taps, f t = g t) :
    tapSum taps f = tapSum taps g := by
  induction taps with
  | nil => rfl
  | cons t ts ih =>
    have htail := ih fun u hu => h u (List.mem_cons_of_mem t hu)
    simp only [tapSum, List.foldr_cons, h t List.mem_cons_self]
    exact congrArg _ htail

theorem tapSum_xor (taps : List Nat) (f g : Nat → Bool) :
    tapSum taps (fun t => f t ^^ g t) = (tapSum taps f ^^ tapSum taps g) := by
  induction taps with
  | nil => rfl
  | cons t ts ih =>
    simp only [tapSum, List.foldr_cons] at ih ⊢
    rw [ih]
    cases f t <;> cases g t <;> cases List.foldr (fun t acc => f t ^^ acc) false ts <;>
      cases List.foldr (fun t acc => g t ^^ acc) false ts <;> rfl

/-! ## The register -/

section Register
variable {L : Nat} (taps : List Nat)

/-- One shift: the lowest bit leaves, the sum over the taps enters at the top. -/
def serial (s : BitVec L) : BitVec L :=
  (s >>> 1) ^^^ (if tapSum taps s.getLsbD then BitVec.twoPow L (L - 1) else 0#L)

/-- The bits that leave the register. -/
def stream (s : BitVec L) (n : Nat) : Bool := ((serial taps)^[n] s).getLsbD 0

/-- A sequence in which every bit is the sum over the taps of those `L` places before it. -/
def Follows (L : Nat) (f : Nat → Bool) : Prop := ∀ n, f (n + L) = tapSum taps fun t => f (n + t)

variable {taps}

theorem getLsbD_serial (s : BitVec L) {i : Nat} (hi : i + 1 < L) :
    (serial taps s).getLsbD i = s.getLsbD (i + 1) := by
  have htop : (if tapSum taps s.getLsbD then BitVec.twoPow L (L - 1) else 0#L).getLsbD i = false := by
    split
    · rw [BitVec.getLsbD_twoPow, decide_eq_false (by omega : ¬ L - 1 = i), Bool.and_false]
    · exact BitVec.getLsbD_zero
  rw [serial, BitVec.getLsbD_xor, htop, BitVec.getLsbD_ushiftRight, Bool.xor_false, Nat.add_comm]

theorem getLsbD_serial_last (s : BitVec L) (hL : 0 < L) :
    (serial taps s).getLsbD (L - 1) = tapSum taps s.getLsbD := by
  have hout : s.getLsbD (1 + (L - 1)) = false := BitVec.getLsbD_of_ge _ _ (by omega)
  rw [serial, BitVec.getLsbD_xor, BitVec.getLsbD_ushiftRight, hout, Bool.false_xor]
  cases tapSum taps s.getLsbD with
  | false => exact BitVec.getLsbD_zero
  | true =>
    rw [if_pos rfl, BitVec.getLsbD_twoPow, decide_eq_true (by omega : L - 1 < L)]
    simp

/-- What the register holds is what it will put out. -/
theorem getLsbD_iterate_serial (s : BitVec L) (n : Nat) {i : Nat} (hi : i < L) :
    ((serial taps)^[n] s).getLsbD i = stream taps s (n + i) := by
  induction i generalizing n with
  | zero => rfl
  | succ i ih =>
    have hnext := ih (n + 1) (by omega)
    rw [Function.iterate_succ_apply', getLsbD_serial _ hi] at hnext
    rw [hnext, Nat.add_right_comm, Nat.add_assoc]

theorem stream_of_lt (s : BitVec L) {i : Nat} (hi : i < L) : stream taps s i = s.getLsbD i := by
  rw [← Nat.zero_add i, ← getLsbD_iterate_serial s 0 hi, Nat.zero_add]
  rfl

theorem stream_follows (hL : 0 < L) (htaps : ∀ t ∈ taps, t < L) (s : BitVec L) :
    Follows taps L (stream taps s) := by
  intro n
  have hlast : n + L = n + 1 + (L - 1) := by omega
  rw [hlast, ← getLsbD_iterate_serial s (n + 1) (by omega), Function.iterate_succ_apply',
    getLsbD_serial_last _ hL]
  exact tapSum_congr fun t ht => getLsbD_iterate_serial s n (htaps t ht)

end Register

/-! ## A word at a time -/

section Words
variable {L : Nat}

/-- The word after `x`: first what the bits of `x` give, then the bits that need new ones. -/
def wordStep (taps : List Nat) (x : BitVec (L + 1)) : BitVec (L + 1) :=
  let y := taps.foldr (fun t y => (x >>> (t + 1)) ^^^ y) 0
  taps.foldr (fun t z => (y <<< (L - t)) ^^^ z) y

/-- The word holds the sequence from place `m` on. -/
def Holds (f : Nat → Bool) (m : Nat) (x : BitVec (L + 1)) : Prop :=
  ∀ j ≤ L, x.getLsbD j = f (m + j)

theorem getLsbD_foldr_shiftRight (taps : List Nat) (x : BitVec (L + 1)) (j : Nat) :
    (taps.foldr (fun t y => (x >>> (t + 1)) ^^^ y) 0).getLsbD j =
      tapSum taps fun t => x.getLsbD (t + 1 + j) := by
  induction taps with
  | nil => exact BitVec.getLsbD_zero
  | cons t ts ih =>
    rw [List.foldr_cons, BitVec.getLsbD_xor, ih, BitVec.getLsbD_ushiftRight]
    rfl

theorem getLsbD_foldr_shiftLeft (taps : List Nat) (y z : BitVec (L + 1)) {j : Nat} (hj : j ≤ L) :
    (taps.foldr (fun t z => (y <<< (L - t)) ^^^ z) z).getLsbD j =
      (tapSum taps (fun t => !decide (j < L - t) && y.getLsbD (j - (L - t))) ^^ z.getLsbD j) := by
  have hlt : j < L + 1 := by omega
  induction taps with
  | nil => simp [tapSum]
  | cons t ts ih =>
    rw [List.foldr_cons, BitVec.getLsbD_xor, ih, BitVec.getLsbD_shiftLeft, ← Bool.xor_assoc]
    simp only [tapSum, List.foldr_cons, hlt, decide_true, Bool.true_and]

/-- Stepping a word moves it on by its width, when no tap is as far up as half the register. -/
theorem holds_wordStep {taps : List Nat} {f : Nat → Bool} (hf : Follows taps L f)
    (htaps : ∀ t ∈ taps, 2 * t < L) {m : Nat} {x : BitVec (L + 1)} (hx : Holds f m x) :
    Holds f (m + (L + 1)) (wordStep taps x) := by
  have hfirst : ∀ i, (∀ t ∈ taps, t + i < L) →
      (tapSum taps fun t => x.getLsbD (t + 1 + i)) = f (m + (L + 1) + i) := by
    intro i hi
    have hplace : m + (L + 1) + i = m + 1 + i + L := by omega
    rw [hplace, hf]
    apply tapSum_congr
    intro t ht
    rw [hx _ (by have := hi t ht; omega)]
    congr 1
    omega
  intro j hj
  have hplace : m + (L + 1) + j = m + 1 + j + L := by omega
  rw [wordStep, getLsbD_foldr_shiftLeft _ _ _ hj, getLsbD_foldr_shiftRight, ← tapSum_xor, hplace, hf]
  apply tapSum_congr
  intro t ht
  rw [getLsbD_foldr_shiftRight]
  rcases Nat.lt_or_ge j (L - t) with hlt | hge
  · rw [hx _ (by omega)]
    simp only [hlt, decide_true, Bool.not_true, Bool.false_and, Bool.false_xor]
    congr 1
    omega
  · have hnew : ∀ u ∈ taps, u + (j - (L - t)) < L := by
      intro u hu
      have h1 := htaps t ht
      have h2 := htaps u hu
      omega
    have hout : x.getLsbD (t + 1 + j) = false := BitVec.getLsbD_of_ge _ _ (by omega)
    rw [hfirst _ hnew, hout]
    have ht' := htaps t ht
    simp only [Nat.not_lt_of_le hge, decide_false, Bool.not_false, Bool.true_and, Bool.xor_false]
    congr 1
    omega

theorem holds_iterate_wordStep {taps : List Nat} {f : Nat → Bool} (hf : Follows taps L f)
    (htaps : ∀ t ∈ taps, 2 * t < L) {m : Nat} {x : BitVec (L + 1)} (hx : Holds f m x) (n : Nat) :
    Holds f (m + n * (L + 1)) ((wordStep taps)^[n] x) := by
  induction n with
  | zero => simpa using hx
  | succ n ih =>
    rw [Function.iterate_succ_apply', Nat.succ_mul, ← Nat.add_assoc]
    exact holds_wordStep hf htaps ih

/-- A word made of the register and of the first bit that enters it. -/
theorem holds_stream {taps : List Nat} (hL : 0 < L) (htaps : ∀ t ∈ taps, t < L) {s : BitVec L}
    {x : BitVec (L + 1)} (hlow : ∀ j < L, x.getLsbD j = s.getLsbD j)
    (htop : x.getLsbD L = tapSum taps s.getLsbD) : Holds (stream taps s) 0 x := by
  intro j hj
  rw [Nat.zero_add]
  rcases Nat.lt_or_ge j L with hlt | hge
  · rw [hlow j hlt, stream_of_lt s hlt]
  · obtain rfl : j = L := by omega
    have hnext := stream_follows hL htaps s 0
    rw [Nat.zero_add] at hnext
    rw [htop, hnext]
    apply tapSum_congr
    intro t ht
    rw [Nat.zero_add, stream_of_lt s (htaps t ht)]

end Words

end PdmaXen.Recurrence
