import Mathlib.Algebra.CharP.Two
import Mathlib.Algebra.Field.ZMod
import PdmaXen.CInt
import PdmaXen.Recursive

/-!
# The constituent encoder

`encoder` of `tool.c` against the recursive systematic code with generator
`(1 + D + D³) / (1 + D² + D³)` over the field of two elements.
-/

namespace PdmaXen.Turbo
set_option autoImplicit false
open CInt Recursive PowerSeries

/-! ## The source -/

structure Registers where
  p0 : UInt8
  p1 : UInt8
  p2 : UInt8
  p3 : UInt8
  p4 : UInt8
  p : UInt8
  deriving DecidableEq, Repr

/-- Every register starts with the character `'0'`. -/
def Registers.initial : Registers := ⟨48, 48, 48, 48, 48, 48⟩

structure EncoderState where
  x : List UInt8
  parity : List UInt8
  regs : Registers
  deriving DecidableEq, Repr

def encoderRound (K_bit : Int) (st : EncoderState) (i : Nat) : Option EncoderState := do
  let p3 := st.regs.p2
  let p2 := st.regs.p1
  let p1 := st.regs.p0
  let p4 := (p2 ^^^ p3) &&& 1
  let (x, p0) ← if i < K_bit then do
      let xi ← load st.x i
      pure (st.x, (xi ^^^ p4) &&& 1)
    else do
      let x ← store st.x i p4
      pure (x, (p4 ^^^ p4) &&& 1)
  let p := (p0 ^^^ p1 ^^^ p3) &&& 1
  let parity ← store st.parity i p
  return ⟨x, parity, ⟨p0, p1, p2, p3, p4, p⟩⟩

def encoder (x : List UInt8) (K_bit : Int) (parity : List UInt8) : Option EncoderState := do
  let n ← IntType.fit .signed (K_bit + 3)
  forLoop n.toNat (encoderRound K_bit) ⟨x, parity, Registers.initial⟩

/-! ## Bytes as bits -/

def bit (b : UInt8) : ZMod 2 := b.toNat

def bits (l : List UInt8) (n : Nat) : ZMod 2 := bit (l.getD n 0)

noncomputable def bitSeries (l : List UInt8) : PowerSeries (ZMod 2) := PowerSeries.mk (bits l)

theorem bit_xor (a b : UInt8) : bit (a ^^^ b) = bit a + bit b := by
  unfold bit
  rw [UInt8.toNat_xor, ← Nat.cast_add, ZMod.natCast_eq_natCast_iff']
  have hodd := @Nat.xor_mod_two_eq_one a.toNat b.toNat
  omega

theorem bit_and_one (a : UInt8) : bit (a &&& 1) = bit a := by
  unfold bit
  rw [UInt8.toNat_and, ZMod.natCast_eq_natCast_iff']
  simp

theorem toNat_and_one_lt (a : UInt8) : (a &&& 1).toNat < 2 := by
  rw [UInt8.toNat_and]
  exact Nat.lt_succ_of_le Nat.and_le_right

theorem bits_set_self {l : List UInt8} {i : Nat} (h : i < l.length) (v : UInt8) :
    bits (l.set i v) i = bit v := by
  simp [bits, h]

theorem bits_set_ne {l : List UInt8} {i n : Nat} (h : i ≠ n) (v : UInt8) :
    bits (l.set i v) n = bits l n := by
  simp [bits, h]

theorem bits_of_length_le {l : List UInt8} {n : Nat} (h : l.length ≤ n) : bits l n = 0 := by
  simp [bits, bit, h]

/-! ## The code -/

/-- Feedback `1 + D² + D³`, output `1 + D + D³`. -/
def lteCode : Code (ZMod 2) := ⟨[0, 1, 1], 1, [1, 0, 1]⟩

theorem lteCode_denominator : lteCode.denominator = 1 + X ^ 2 + X ^ 3 := by
  simp only [Code.denominator, lteCode, tapSeries, map_zero, map_one]
  ring

theorem lteCode_numerator : lteCode.numerator = 1 + X + X ^ 3 := by
  simp only [Code.numerator, lteCode, tapSeries, map_zero, map_one]
  ring

theorem lteCode_next (s0 s1 s2 u : ZMod 2) :
    lteCode.next [s0, s1, s2] u = [u + (s1 + s2), s0, s1] := by
  simp [Code.next, Code.entry, lteCode, taps, CharTwo.sub_eq_add]

theorem lteCode_output (s0 s1 s2 u : ZMod 2) :
    lteCode.output [s0, s1, s2] u = u + (s1 + s2) + s0 + s2 := by
  simp only [Code.output, Code.entry, lteCode, taps, CharTwo.sub_eq_add]
  ring

theorem lteCode_feedback (s0 s1 s2 : ZMod 2) : taps lteCode.feedback [s0, s1, s2] = s1 + s2 := by
  simp [lteCode, taps]

/-! ## The loop -/

/-- What the tail mode feeds in, after the vector itself. -/
def inputBits (x : List UInt8) (K : Nat) : Nat → ZMod 2 := lteCode.tail K (bits x)

/-- After `i` rounds: the vector is untouched, what was read or written so far is the terminated
input, and `p0`, `p1`, `p2` are the register of the code. -/
structure Rounds (x : List UInt8) (K i : Nat) (st : EncoderState) : Prop where
  length_x : st.x.length = K + 3
  length_parity : st.parity.length = K + 3
  systematic : ∀ n < K, st.x[n]? = x[n]?
  input : ∀ n < i, bits st.x n = inputBits x K n
  tail_bit : ∀ n, K ≤ n → n < i → (st.x.getD n 0).toNat < 2
  parity : ∀ n < i, bits st.parity n = lteCode.parity (inputBits x K) n
  parity_bit : ∀ n < i, (st.parity.getD n 0).toNat < 2
  register : lteCode.state (inputBits x K) i = [bit st.regs.p0, bit st.regs.p1, bit st.regs.p2]
  drained0 : K < i → st.regs.p0 = 0
  drained1 : K + 1 < i → st.regs.p1 = 0
  drained2 : K + 2 < i → st.regs.p2 = 0

theorem rounds_zero {x parity : List UInt8} {K : Nat} (hx : x.length = K + 3)
    (hparity : parity.length = K + 3) : Rounds x K 0 ⟨x, parity, Registers.initial⟩ where
  length_x := hx
  length_parity := hparity
  systematic := fun _ _ => rfl
  input := fun n hn => absurd hn (Nat.not_lt_zero n)
  tail_bit := fun n _ hn => absurd hn (Nat.not_lt_zero n)
  parity := fun n hn => absurd hn (Nat.not_lt_zero n)
  parity_bit := fun n hn => absurd hn (Nat.not_lt_zero n)
  register := by
    have hchar : bit 48 = 0 := by decide
    simp [Code.state, Code.zero, lteCode, Registers.initial, hchar]
  drained0 := fun h => absurd h (Nat.not_lt_zero K)
  drained1 := fun h => absurd h (by omega)
  drained2 := fun h => absurd h (by omega)

theorem bits_eq_of_getElem? {l m : List UInt8} {n : Nat} (h : l[n]? = m[n]?) :
    bits l n = bits m n := by
  simp only [bits, List.getD_eq_getElem?_getD, h]

theorem rounds_succ {x : List UInt8} {K i : Nat} {st : EncoderState} (h : Rounds x K i st)
    (hi : i < K + 3) {x' : List UInt8} {p0 p4 p : UInt8} (hlen : x'.length = K + 3)
    (hold : ∀ n, n ≠ i → x'[n]? = st.x[n]?) (hsys : i < K → x'[i]? = st.x[i]?)
    (hnew : bits x' i = inputBits x K i) (htail : K ≤ i → (x'.getD i 0).toNat < 2 ∧ p0 = 0)
    (hp0 : bit p0 = inputBits x K i + (bit st.regs.p1 + bit st.regs.p2))
    (hp : p = (p0 ^^^ st.regs.p0 ^^^ st.regs.p2) &&& 1) :
    Rounds x K (i + 1)
      ⟨x', st.parity.set i p, ⟨p0, st.regs.p0, st.regs.p1, st.regs.p2, p4, p⟩⟩ where
  length_x := hlen
  length_parity := by rw [List.length_set, h.length_parity]
  systematic := by
    intro n hn
    by_cases heq : n = i
    · subst heq
      rw [hsys hn, h.systematic n hn]
    · rw [hold n heq, h.systematic n hn]
  input := by
    intro n hn
    by_cases heq : n = i
    · subst heq
      exact hnew
    · rw [bits_eq_of_getElem? (hold n heq)]
      exact h.input n (by omega)
  tail_bit := by
    intro n hK hn
    by_cases heq : n = i
    · subst heq
      exact (htail hK).1
    · simp only [List.getD_eq_getElem?_getD, hold n heq]
      simpa using h.tail_bit n hK (by omega)
  parity := by
    intro n hn
    by_cases heq : n = i
    · subst heq
      rw [bits_set_self (by rw [h.length_parity]; exact hi), hp, bit_and_one, bit_xor, bit_xor, hp0,
        Code.parity, h.register, lteCode_output]
    · rw [bits_set_ne (Ne.symm heq)]
      exact h.parity n (by omega)
  parity_bit := by
    intro n hn
    by_cases heq : n = i
    · subst heq
      have hlt : n < st.parity.length := by rw [h.length_parity]; exact hi
      simpa [hlt, hp] using toNat_and_one_lt (p0 ^^^ st.regs.p0 ^^^ st.regs.p2)
    · have := h.parity_bit n (by omega)
      simpa [Ne.symm heq] using this
  register := by
    rw [Code.state, h.register, lteCode_next, hp0]
  drained0 := fun hK => (htail (by omega)).2
  drained1 := fun hK => h.drained0 (by omega)
  drained2 := fun hK => h.drained1 (by omega)

def feedbackBit (st : EncoderState) : UInt8 := (st.regs.p1 ^^^ st.regs.p2) &&& 1

theorem bit_feedbackBit (st : EncoderState) :
    bit (feedbackBit st) = bit st.regs.p1 + bit st.regs.p2 := by
  rw [feedbackBit, bit_and_one, bit_xor]

def afterRound (st : EncoderState) (i : Nat) (x : List UInt8) (p0 : UInt8) : EncoderState :=
  let p := (p0 ^^^ st.regs.p0 ^^^ st.regs.p2) &&& 1
  ⟨x, st.parity.set i p, ⟨p0, st.regs.p0, st.regs.p1, st.regs.p2, feedbackBit st, p⟩⟩

theorem encoderRound_of_lt {K i : Nat} {st : EncoderState} (hlt : i < K) (hx : i < st.x.length)
    (hparity : i < st.parity.length) :
    encoderRound K st i = some (afterRound st i st.x ((st.x[i] ^^^ feedbackBit st) &&& 1)) := by
  have hload : load st.x (i : Int) = some st.x[i] := by
    rw [load_natCast, List.getElem?_eq_getElem hx]
  unfold encoderRound
  simp only [if_pos (Int.ofNat_lt.mpr hlt), Option.bind_eq_bind, hload, Option.bind_some,
    Option.pure_def, store_natCast hparity]
  rfl

theorem encoderRound_of_ge {K i : Nat} {st : EncoderState} (hge : K ≤ i) (hx : i < st.x.length)
    (hparity : i < st.parity.length) :
    encoderRound K st i = some (afterRound st i (st.x.set i (feedbackBit st)) 0) := by
  have hzero : (feedbackBit st ^^^ feedbackBit st) &&& 1 = 0 := by simp
  unfold encoderRound
  simp only [if_neg (not_lt.mpr (Int.ofNat_le.mpr hge)), Option.bind_eq_bind, store_natCast hx,
    Option.bind_some, Option.pure_def, store_natCast hparity]
  rw [← feedbackBit, hzero]
  rfl

theorem encoderRound_eq {x : List UInt8} {K i : Nat} {st : EncoderState} (h : Rounds x K i st)
    (hi : i < K + 3) : ∃ st', encoderRound K st i = some st' ∧ Rounds x K (i + 1) st' := by
  have hx : i < st.x.length := by rw [h.length_x]; exact hi
  have hparity : i < st.parity.length := by rw [h.length_parity]; exact hi
  rcases Nat.lt_or_ge i K with hlt | hge
  · have hread : bits st.x i = bit st.x[i] := by simp [bits, hx]
    have hbit : bits st.x i = inputBits x K i := by
      rw [inputBits, Code.tail_of_lt hlt]
      exact bits_eq_of_getElem? (h.systematic i hlt)
    refine ⟨_, encoderRound_of_lt hlt hx hparity, ?_⟩
    apply rounds_succ h hi h.length_x
    · intro n _
      rfl
    · intro _
      rfl
    · exact hbit
    · intro hK
      omega
    · rw [bit_and_one, bit_xor, bit_feedbackBit, ← hread, hbit]
    · rfl
  · have hfeedback : inputBits x K i = bit (feedbackBit st) := by
      have htailed := Code.tailed_tail lteCode K (bits x) i hge
      rw [← inputBits, h.register, lteCode_feedback] at htailed
      rw [htailed, bit_feedbackBit]
    refine ⟨_, encoderRound_of_ge hge hx hparity, ?_⟩
    apply rounds_succ h hi
    · rw [List.length_set, h.length_x]
    · intro n hn
      exact List.getElem?_set_ne (Ne.symm hn)
    · intro hlt
      omega
    · rw [bits_set_self hx, hfeedback]
    · intro _
      refine ⟨?_, rfl⟩
      rw [List.getD_eq_getElem?_getD, List.getElem?_set_self hx]
      exact toNat_and_one_lt (st.regs.p1 ^^^ st.regs.p2)
    · rw [hfeedback, ← bit_feedbackBit, CharTwo.add_self_eq_zero]
      rfl
    · rfl

/-! ## The whole encoder -/

/-- What the encoder leaves for a vector of `K` bits. -/
structure Encoded (x : List UInt8) (K : Nat) (st : EncoderState) : Prop where
  length_x : st.x.length = K + 3
  length_parity : st.parity.length = K + 3
  systematic : st.x.take K = x
  /-- The parity of the vector is its quotient of power series. -/
  parity_vector : ∀ n < K, bits st.parity n =
    coeff n ((1 + X + X ^ 3) * (1 + X ^ 2 + X ^ 3)⁻¹ * bitSeries x)
  /-- So is the whole parity, for the vector with its tail. -/
  parity_series : (1 + X ^ 2 + X ^ 3) * bitSeries st.parity = (1 + X + X ^ 3) * bitSeries st.x
  parity : ∀ n < K + 3, bits st.parity n = lteCode.parity (bits st.x) n
  /-- The tail bits are the feedback of the register they meet. -/
  tail : ∀ n, K ≤ n → n < K + 3 →
    bits st.x n = taps lteCode.feedback (lteCode.state (bits st.x) n)
  /-- The register of the code and the variables that hold it are zero at the end. -/
  register : lteCode.state (bits st.x) (K + 3) = lteCode.zero
  drained : st.regs.p0 = 0 ∧ st.regs.p1 = 0 ∧ st.regs.p2 = 0
  new_bits : (∀ n < K + 3, (st.parity.getD n 0).toNat < 2) ∧
    ∀ n, K ≤ n → n < K + 3 → (st.x.getD n 0).toNat < 2

theorem lteCode_feedback_ne_nil : lteCode.feedback ≠ [] := List.cons_ne_nil _ _

/-- Past the buffers both sequences stay zero, as the terminated code does. -/
theorem bits_eq_inputBits {x : List UInt8} {K : Nat} {st : EncoderState}
    (h : Rounds x K (K + 3) st) : bits st.x = inputBits x K := by
  funext n
  rcases Nat.lt_or_ge n (K + 3) with hlt | hge
  · exact h.input n hlt
  · rw [bits_of_length_le (by rw [h.length_x]; exact hge)]
    exact (Code.input_of_tailed lteCode_feedback_ne_nil
      (Code.tailed_tail lteCode K (bits x)) hge).symm

theorem bits_parity_eq {x : List UInt8} {K : Nat} {st : EncoderState}
    (h : Rounds x K (K + 3) st) : bits st.parity = lteCode.parity (inputBits x K) := by
  funext n
  rcases Nat.lt_or_ge n (K + 3) with hlt | hge
  · exact h.parity n hlt
  · rw [bits_of_length_le (by rw [h.length_parity]; exact hge)]
    exact (Code.parity_of_tailed lteCode_feedback_ne_nil
      (Code.tailed_tail lteCode K (bits x)) hge).symm

theorem encoded_of_rounds {x tail : List UInt8} {K : Nat} {st : EncoderState}
    (hx : x.length = K) (h : Rounds (x ++ tail) K (K + 3) st) : Encoded x K st := by
  have hinput := bits_eq_inputBits h
  have hparity := bits_parity_eq h
  have htailed : lteCode.Tailed K (inputBits (x ++ tail) K) :=
    Code.tailed_tail lteCode K (bits (x ++ tail))
  have htake : st.x.take K = x := by
    apply List.ext_getElem?
    intro n
    rcases Nat.lt_or_ge n K with hlt | hge
    · rw [List.getElem?_take_of_lt hlt, h.systematic n hlt, List.getElem?_append_left (by omega)]
    · rw [List.getElem?_take_eq_none hge, List.getElem?_eq_none (by omega)]
  have hvector : ∀ n < K, bits x n = bits st.x n := by
    intro n hn
    apply bits_eq_of_getElem?
    rw [← htake, List.getElem?_take_of_lt hn]
  refine ⟨h.length_x, h.length_parity, htake, ?_, ?_, ?_, ?_, ?_, ?_, h.parity_bit, h.tail_bit⟩
  · intro n hn
    have hseries := Code.parity_series (u := bits x) lteCode_feedback_ne_nil (c := lteCode) rfl
    rw [lteCode_numerator, lteCode_denominator] at hseries
    rw [bitSeries, ← hseries, coeff_mk, hparity, ← hinput]
    exact Code.parity_congr fun i hi => (hvector i (by omega)).symm
  · have hmul := Code.denominator_mul_parity (u := inputBits (x ++ tail) K)
      lteCode_feedback_ne_nil (c := lteCode) rfl
    rw [lteCode_numerator, lteCode_denominator] at hmul
    rw [bitSeries, bitSeries, hparity, hinput]
    exact hmul
  · intro n _
    rw [hparity, hinput]
  · intro n hn _
    rw [hinput]
    exact htailed n hn
  · rw [hinput]
    exact Code.state_of_tailed lteCode_feedback_ne_nil htailed le_rfl
  · exact ⟨h.drained0 (by omega), h.drained1 (by omega), h.drained2 (by omega)⟩

theorem encoder_rounds {x parity : List UInt8} {K : Nat} (hx : x.length = K + 3)
    (hparity : parity.length = K + 3) (hK : K + 3 ≤ 2147483647) :
    ∃ st, encoder x K parity = some st ∧ Rounds x K (K + 3) st := by
  have hcast : (K : Int) + 3 = ↑(K + 3) := by
    push_cast
    rfl
  have hin : IntType.InRange .signed ↑(K + 3) := ⟨by omega, by omega⟩
  unfold encoder
  rw [hcast, fit_bind hin, Int.toNat_natCast]
  apply forLoop_induction (Rounds x K)
  · exact rounds_zero hx hparity
  · intro i st hi h
    exact encoderRound_eq h hi

/-- The encoder is the recursive systematic code of LTE, terminated, on every vector whose length
with the tail is an `int`. -/
theorem encoder_eq_lte_code {x tail parity : List UInt8} {K : Nat} (hx : x.length = K)
    (htail : tail.length = 3) (hparity : parity.length = K + 3) (hK : K + 3 ≤ 2147483647) :
    ∃ st, encoder (x ++ tail) K parity = some st ∧ Encoded x K st := by
  have hlen : (x ++ tail).length = K + 3 := by rw [List.length_append, hx, htail]
  obtain ⟨st, hrun, hrounds⟩ := encoder_rounds hlen hparity hK
  exact ⟨st, hrun, encoded_of_rounds hx hrounds⟩

theorem encoder_eq_lte_code_eight_bits :
    ∃ st, encoder ([1, 0, 1, 1, 0, 0, 1, 0] ++ [0, 0, 0]) (8 : Nat) (List.replicate 11 0)
      = some st ∧ Encoded [1, 0, 1, 1, 0, 0, 1, 0] 8 st :=
  encoder_eq_lte_code (by decide) (by decide) (by decide) (by decide)

example : (encoder [1, 0, 0, 0] 1 [0, 0, 0, 0]).map (fun st => (st.x, st.parity)) =
    some ([1, 0, 1, 1], [1, 1, 0, 1]) := by decide

/-- The longest vectors an `int` can count have no room for the tail. -/
theorem encoder_tail_overflows :
    ¬ ∀ (x tail parity : List UInt8) (K : Nat), x.length = K → tail.length = 3 →
      parity.length = K + 3 → ∃ st, encoder (x ++ tail) K parity = some st ∧ Encoded x K st := by
  intro h
  obtain ⟨st, hrun, _⟩ := h (List.replicate 2147483645 0) [0, 0, 0] (List.replicate 2147483648 0)
    2147483645 List.length_replicate rfl List.length_replicate
  have hover : ¬ IntType.InRange .signed (((2147483645 : Nat) : Int) + 3) := by decide
  rw [encoder, fit_signed_eq_none hover] at hrun
  cases hrun

end PdmaXen.Turbo
