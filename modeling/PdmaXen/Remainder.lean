import Mathlib.Algebra.CharP.Two
import Mathlib.Algebra.Field.ZMod
import Mathlib.Algebra.Polynomial.Div
import Mathlib.RingTheory.AdjoinRoot
import Mathlib.Tactic.LinearCombination

/-!
# Division by a shift register

A register that is shifted once for every bit of a message: its word is the remainder of
the message, moved up by the width of the register, modulo the generator. What the
remainder detects is what the generator does not divide.
-/

namespace PdmaXen.Remainder
set_option autoImplicit false
open Polynomial

variable {w : Nat}

/-! ## Words as polynomials -/

def bit (b : Bool) : ZMod 2 := if b then 1 else 0

theorem bit_xor (a b : Bool) : bit (a ^^ b) = bit a + bit b := by
  cases a <;> cases b <;> decide

theorem bit_injective : Function.Injective bit := by
  intro a b h
  cases a <;> cases b <;> simp_all [bit]

/-- Bit `i` of a word is the coefficient of `X ^ i`. -/
noncomputable def poly (x : BitVec w) : (ZMod 2)[X] :=
  ∑ i ∈ Finset.range w, C (bit (x.getLsbD i)) * X ^ i

theorem coeff_poly (x : BitVec w) (n : Nat) : (poly x).coeff n = bit (x.getLsbD n) := by
  simp only [poly, finsetSum_coeff, coeff_C_mul_X_pow, Finset.sum_ite_eq, Finset.mem_range]
  split
  · rfl
  · rename_i hn
    rw [BitVec.getLsbD_of_ge x n (by omega)]
    rfl

theorem poly_zero : poly (0#w) = 0 := by
  ext n
  simp [coeff_poly, bit]

theorem poly_xor (x y : BitVec w) : poly (x ^^^ y) = poly x + poly y := by
  ext n
  rw [coeff_add, coeff_poly, coeff_poly, coeff_poly, BitVec.getLsbD_xor, bit_xor]

theorem degree_poly_lt (x : BitVec w) : (poly x).degree < w := by
  rw [degree_lt_iff_coeff_zero]
  intro n hn
  rw [coeff_poly, BitVec.getLsbD_of_ge x n hn]
  rfl

/-! ## The register -/

def top (w : Nat) (b : Bool) : BitVec w := if b then BitVec.twoPow w (w - 1) else 0#w

/-- One shift: what falls out at the top comes back as the word `p`. -/
def shift (p x : BitVec w) : BitVec w := if x.msb then (x <<< 1) ^^^ p else x <<< 1

/-- The bits of a message, the first one highest, shifted into the register. -/
def divide (p : BitVec w) (r : BitVec w) (bits : List Bool) : BitVec w :=
  bits.foldl (fun r b => shift p (r ^^^ top w b)) r

/-- The generator, with its highest coefficient set. -/
noncomputable def generator (p : BitVec w) : (ZMod 2)[X] := X ^ w + poly p

/-- A message as a polynomial, its last bit constant. -/
noncomputable def message (bits : List Bool) : (ZMod 2)[X] :=
  bits.foldl (fun q b => X * q + C (bit b)) 0

theorem monic_generator (p : BitVec w) : (generator p).Monic :=
  monic_X_pow_add (degree_poly_lt p)

theorem degree_generator (p : BitVec w) : (generator p).degree = w := by
  rw [generator, degree_add_eq_left_of_degree_lt] <;> rw [degree_X_pow]
  exact degree_poly_lt p

theorem poly_top (hw : 0 < w) (b : Bool) : poly (top w b) = C (bit b) * X ^ (w - 1) := by
  ext n
  rw [coeff_poly, coeff_C_mul_X_pow]
  cases b with
  | false => simp [top, bit]
  | true =>
    simp only [top, if_true, BitVec.getLsbD_twoPow]
    rcases Nat.lt_trichotomy n (w - 1) with h | h | h
    · rw [if_neg (by omega)]
      simp [bit]
      omega
    · simp [bit, h]
      omega
    · rw [if_neg (by omega)]
      simp [bit]
      omega

theorem poly_shift (hw : 0 < w) (p x : BitVec w) :
    poly (shift p x) + C (bit x.msb) * generator p = X * poly x := by
  have hmsb : x.msb = x.getLsbD (w - 1) := BitVec.msb_eq_getLsbD_last x
  have hup : poly (x <<< 1) + C (bit x.msb) * X ^ w = X * poly x := by
    ext n
    rw [coeff_add, coeff_poly, coeff_C_mul_X_pow, BitVec.getLsbD_shiftLeft]
    cases n with
    | zero => simp [bit, Nat.ne_of_lt hw]
    | succ n =>
      rw [coeff_X_mul, coeff_poly]
      rcases Nat.lt_trichotomy (n + 1) w with h | h | h
      · rw [if_neg (by omega)]
        simp [h]
      · subst h
        simp [bit, hmsb]
      · rw [if_neg (by omega), BitVec.getLsbD_of_ge x n (by omega)]
        simp [bit, Nat.not_lt_of_lt h]
  unfold shift generator
  cases hb : x.msb with
  | false =>
    rw [hb] at hup
    simpa [bit] using hup
  | true =>
    have hone : C (bit true) = (1 : (ZMod 2)[X]) := by simp [bit]
    have htwo : poly p + poly p = 0 := CharTwo.add_self_eq_zero _
    rw [hb, hone] at hup
    simp only [if_true, poly_xor, hone]
    linear_combination hup + htwo

theorem shift_zero (p : BitVec w) : shift p 0#w = 0#w := by
  simp [shift]

theorem shift_xor (p x y : BitVec w) : shift p (x ^^^ y) = shift p x ^^^ shift p y := by
  have hcancel : ∀ a b : BitVec w, a ^^^ b = a ^^^ p ^^^ (b ^^^ p) := by
    intro a b
    rw [BitVec.xor_assoc a p, ← BitVec.xor_assoc p b p, BitVec.xor_comm p b, BitVec.xor_assoc b p p,
      BitVec.xor_self, BitVec.xor_zero]
  unfold shift
  rw [BitVec.msb_xor, BitVec.shiftLeft_xor_distrib]
  cases x.msb <;> cases y.msb
  · rfl
  · exact BitVec.xor_assoc _ _ _
  · simp only [Bool.xor_false, if_true, Bool.false_eq_true, if_false]
    rw [BitVec.xor_assoc, BitVec.xor_comm _ p, BitVec.xor_assoc]
  · exact hcancel _ _

theorem shifts_xor (p x y : BitVec w) (n : Nat) :
    (shift p)^[n] (x ^^^ y) = (shift p)^[n] x ^^^ (shift p)^[n] y := by
  induction n generalizing x y with
  | zero => rfl
  | succ n ih => rw [Function.iterate_succ_apply, shift_xor, ih]; rfl

/-! ## Messages -/

theorem message_append_singleton (bits : List Bool) (b : Bool) :
    message (bits ++ [b]) = X * message bits + C (bit b) := by
  rw [message, List.foldl_append]
  rfl

theorem message_append (a b : List Bool) :
    message (a ++ b) = X ^ b.length * message a + message b := by
  induction b using List.reverseRecOn with
  | nil => simp [message]
  | append_singleton b c ih =>
    rw [← List.append_assoc, message_append_singleton, ih, message_append_singleton,
      List.length_append, List.length_singleton]
    ring

theorem degree_message_lt (bits : List Bool) : (message bits).degree < bits.length := by
  induction bits using List.reverseRecOn with
  | nil => simp [message]
  | append_singleton bits b ih =>
    rw [degree_lt_iff_coeff_zero] at ih ⊢
    intro n hn
    rw [List.length_append, List.length_singleton] at hn
    obtain ⟨m, rfl⟩ := Nat.exists_eq_add_of_le' (Nat.le_of_add_left_le hn)
    rw [message_append_singleton, coeff_add, coeff_X_mul, ih m (by omega), coeff_C,
      if_neg (by omega), add_zero]

theorem coeff_message (bits : List Bool) (n : Nat) :
    (message bits).coeff n = bit (bits.reverse.getD n false) := by
  induction bits using List.reverseRecOn generalizing n with
  | nil => simp [message, bit]
  | append_singleton bits b ih =>
    rw [message_append_singleton, List.reverse_append, coeff_add]
    cases n with
    | zero => simp
    | succ n =>
      rw [coeff_X_mul, ih, coeff_C, if_neg (by omega), add_zero]
      rfl

theorem coeff_message_of_lt {bits : List Bool} {n : Nat} (h : n < bits.length) :
    (message bits).coeff n = bit (bits.getD (bits.length - 1 - n) false) := by
  rw [coeff_message, List.getD_eq_getElem?_getD, List.getElem?_reverse h,
    List.getD_eq_getElem?_getD]

theorem message_injective {a b : List Bool} (hlen : a.length = b.length)
    (h : message a = message b) : a = b := by
  apply List.ext_getElem hlen
  intro i ha hb
  have hcoeff := congrArg (fun q => q.coeff (a.length - 1 - i)) h
  have hi : a.length - 1 - (a.length - 1 - i) = i := by omega
  rw [coeff_message_of_lt (by omega), coeff_message_of_lt (by omega), ← hlen, hi] at hcoeff
  simpa [ha, hb] using bit_injective hcoeff

/-! ## The register holds the remainder -/

theorem divide_append (p r : BitVec w) (a b : List Bool) :
    divide p r (a ++ b) = divide p (divide p r a) b := List.foldl_append

theorem mk_poly_shift (hw : 0 < w) (p x : BitVec w) :
    AdjoinRoot.mk (generator p) (poly (shift p x)) = AdjoinRoot.mk (generator p) (X * poly x) := by
  rw [← poly_shift hw, map_add, map_mul, AdjoinRoot.mk_self, mul_zero, add_zero]

theorem mk_poly_divide (hw : 0 < w) (p r : BitVec w) (bits : List Bool) :
    AdjoinRoot.mk (generator p) (poly (divide p r bits)) =
      AdjoinRoot.mk (generator p) (X ^ bits.length * poly r + X ^ w * message bits) := by
  induction bits using List.reverseRecOn with
  | nil => simp [divide, message]
  | append_singleton bits b ih =>
    have hpow : X ^ w = (X : (ZMod 2)[X]) * X ^ (w - 1) := by
      rw [← pow_succ', Nat.sub_add_cancel hw]
    rw [divide_append]
    calc AdjoinRoot.mk (generator p) (poly (shift p (divide p r bits ^^^ top w b)))
        = AdjoinRoot.mk (generator p) X * (AdjoinRoot.mk (generator p) (poly (divide p r bits)) +
            AdjoinRoot.mk (generator p) (C (bit b) * X ^ (w - 1))) := by
          rw [mk_poly_shift hw, poly_xor, poly_top hw, map_mul, map_add]
      _ = AdjoinRoot.mk (generator p) (X ^ (bits ++ [b]).length * poly r +
            X ^ w * message (bits ++ [b])) := by
          rw [ih, ← map_add, ← map_mul, message_append_singleton, List.length_append,
            List.length_singleton, pow_succ]
          congr 1
          linear_combination (-C (bit b)) * hpow

/-- What the register holds after a message is the remainder of the message times `X ^ w`. -/
theorem poly_divide (hw : 0 < w) (p : BitVec w) (bits : List Bool) :
    poly (divide p 0#w bits) = (X ^ w * message bits) %ₘ generator p := by
  have hmk := mk_poly_divide hw p 0#w bits
  rw [poly_zero, mul_zero, zero_add, AdjoinRoot.mk_eq_mk] at hmk
  have hsmall : (poly (divide p 0#w bits)).degree < (generator p).degree := by
    rw [degree_generator]
    exact degree_poly_lt _
  rw [← modByMonic_eq_of_dvd_sub (monic_generator p) hmk]
  exact ((modByMonic_eq_self_iff (monic_generator p)).mpr hsmall).symm

/-! ## Several bits at a time -/

def leading : Nat → BitVec w → List Bool
  | 0, _ => []
  | n + 1, c => c.msb :: leading n (c <<< 1)

theorem length_leading (n : Nat) (c : BitVec w) : (leading n c).length = n := by
  induction n generalizing c with
  | zero => rfl
  | succ n ih => rw [leading, List.length_cons, ih]

theorem leading_eq_map (n : Nat) (c : BitVec w) :
    leading n c = (List.range n).map c.getMsbD := by
  induction n generalizing c with
  | zero => rfl
  | succ n ih =>
    have hmsb : c.msb = c.getMsbD 0 := by
      rw [BitVec.msb]
    have hnext : ∀ i, (c <<< 1).getMsbD i = c.getMsbD (i + 1) := by
      intro i
      rw [BitVec.getMsbD_shiftLeft]
    rw [leading, ih, List.range_succ_eq_map, List.map_cons, List.map_map, hmsb]
    congr 1
    exact List.map_congr_left fun i _ => hnext i

theorem leading_congr {n : Nat} {c d : BitVec w} (h : ∀ i < n, c.getMsbD i = d.getMsbD i) :
    leading n c = leading n d := by
  rw [leading_eq_map, leading_eq_map]
  exact List.map_congr_left fun i hi => h i (List.mem_range.mp hi)

theorem leading_eq_replicate {n : Nat} {c : BitVec w} (h : ∀ i < n, c.getMsbD i = false) :
    leading n c = List.replicate n false := by
  rw [leading_eq_map, List.map_congr_left fun i hi => h i (List.mem_range.mp hi),
    List.map_const', List.length_range]

theorem shift_xor_top (p r c : BitVec w) (hw : 0 < w) :
    shift p (r ^^^ c) = shift p (r ^^^ top w c.msb) ^^^ (c <<< 1) := by
  have hmsb : (top w c.msb).msb = c.msb := by
    cases hb : c.msb <;> simp [top, BitVec.msb_twoPow, hw]
  have hup : top w c.msb <<< 1 = 0#w := by
    apply BitVec.eq_of_getLsbD_eq
    intro i hi
    cases hb : c.msb <;> simp [top, BitVec.getLsbD_shiftLeft, BitVec.getLsbD_twoPow]
    omega
  unfold shift
  rw [BitVec.msb_xor, BitVec.msb_xor, hmsb, BitVec.shiftLeft_xor_distrib,
    BitVec.shiftLeft_xor_distrib, hup, BitVec.xor_zero]
  split
  · rw [BitVec.xor_assoc, BitVec.xor_comm (c <<< 1), BitVec.xor_assoc]
  · rfl

/-- Adding a word and shifting `n` times shifts its first `n` bits in. -/
theorem shifts_xor_eq_divide (hw : 0 < w) (p r c : BitVec w) (n : Nat) :
    (shift p)^[n] (r ^^^ c) = divide p r (leading n c) ^^^ (c <<< n) := by
  induction n generalizing r c with
  | zero => simp [divide, leading]
  | succ n ih =>
    rw [Function.iterate_succ_apply, shift_xor_top p r c hw, ih, leading, Nat.add_comm n 1,
      BitVec.shiftLeft_add]
    rfl

theorem divide_zero_replicate (p : BitVec w) (n : Nat) :
    divide p 0#w (List.replicate n false) = 0#w := by
  induction n with
  | zero => rfl
  | succ n ih =>
    rw [List.replicate_succ', divide_append, ih]
    simp [divide, top, shift_zero]

/-- A word whose first `n` bits are clear only moves up through `n` shifts. -/
theorem shifts_of_leading_zero (hw : 0 < w) (p c : BitVec w) {n : Nat}
    (h : leading n c = List.replicate n false) : (shift p)^[n] c = c <<< n := by
  have hdiv := shifts_xor_eq_divide hw p 0#w c n
  rwa [BitVec.zero_xor, h, divide_zero_replicate, BitVec.zero_xor] at hdiv

/-! ## Registers narrower than the word -/

def LowClear (k : Nat) (x : BitVec w) : Prop := ∀ i < k, x.getLsbD i = false

theorem lowClear_xor {k : Nat} {x y : BitVec w} (hx : LowClear k x) (hy : LowClear k y) :
    LowClear k (x ^^^ y) := by
  intro i hi
  rw [BitVec.getLsbD_xor, hx i hi, hy i hi]
  rfl

theorem lowClear_shiftLeft {k : Nat} {x : BitVec w} (hx : LowClear k x) (n : Nat) :
    LowClear k (x <<< n) := by
  intro i hi
  rw [BitVec.getLsbD_shiftLeft, hx (i - n) (by omega), Bool.and_false]

theorem lowClear_shift {k : Nat} {p x : BitVec w} (hp : LowClear k p) (hx : LowClear k x) :
    LowClear k (shift p x) := by
  unfold shift
  split
  · exact lowClear_xor (lowClear_shiftLeft hx 1) hp
  · exact lowClear_shiftLeft hx 1

theorem lowClear_shifts {k : Nat} {p x : BitVec w} (hp : LowClear k p) (hx : LowClear k x)
    (n : Nat) : LowClear k ((shift p)^[n] x) := by
  induction n generalizing x with
  | zero => exact hx
  | succ n ih => exact ih (lowClear_shift hp hx)

theorem lowClear_divide {k : Nat} {p r : BitVec w} (hp : LowClear k p) (hr : LowClear k r)
    (hk : k < w) (bits : List Bool) : LowClear k (divide p r bits) := by
  induction bits generalizing r with
  | nil => exact hr
  | cons b bits ih =>
    apply ih
    apply lowClear_shift hp
    apply lowClear_xor hr
    intro i hi
    cases b <;> simp [top, BitVec.getLsbD_twoPow]
    omega

/-- A remainder modulo a generator that is moved up is moved up itself. -/
theorem pow_mul_modByMonic {g : (ZMod 2)[X]} (hg : g.Monic) (k d : Nat) (m : (ZMod 2)[X]) :
    (X ^ (k + d) * m) %ₘ (X ^ k * g) = X ^ k * ((X ^ d * m) %ₘ g) := by
  have hmonic : (X ^ k * g).Monic := (monic_X_pow k).mul hg
  refine (div_modByMonic_unique ((X ^ d * m) /ₘ g) _ hmonic ⟨?_, ?_⟩).2
  · have hdiv := modByMonic_add_div (X ^ d * m) g
    linear_combination X ^ k * hdiv
  · rw [degree_mul, degree_mul]
    exact WithBot.add_lt_add_left (by simp) (degree_modByMonic_lt _ hg)

theorem message_leading (d : Nat) {x : BitVec w} (hd : d ≤ w) (hx : LowClear (w - d) x) :
    poly x = X ^ (w - d) * message (leading d x) := by
  ext n
  rw [coeff_poly, coeff_X_pow_mul']
  split
  · rename_i hn
    rcases Nat.lt_or_ge (n - (w - d)) d with hlt | hge
    · have h1 : d - 1 - (n - (w - d)) < d := by omega
      have h2 : w - 1 - (d - 1 - (n - (w - d))) = n := by omega
      have h3 : d - 1 - (n - (w - d)) < w := by omega
      rw [coeff_message_of_lt (by rw [length_leading]; exact hlt), length_leading, leading_eq_map]
      simp [BitVec.getMsbD, h1, h2, h3]
    · rw [coeff_eq_zero_of_degree_lt, BitVec.getLsbD_of_ge x n (by omega)]
      · rfl
      · refine lt_of_lt_of_le (degree_message_lt _) ?_
        rw [length_leading]
        exact_mod_cast hge
  · rename_i hn
    rw [hx n (by omega)]
    rfl

/-! ## Detection -/

/-- A message with `d` bits after it is a multiple of a generator of degree `d` just when these are
the remainder of the message. -/
theorem dvd_message_append_iff {g : (ZMod 2)[X]} {d : Nat} (hd : g.degree = d)
    (m : List Bool) {t r : List Bool} (ht : t.length = d) (hr : r.length = d)
    (hrem : (X ^ d * message m) %ₘ g = message r) : g ∣ message (m ++ t) ↔ t = r := by
  have hsplit := modByMonic_add_div (X ^ d * message m) g
  have hr' : (message r).degree < g.degree := by
    rw [hd, ← hr]
    exact degree_message_lt r
  have ht' : (message t).degree < g.degree := by
    rw [hd, ← ht]
    exact degree_message_lt t
  rw [message_append, ht]
  constructor
  · intro hdvd
    have hsum : g ∣ message r + message t := by
      have hmul : g ∣ g * ((X ^ d * message m) /ₘ g) := dvd_mul_right _ _
      have hsub := dvd_sub hdvd hmul
      rw [hrem] at hsplit
      have heq : X ^ d * message m + message t - g * ((X ^ d * message m) /ₘ g) =
          message r + message t := by
        linear_combination -hsplit
      rwa [heq] at hsub
    have hzero := eq_zero_of_dvd_of_degree_lt hsum
      (lt_of_le_of_lt (degree_add_le _ _) (max_lt hr' ht'))
    exact message_injective (ht.trans hr.symm) (CharTwo.add_eq_zero.mp hzero).symm
  · rintro rfl
    rw [hrem] at hsplit
    have hmul : X ^ d * message m + message t = g * ((X ^ d * message m) /ₘ g) := by
      have htwo : message t + message t = 0 := CharTwo.add_self_eq_zero _
      linear_combination htwo - hsplit
    rw [hmul]
    exact dvd_mul_right _ _

/-- A generator with a constant coefficient divides no nonzero polynomial shorter than itself,
however far up it is moved. -/
theorem not_dvd_of_degree_lt {g b : (ZMod 2)[X]} (hg : g.coeff 0 ≠ 0) (hb : b ≠ 0)
    (hdeg : b.degree < g.degree) (k : Nat) : ¬ g ∣ X ^ k * b := by
  intro hdvd
  have hX : IsCoprime (X : (ZMod 2)[X]) g := by
    apply (irreducible_X.coprime_iff_not_dvd).mpr
    rw [X_dvd_iff]
    exact hg
  exact hb (eq_zero_of_dvd_of_degree_lt (hX.pow_left.symm.dvd_of_dvd_mul_left hdvd) hdeg)

/-- Of two messages that differ only within as many bits as the generator's degree, it divides at
most one. -/
theorem not_dvd_of_burst {g : (ZMod 2)[X]} (hg : g.coeff 0 ≠ 0) {d : Nat} (hd : g.degree = d)
    {a b : List Bool} (hlen : a.length = b.length) (hne : a ≠ b) (i : Nat)
    (hsame : ∀ j, j < i ∨ i + d ≤ j → a[j]? = b[j]?) (ha : g ∣ message a) :
    ¬ g ∣ message b := by
  intro hb
  have hcoeff : ∀ n, n < a.length → a.length - 1 - n < i ∨ i + d ≤ a.length - 1 - n →
      (message a + message b).coeff n = 0 := by
    intro n hn hout
    rw [coeff_add, coeff_message_of_lt hn, coeff_message_of_lt (by omega), ← hlen,
      List.getD_eq_getElem?_getD, List.getD_eq_getElem?_getD, hsame _ hout]
    exact CharTwo.add_self_eq_zero _
  have hhigh : ∀ n, a.length ≤ n → (message a + message b).coeff n = 0 := by
    intro n hn
    have hdeg : (message a + message b).degree < n :=
      lt_of_le_of_lt (degree_add_le _ _) (max_lt
        (lt_of_lt_of_le (degree_message_lt a) (by exact_mod_cast hn))
        (lt_of_lt_of_le (degree_message_lt b) (by exact_mod_cast (by omega : b.length ≤ n))))
    exact coeff_eq_zero_of_degree_lt hdeg
  obtain ⟨q, hq⟩ : X ^ (a.length - (i + d)) ∣ message a + message b := by
    rw [X_pow_dvd_iff]
    intro n hn
    exact hcoeff n (by omega) (Or.inr (by omega))
  have hsum : message a + message b ≠ 0 := by
    intro hzero
    exact hne (message_injective hlen (CharTwo.add_eq_zero.mp hzero))
  have hq0 : q ≠ 0 := by
    rintro rfl
    exact hsum (by rw [hq, mul_zero])
  have hdeg : q.degree < g.degree := by
    rw [hd, degree_lt_iff_coeff_zero]
    intro n hn
    have hpos : (message a + message b).coeff (n + (a.length - (i + d))) = q.coeff n := by
      rw [hq, coeff_X_pow_mul]
    rw [← hpos]
    rcases Nat.lt_or_ge (n + (a.length - (i + d))) a.length with hlt | hge
    · exact hcoeff _ hlt (Or.inl (by omega))
    · exact hhigh _ hge
  apply not_dvd_of_degree_lt hg hq0 hdeg (a.length - (i + d))
  rw [← hq]
  exact dvd_add ha hb

end PdmaXen.Remainder
