import PdmaXen.Lte.Segmentation
import PdmaXen.Turbo.Encoder

/-!
# The turbo encoder of the shared channels

`3gpplte.cpp` steps its interleaver from one index to the next and keeps each register in an
octet; the code is that of `tool.c`.
-/

namespace PdmaXen.Lte
set_option autoImplicit false
open Turbo Recursive Remainder

/-! ## The source -/

def LTE_NULL : BitVec 8 := 2

/-- `f1f2mat` of `lte_interleaver.h`: the same 376 numbers as `f1f2` of `tool.h`. -/
def f1f2mat : List Nat := f1f2.map Int.toNat

/-- `iind` in `dlsch_encoding`; the other lengths are refused. -/
def iind (Kr_bytes : Nat) : Option Nat :=
  if Kr_bytes ≤ 64 then some (Kr_bytes - 5)
  else if Kr_bytes ≤ 128 then some (59 + (Kr_bytes - 64) / 2)
  else if Kr_bytes ≤ 256 then some (91 + (Kr_bytes - 128) / 4)
  else if Kr_bytes ≤ 768 then some (123 + (Kr_bytes - 256) / 8)
  else none

/-- `f1f2mat[iind * 2]` and `f1f2mat[(iind * 2) + 1]`. -/
def f1f2matRow (Kr_bytes : Nat) : Option (Nat × Nat) := do
  let i ← iind Kr_bytes
  let f1 ← f1f2mat[i * 2]?
  let f2 ← f1f2mat[i * 2 + 1]?
  return (f1, f2)

structure InterleaverState where
  output : Nat
  tmp : Nat

def threegpplteInterleaverReset : InterleaverState := ⟨0, 0⟩

/-- The sum is taken in `unsigned int`, the output kept in an `unsigned short`. -/
def threegpplteInterleaver (f1 f2 K : Nat) (g : InterleaverState) : InterleaverState :=
  let tmp := (g.tmp + 2 * f2) % 4294967296
  ⟨subU32 (g.output + tmp + f1) f2 % K % 65536, tmp⟩

def threegpplteRsc (input state : BitVec 8) : BitVec 8 × BitVec 8 :=
  ((input ^^^ (state >>> 2) ^^^ (state >>> 1)) &&& 1,
    (((input <<< 2) ^^^ (state >>> 1)) ^^^ ((state >>> 1) <<< 2) ^^^ (state <<< 2)) &&& 7)

def threegpplteRscTermination (state : BitVec 8) : BitVec 8 × BitVec 8 × BitVec 8 :=
  ((state ^^^ (state >>> 1)) &&& 1, ((state >>> 2) ^^^ state) &&& 1, state >>> 1)

def inputBit (input : Nat → BitVec 8) (i b : Nat) : BitVec 8 :=
  (input i &&& (1#8 <<< (7 - b))) >>> (7 - b)

structure TurboState where
  output : Nat → BitVec 8
  x : Nat
  state0 : BitVec 8
  state1 : BitVec 8
  pi : Nat
  interleaver : InterleaverState

/-- The body of the inner loop, for the bit `b = k % 8` of octet `i = k / 8`. -/
def turboRound (input : Nat → BitVec 8) (F f1 f2 input_length_bits : Nat) (st : TurboState)
    (k : Nat) : TurboState :=
  let bit := inputBit input (k / 8) (k % 8)
  let r0 := threegpplteRsc bit st.state0
  -- filler bits get punctured
  let x := if k < F then LTE_NULL else bit
  let z := if k < F then LTE_NULL else r0.1
  let r1 := threegpplteRsc (inputBit input (st.pi / 8) (st.pi % 8)) st.state1
  let interleaver := threegpplteInterleaver f1 f2 input_length_bits st.interleaver
  { output := Function.update (Function.update (Function.update st.output st.x x)
      (st.x + 1) z) (st.x + 2) r1.1
    x := st.x + 3
    state0 := r0.2
    state1 := r1.2
    pi := interleaver.output
    interleaver := interleaver }

def terminate (output : Nat → BitVec 8) (offset : Nat) (state : BitVec 8) :
    Nat → (Nat → BitVec 8) × BitVec 8
  | 0 => (output, state)
  | t + 1 =>
    let r := terminate output offset state t
    let s := threegpplteRscTermination r.2
    (Function.update (Function.update r.1 (offset + 2 * t) s.1) (offset + 2 * t + 1) s.2.1, s.2.2)

def threegpplteTurboEncoder (input : Nat → BitVec 8) (input_length_bytes : Nat)
    (output : Nat → BitVec 8) (F : BitVec 8) (interleaver_f1 interleaver_f2 : Nat) :
    (Nat → BitVec 8) × BitVec 8 × BitVec 8 :=
  let input_length_bits := input_length_bytes * 8 % 65536
  let st := (List.range (8 * input_length_bytes)).foldl
    (turboRound input F.toNat interleaver_f1 interleaver_f2 input_length_bits)
    ⟨output, 0, 0, 0, 0, threegpplteInterleaverReset⟩
  let r0 := terminate st.output st.x st.state0 3
  let r1 := terminate r0.1 (st.x + 6) st.state1 3
  (r1.1, r0.2, r1.2)

/-! ## Registers -/

def octet (b : Bool) : BitVec 8 := if b then 1 else 0

def stateOctet (s2 s1 s0 : Bool) : BitVec 8 :=
  (if s2 then 4 else 0) ||| (if s1 then 2 else 0) ||| (if s0 then 1 else 0)

theorem threegpplteRsc_octet : ∀ u s2 s1 s0 : Bool,
    threegpplteRsc (octet u) (stateOctet s2 s1 s0) =
      (octet (u ^^ s2 ^^ s1), stateOctet (u ^^ s1 ^^ s0) s2 s1) := by
  decide

theorem threegpplteRscTermination_octet : ∀ s2 s1 s0 : Bool,
    threegpplteRscTermination (stateOctet s2 s1 s0) =
      (octet (s0 ^^ s1), octet (s2 ^^ s0), stateOctet false s2 s1) := by
  decide

/-- The octet holds the register of the code. -/
def HoldsRegister (state : BitVec 8) (register : List (ZMod 2)) : Prop :=
  ∃ s2 s1 s0, state = stateOctet s2 s1 s0 ∧ register = [bit s2, bit s1, bit s0]

def cell (v : ZMod 2) : BitVec 8 := if v = 0 then 0 else 1

theorem cell_bit (b : Bool) : cell (bit b) = octet b := by
  cases b <;> rfl

theorem lteCode_output_bit : ∀ u s2 s1 s0 : Bool,
    lteCode.output [bit s2, bit s1, bit s0] (bit u) = bit (u ^^ s2 ^^ s1) := by
  decide

theorem lteCode_next_bit : ∀ u s2 s1 s0 : Bool,
    lteCode.next [bit s2, bit s1, bit s0] (bit u) = [bit (u ^^ s1 ^^ s0), bit s2, bit s1] := by
  decide

theorem lteCode_feedback_bit : ∀ s2 s1 s0 : Bool,
    taps lteCode.feedback [bit s2, bit s1, bit s0] = bit (s0 ^^ s1) := by
  decide

section Registers
variable {state : BitVec 8} {register : List (ZMod 2)}

theorem holdsRegister_zero : HoldsRegister 0 lteCode.zero :=
  ⟨false, false, false, rfl, rfl⟩

theorem HoldsRegister.eq_zero (h : HoldsRegister state lteCode.zero) : state = 0 := by
  obtain ⟨s2, s1, s0, rfl, hzero⟩ := h
  have hbits : [bit false, bit false, bit false] = [bit s2, bit s1, bit s0] := hzero
  simp only [List.cons.injEq, bit_injective.eq_iff, and_true] at hbits
  obtain ⟨rfl, rfl, rfl⟩ := hbits
  rfl

theorem HoldsRegister.rsc (h : HoldsRegister state register) (u : Bool) :
    (threegpplteRsc (octet u) state).1 = cell (lteCode.output register (bit u)) ∧
      HoldsRegister (threegpplteRsc (octet u) state).2 (lteCode.next register (bit u)) := by
  obtain ⟨s2, s1, s0, rfl, rfl⟩ := h
  rw [threegpplteRsc_octet, lteCode_output_bit, lteCode_next_bit, cell_bit]
  exact ⟨rfl, _, _, _, rfl, rfl⟩

theorem HoldsRegister.termination (h : HoldsRegister state register) :
    (threegpplteRscTermination state).1 = cell (taps lteCode.feedback register) ∧
      (threegpplteRscTermination state).2.1 =
        cell (lteCode.output register (taps lteCode.feedback register)) ∧
      HoldsRegister (threegpplteRscTermination state).2.2
        (lteCode.next register (taps lteCode.feedback register)) := by
  obtain ⟨s2, s1, s0, rfl, rfl⟩ := h
  have hz : (s0 ^^ s1 ^^ s2 ^^ s1) = (s2 ^^ s0) := by cases s2 <;> cases s1 <;> cases s0 <;> rfl
  have hin : (s0 ^^ s1 ^^ s1 ^^ s0) = false := by cases s1 <;> cases s0 <;> rfl
  rw [threegpplteRscTermination_octet, lteCode_feedback_bit, lteCode_output_bit, lteCode_next_bit,
    cell_bit, cell_bit, hz, hin]
  exact ⟨rfl, rfl, _, _, _, rfl, rfl⟩

end Registers

/-! ## Input and interleaver -/

def bitAt (input : Nat → BitVec 8) (k : Nat) : Bool := (input (k / 8)).getMsbD (k % 8)

theorem inputBit_eq (input : Nat → BitVec 8) (k : Nat) :
    inputBit input (k / 8) (k % 8) = octet (bitAt input k) := by
  have hlt : k % 8 < 8 := Nat.mod_lt k (by omega)
  have hbit : bitAt input k = (input (k / 8)).getLsbD (7 - k % 8) := by
    rw [bitAt, BitVec.getMsbD, decide_eq_true hlt, Bool.true_and]
  have hn : 7 - k % 8 < 8 := by omega
  rw [hbit, inputBit]
  generalize 7 - k % 8 = n at hn ⊢
  apply BitVec.eq_of_getLsbD_eq
  intro j hj
  rw [BitVec.getLsbD_ushiftRight, BitVec.getLsbD_and, BitVec.getLsbD_shiftLeft, BitVec.getLsbD_one]
  unfold octet
  rcases Nat.eq_zero_or_pos j with rfl | hpos
  · cases (input (k / 8)).getLsbD n <;> simp [hn]
  · have hne : n + j - n ≠ 0 := by omega
    split <;> simp [hpos.ne']

theorem qpp_index_succ (f1 f2 : Nat) {K k : Nat} (hbound : 2 * f2 * (k + 1) + f1 + K < 4294967296)
    (hK : 0 < K) : subU32 (Qpp.index f1 f2 K k + 2 * f2 * (k + 1) + f1) f2 % K =
      Qpp.index f1 f2 K (k + 1) := by
  have hlt : Qpp.index f1 f2 K k < K := Qpp.index_lt hK
  have hf2 : f2 ≤ 2 * f2 * (k + 1) := by
    rw [Nat.mul_right_comm, Nat.mul_comm]
    exact Nat.le_mul_of_pos_right f2 (by omega)
  have hsum : Qpp.index f1 f2 K k + 2 * f2 * (k + 1) + f1 - f2 =
      Qpp.index f1 f2 K k + (2 * f2 * (k + 1) - f2 + f1) := by omega
  have hpoly : f1 * k + f2 * k ^ 2 + (2 * f2 * (k + 1) - f2 + f1) =
      f1 * (k + 1) + f2 * (k + 1) ^ 2 := by
    have hexpand : f1 * (k + 1) + f2 * (k + 1) ^ 2 + f2 =
        f1 * k + f2 * k ^ 2 + 2 * f2 * (k + 1) + f1 := by ring
    omega
  rw [subU32_of_le (by omega) (by omega), hsum, Qpp.index, Qpp.index, Nat.mod_add_mod, hpoly]

/-! ## The loop -/

section Loop
variable (input : Nat → BitVec 8) (K F f1 f2 : Nat)

/-- The bits of the input with the tail of the first register. -/
def firstBits : Nat → ZMod 2 := lteCode.tail K fun k => bit (bitAt input k)

/-- The bits in the order of the interleaver with the tail of the second one. -/
def secondBits : Nat → ZMod 2 := lteCode.tail K fun k => bit (bitAt input (Qpp.index f1 f2 K k))

/-- What cell `3 * k + o` is for a bit `k` of the input. -/
def codedCell (k o : Nat) : BitVec 8 :=
  if o = 0 then if k < F then LTE_NULL else cell (firstBits input K k)
  else if o = 1 then if k < F then LTE_NULL else cell (lteCode.parity (firstBits input K) k)
  else cell (lteCode.parity (secondBits input K f1 f2) k)

structure TurboRounds (output : Nat → BitVec 8) (k : Nat) (st : TurboState) : Prop where
  x : st.x = 3 * k
  pi : st.pi = Qpp.index f1 f2 K k
  interleaver : st.interleaver = ⟨Qpp.index f1 f2 K k, 2 * f2 * k⟩
  state0 : HoldsRegister st.state0 (lteCode.state (firstBits input K) k)
  state1 : HoldsRegister st.state1 (lteCode.state (secondBits input K f1 f2) k)
  cells : ∀ j, st.output j =
    if j < 3 * k then codedCell input K F f1 f2 (j / 3) (j % 3) else output j

variable {input K F f1 f2}

theorem TurboRounds.round {output : Nat → BitVec 8} {k : Nat} {st : TurboState} (hk : k < K)
    (hbound : 2 * f2 * K + f1 + K < 4294967296) (hK : K < 65536)
    (h : TurboRounds input K F f1 f2 output k st) :
    TurboRounds input K F f1 f2 output (k + 1) (turboRound input F f1 f2 K st k) := by
  have hmono : 2 * f2 * (k + 1) ≤ 2 * f2 * K := Nat.mul_le_mul_left _ (by omega)
  have hnext := qpp_index_succ f1 f2 (K := K) (k := k) (by omega) (by omega)
  have hlt : Qpp.index f1 f2 K (k + 1) < K := Qpp.index_lt (by omega)
  have hinter : threegpplteInterleaver f1 f2 K st.interleaver =
      ⟨Qpp.index f1 f2 K (k + 1), 2 * f2 * (k + 1)⟩ := by
    have htmp : (2 * f2 * k + 2 * f2) % 4294967296 = 2 * f2 * (k + 1) := by
      rw [← Nat.mul_add_one]
      exact Nat.mod_eq_of_lt (by omega)
    rw [h.interleaver, threegpplteInterleaver]
    simp only [htmp, hnext]
    rw [Nat.mod_eq_of_lt (by omega)]
  have hfirst : firstBits input K k = bit (bitAt input k) := Code.tail_of_lt hk
  have hsecond : secondBits input K f1 f2 k = bit (bitAt input (Qpp.index f1 f2 K k)) :=
    Code.tail_of_lt hk
  have h0 := h.state0.rsc (bitAt input k)
  have h1 := h.state1.rsc (bitAt input (Qpp.index f1 f2 K k))
  rw [← hfirst] at h0
  rw [← hsecond] at h1
  have hround : turboRound input F f1 f2 K st k =
      { output := Function.update (Function.update (Function.update st.output (3 * k)
          (codedCell input K F f1 f2 k 0)) (3 * k + 1) (codedCell input K F f1 f2 k 1))
          (3 * k + 2) (codedCell input K F f1 f2 k 2)
        x := 3 * k + 3
        state0 := (threegpplteRsc (octet (bitAt input k)) st.state0).2
        state1 := (threegpplteRsc (octet (bitAt input (Qpp.index f1 f2 K k))) st.state1).2
        pi := Qpp.index f1 f2 K (k + 1)
        interleaver := ⟨Qpp.index f1 f2 K (k + 1), 2 * f2 * (k + 1)⟩ } := by
    have hc0 : codedCell input K F f1 f2 k 0 = if k < F then LTE_NULL else octet (bitAt input k) := by
      rw [codedCell, if_pos rfl, hfirst, cell_bit]
    have hc1 : codedCell input K F f1 f2 k 1 = if k < F then LTE_NULL else
        (threegpplteRsc (octet (bitAt input k)) st.state0).1 := by
      rw [h0.1]
      rfl
    have hc2 : codedCell input K F f1 f2 k 2 =
        (threegpplteRsc (octet (bitAt input (Qpp.index f1 f2 K k))) st.state1).1 := h1.1.symm
    simp only [turboRound, inputBit_eq, h.pi, h.x, hinter, hc0, hc1, hc2]
  rw [hround]
  refine ⟨rfl, rfl, rfl, h0.2, h1.2, ?_⟩
  intro j
  simp only
  rcases Nat.lt_or_ge j (3 * k) with hlt' | hge
  · rw [Function.update_of_ne (by omega), Function.update_of_ne (by omega),
      Function.update_of_ne (by omega), h.cells, if_pos hlt', if_pos (by omega)]
  · rcases (by omega : j = 3 * k ∨ j = 3 * k + 1 ∨ j = 3 * k + 2 ∨ 3 * k + 3 ≤ j) with
      rfl | rfl | rfl | hbeyond
    · rw [Function.update_of_ne (by omega), Function.update_of_ne (by omega), Function.update_self,
        if_pos (by omega), Nat.mul_div_cancel_left k (by omega), Nat.mul_mod_right]
    · rw [Function.update_of_ne (by omega), Function.update_self, if_pos (by omega),
        Nat.mul_add_div (by omega), Nat.mul_add_mod]
      rfl
    · rw [Function.update_self, if_pos (by omega), Nat.mul_add_div (by omega), Nat.mul_add_mod]
      rfl
    · rw [Function.update_of_ne (by omega), Function.update_of_ne (by omega),
        Function.update_of_ne (by omega), h.cells, if_neg (by omega), if_neg (by omega)]

theorem turboRounds (input : Nat → BitVec 8) (F : Nat) (output : Nat → BitVec 8)
    (hbound : 2 * f2 * K + f1 + K < 4294967296) (hK : K < 65536) {k : Nat} (hk : k ≤ K) :
    TurboRounds input K F f1 f2 output k ((List.range k).foldl (turboRound input F f1 f2 K)
      ⟨output, 0, 0, 0, 0, threegpplteInterleaverReset⟩) := by
  induction k with
  | zero =>
    have hzero : Qpp.index f1 f2 K 0 = 0 := by
      rw [Qpp.index, Nat.mul_zero, Nat.zero_add, Nat.zero_pow (by omega), Nat.mul_zero,
        Nat.zero_mod]
    refine ⟨rfl, hzero.symm, ?_, holdsRegister_zero, holdsRegister_zero, fun j => rfl⟩
    rw [hzero]
    rfl
  | succ k ih =>
    rw [List.range_succ, List.foldl_append]
    exact (ih (by omega)).round (by omega) hbound hK

end Loop

/-! ## The tails -/

theorem terminate_eq {u : Nat → ZMod 2} {K : Nat} (hu : lteCode.Tailed K u)
    (output : Nat → BitVec 8) (offset : Nat) {state : BitVec 8}
    (h : HoldsRegister state (lteCode.state u K)) (t : Nat) :
    HoldsRegister (terminate output offset state t).2 (lteCode.state u (K + t)) ∧
      ∀ j, (terminate output offset state t).1 j =
        if offset ≤ j ∧ j < offset + 2 * t then
          if (j - offset) % 2 = 0 then cell (u (K + (j - offset) / 2))
          else cell (lteCode.parity u (K + (j - offset) / 2))
        else output j := by
  induction t with
  | zero =>
    refine ⟨h, fun j => ?_⟩
    rw [if_neg (by omega)]
    rfl
  | succ t ih =>
    obtain ⟨hregister, hcells⟩ := ih
    obtain ⟨hx, hz, hnext⟩ := hregister.termination
    have htail : taps lteCode.feedback (lteCode.state u (K + t)) = u (K + t) :=
      (hu (K + t) (by omega)).symm
    rw [htail] at hx hz hnext
    refine ⟨hnext, fun j => ?_⟩
    rw [terminate]
    simp only [hx, hz]
    rcases (by omega : j < offset + 2 * t ∨ j = offset + 2 * t ∨ j = offset + 2 * t + 1 ∨
      offset + 2 * t + 1 < j) with hlt | rfl | rfl | hgt
    · rw [Function.update_of_ne (by omega), Function.update_of_ne (by omega), hcells]
      by_cases hin : offset ≤ j
      · rw [if_pos ⟨hin, hlt⟩]
        exact (if_pos ⟨hin, by omega⟩).symm
      · rw [if_neg (by omega), if_neg (by omega)]
    · have hplace : offset + 2 * t - offset = 2 * t := by omega
      rw [Function.update_of_ne (by omega), Function.update_self, if_pos (by omega), hplace,
        if_pos (by omega), Nat.mul_div_cancel_left t (by omega)]
    · have hplace : offset + 2 * t + 1 - offset = 2 * t + 1 := by omega
      have hhalf : (2 * t + 1) / 2 = t := by omega
      rw [Function.update_self, if_pos (by omega), hplace, if_neg (by omega), hhalf]
      rfl
    · rw [Function.update_of_ne (by omega), Function.update_of_ne (by omega), hcells,
        if_neg (by omega), if_neg (by omega)]

/-! ## The rows -/

theorem f1f2matRow_of_legal {K_byte : Nat} (h : Legal K_byte) :
    ∃ f1 f2, f1f2matRow K_byte = some (f1, f2) ∧ f1 < 8 * K_byte ∧ f2 < 8 * K_byte ∧
      Nat.Coprime f1 (8 * K_byte) ∧ 8 * K_byte ∣ f2 ^ 13 := by
  obtain ⟨f1, f2, -, hselect, hrest⟩ := exists_row h
  have hbounds := legalLengths_bounds K_byte h
  obtain ⟨i, hi, hindex⟩ : ∃ i, iind K_byte = some i ∧ getfindex K_byte = i := by
    unfold iind getfindex
    split_ifs <;> first | omega | exact ⟨_, rfl, by omega⟩
  refine ⟨f1, f2, ?_, hrest⟩
  rw [selectRow_eq hindex, getElem?_rows] at hselect
  obtain ⟨a, ha, hb⟩ := Option.bind_eq_some_iff.mp hselect
  obtain ⟨b, hb, hpair⟩ := Option.map_eq_some_iff.mp hb
  obtain ⟨rfl, rfl⟩ := Prod.mk.inj hpair
  simp only [f1f2matRow, hi, f1f2mat, List.getElem?_map, ha, hb, Option.bind_eq_bind,
    Option.bind_some, Option.map_some, Int.toNat_natCast, Option.pure_def]

/-! ## The whole encoder -/

theorem toNat_cell (v : ZMod 2) : (cell v).toNat = v.val := by
  revert v
  decide

theorem toNat_cell_bit {b : UInt8} (h : b.toNat < 2) : (cell (Turbo.bit b)).toNat = b.toNat := by
  rw [toNat_cell, Turbo.bit, ZMod.val_natCast, Nat.mod_eq_of_lt h]

/-- What the encoder leaves for `K` bits of which the first `F` are fillers. -/
structure TurboEncoded (input : Nat → BitVec 8) (K F f1 f2 : Nat) (output : Nat → BitVec 8)
    (r : (Nat → BitVec 8) × BitVec 8 × BitVec 8) : Prop where
  /-- The bits and the two parities; the fillers and their first parity are punctured. -/
  coded : ∀ k < K, ∀ o < 3, r.1 (3 * k + o) = codedCell input K F f1 f2 k o
  first_tail : ∀ t < 3, r.1 (3 * K + 2 * t) = cell (firstBits input K (K + t)) ∧
    r.1 (3 * K + 2 * t + 1) = cell (lteCode.parity (firstBits input K) (K + t))
  second_tail : ∀ t < 3, r.1 (3 * K + 6 + 2 * t) = cell (secondBits input K f1 f2 (K + t)) ∧
    r.1 (3 * K + 6 + 2 * t + 1) = cell (lteCode.parity (secondBits input K f1 f2) (K + t))
  frame : ∀ j, 3 * K + 12 ≤ j → r.1 j = output j
  permutation : Set.BijOn (Qpp.index f1 f2 K) (Set.Iio K) (Set.Iio K)
  drained : r.2 = (0, 0)
  /-- The encoder of `tool.c` computes the same first parity and the same tail. -/
  same_code : ∀ x parity : List UInt8, x.length = K → parity.length = K + 3 →
    (∀ k < K, bits x k = bit (bitAt input k)) →
      ∃ st, encoder (x ++ [0, 0, 0]) K parity = some st ∧
        (∀ k < K, F ≤ k → (r.1 (3 * k + 1)).toNat = (st.parity.getD k 0).toNat) ∧
        ∀ t < 3, (r.1 (3 * K + 2 * t)).toNat = (st.x.getD (K + t) 0).toNat ∧
          (r.1 (3 * K + 2 * t + 1)).toNat = (st.parity.getD (K + t) 0).toNat

theorem state_tail_three {u : Nat → ZMod 2} {K : Nat} (hu : lteCode.Tailed K u) :
    lteCode.state u (K + 3) = lteCode.zero :=
  Code.state_of_tailed lteCode_feedback_ne_nil hu le_rfl

theorem encoder_same_code {input : Nat → BitVec 8} {K : Nat} (hK : K ≤ 6144)
    {x parity : List UInt8} (hx : x.length = K) (hparity : parity.length = K + 3)
    (hbits : ∀ k < K, bits x k = bit (bitAt input k)) :
    ∃ st, encoder (x ++ [0, 0, 0]) K parity = some st ∧
      (∀ n < K + 3, (cell (lteCode.parity (firstBits input K) n)).toNat = (st.parity.getD n 0).toNat) ∧
      ∀ n, K ≤ n → n < K + 3 → (cell (firstBits input K n)).toNat = (st.x.getD n 0).toNat := by
  have hlen : (x ++ [0, 0, 0]).length = K + 3 := by rw [List.length_append, hx]; rfl
  obtain ⟨st, hrun, hrounds⟩ := encoder_rounds hlen hparity (by omega)
  have hinput : inputBits (x ++ [0, 0, 0]) K = firstBits input K := by
    apply Code.tail_congr
    intro k hk
    rw [← hbits k hk]
    apply bits_eq_of_getElem?
    exact List.getElem?_append_left (by omega)
  refine ⟨st, hrun, ?_, ?_⟩
  · intro n hn
    have hbit := hrounds.parity n hn
    rw [hinput] at hbit
    rw [← hbit]
    exact toNat_cell_bit (hrounds.parity_bit n hn)
  · intro n hge hlt
    have hbit := hrounds.input n hlt
    rw [hinput] at hbit
    rw [← hbit]
    exact toNat_cell_bit (hrounds.tail_bit n hge hlt)

theorem turboEncoded_of_row {K_byte f1 f2 : Nat} (input : Nat → BitVec 8) (F : BitVec 8)
    (output : Nat → BitVec 8) (hlegal : Legal K_byte) (hf1 : f1 < 8 * K_byte) (hf2 : f2 < 8 * K_byte)
    (hcoprime : Nat.Coprime f1 (8 * K_byte)) (hdvd : 8 * K_byte ∣ f2 ^ 13) :
    TurboEncoded input (8 * K_byte) F.toNat f1 f2 output
      (threegpplteTurboEncoder input K_byte output F f1 f2) := by
  have hbounds := legalLengths_bounds K_byte hlegal
  have hbits : K_byte * 8 % 65536 = 8 * K_byte := by omega
  have hK : 0 < 8 * K_byte ∧ 8 * K_byte ≤ 6144 := by omega
  simp only [threegpplteTurboEncoder, hbits]
  generalize 8 * K_byte = K at *
  have hbound : 2 * f2 * K + f1 + K < 4294967296 := by
    have hmul : 2 * f2 * K ≤ 2 * 6144 * 6144 := Nat.mul_le_mul (by omega) (by omega)
    omega
  have hrounds := turboRounds input F.toNat output hbound (by omega) (le_refl K)
  have htail0 : lteCode.Tailed K (firstBits input K) := Code.tailed_tail _ _ _
  have htail1 : lteCode.Tailed K (secondBits input K f1 f2) := Code.tailed_tail _ _ _
  generalize (List.range K).foldl (turboRound input F.toNat f1 f2 K)
    ⟨output, 0, 0, 0, 0, threegpplteInterleaverReset⟩ = st at hrounds ⊢
  have h0 := terminate_eq htail0 st.output (3 * K) hrounds.state0 3
  have h1 := terminate_eq htail1 (terminate st.output (3 * K) st.state0 3).1 (3 * K + 6)
    hrounds.state1 3
  rw [state_tail_three htail0] at h0
  rw [state_tail_three htail1] at h1
  rw [hrounds.x]
  generalize terminate st.output (3 * K) st.state0 3 = r0 at h0 h1 ⊢
  generalize terminate r0.1 (3 * K + 6) st.state1 3 = r1 at h1 ⊢
  obtain ⟨hdrain0, hcells0⟩ := h0
  obtain ⟨hdrain1, hcells1⟩ := h1
  have hcoded : ∀ k < K, ∀ o < 3, r1.1 (3 * k + o) = codedCell input K F.toNat f1 f2 k o := by
    intro k hk o ho
    have hk' : (3 * k + o) / 3 = k := by omega
    have ho' : (3 * k + o) % 3 = o := by omega
    rw [hcells1, if_neg (by omega), hcells0, if_neg (by omega), hrounds.cells, if_pos (by omega),
      hk', ho']
  have hfirst : ∀ t < 3, r1.1 (3 * K + 2 * t) = cell (firstBits input K (K + t)) ∧
      r1.1 (3 * K + 2 * t + 1) = cell (lteCode.parity (firstBits input K) (K + t)) := by
    intro t ht
    constructor
    · have hplace : 3 * K + 2 * t - 3 * K = 2 * t := by omega
      rw [hcells1, if_neg (by omega), hcells0, if_pos (by omega), hplace, if_pos (by omega),
        Nat.mul_div_cancel_left t (by omega)]
    · have hplace : 3 * K + 2 * t + 1 - 3 * K = 2 * t + 1 := by omega
      have hhalf : (2 * t + 1) / 2 = t := by omega
      rw [hcells1, if_neg (by omega), hcells0, if_pos (by omega), hplace, if_neg (by omega), hhalf]
  refine ⟨hcoded, hfirst, ?_, ?_, Qpp.index_bijOn hK.1 hcoprime hdvd, ?_, ?_⟩
  · intro t ht
    constructor
    · have hplace : 3 * K + 6 + 2 * t - (3 * K + 6) = 2 * t := by omega
      rw [hcells1, if_pos (by omega), hplace, if_pos (by omega), Nat.mul_div_cancel_left t (by omega)]
    · have hplace : 3 * K + 6 + 2 * t + 1 - (3 * K + 6) = 2 * t + 1 := by omega
      have hhalf : (2 * t + 1) / 2 = t := by omega
      rw [hcells1, if_pos (by omega), hplace, if_neg (by omega), hhalf]
  · intro j hj
    rw [hcells1, if_neg (by omega), hcells0, if_neg (by omega), hrounds.cells, if_neg (by omega)]
  · exact Prod.ext hdrain0.eq_zero hdrain1.eq_zero
  · intro x parity hx hparity hsame
    obtain ⟨st', hrun, hpar, hin⟩ := encoder_same_code hK.2 hx hparity hsame
    refine ⟨st', hrun, ?_, ?_⟩
    · intro k hk hF
      rw [hcoded k hk 1 (by omega), ← hpar k (by omega), codedCell, if_neg (by omega), if_pos rfl,
        if_neg (by omega)]
    · intro t ht
      rw [(hfirst t ht).1, (hfirst t ht).2]
      exact ⟨hin (K + t) (by omega) (by omega), hpar (K + t) (by omega)⟩

/-- For every size that a segment can have, with the row that the encoder of the shared channels
takes for it: the output is the systematic bits and the parities of the two terminated codes, the
second in the order of the quadratic permutation, and the tails; the first code is that of
`tool.c`. -/
theorem turboEncoder_eq {K_byte : Nat} (h : Legal K_byte) (input : Nat → BitVec 8) (F : BitVec 8)
    (output : Nat → BitVec 8) :
    ∃ f1 f2, f1f2matRow K_byte = some (f1, f2) ∧ TurboEncoded input (8 * K_byte) F.toNat f1 f2 output
      (threegpplteTurboEncoder input K_byte output F f1 f2) := by
  obtain ⟨f1, f2, hrow, hf1, hf2, hcoprime, hdvd⟩ := f1f2matRow_of_legal h
  exact ⟨f1, f2, hrow, turboEncoded_of_row input F output h hf1 hf2 hcoprime hdvd⟩

theorem turboEncoder_eq_forty_bits : ∃ f1 f2, f1f2matRow 5 = some (f1, f2) ∧
    TurboEncoded (fun _ => 0xa5) (8 * 5) 16 f1 f2 (fun _ => 0)
      (threegpplteTurboEncoder (fun _ => 0xa5) 5 (fun _ => 0) 16 f1 f2) :=
  turboEncoder_eq (by decide) (fun _ => 0xa5) 16 (fun _ => 0)

end PdmaXen.Lte
