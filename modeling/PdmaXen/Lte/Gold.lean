import PdmaXen.Recurrence
import Mathlib.Tactic.Ring

/-!
# The pseudo-random sequence

`lte_gold.cpp` steps the two registers of the sequence a word at a time; the scramblers of
the shared channel and of the control channel add it to the coded bits, and the
unscramblers take it off the soft values.
-/

namespace PdmaXen.Lte
set_option autoImplicit false
open Recurrence

/-! ## The source -/

def stepX1 (x1 : BitVec 32) : BitVec 32 :=
  let x1 := (x1 >>> 1) ^^^ (x1 >>> 4)
  x1 ^^^ (x1 <<< 31) ^^^ (x1 <<< 28)

def stepX2 (x2 : BitVec 32) : BitVec 32 :=
  let x2 := (x2 >>> 1) ^^^ (x2 >>> 2) ^^^ (x2 >>> 3) ^^^ (x2 >>> 4)
  x2 ^^^ (x2 <<< 31) ^^^ (x2 <<< 30) ^^^ (x2 <<< 29) ^^^ (x2 <<< 28)

def resetX1 : BitVec 32 := 1 + (1 <<< 31)

def resetX2 (x2 : BitVec 32) : BitVec 32 :=
  x2 ^^^ ((x2 ^^^ (x2 >>> 1) ^^^ (x2 >>> 2) ^^^ (x2 >>> 3)) <<< 31)

def lteGoldGeneric (x1 x2 : BitVec 32) (reset : Bool) : BitVec 32 × BitVec 32 × BitVec 32 :=
  let x1 := if reset then stepX1^[49] resetX1 else x1
  let x2 := if reset then stepX2^[49] (resetX2 x2) else x2
  let x1 := stepX1 x1
  let x2 := stepX2 x2
  (x1 ^^^ x2, x1, x2)

structure FrameParms where
  Ncp : BitVec 8
  Nid_cell : BitVec 8

/-- `Nid_cell` after the offset has been added to its last part; `Nid1` is an octet. -/
def offsetCell (Nid_cell : BitVec 8) (offset : BitVec 8) : Nat :=
  let Nid1 := Nid_cell.toNat / 3 % 256
  let Nid2 := Nid_cell.toNat % 3
  (3 * Nid1 + (Nid2 + offset.toNat) % 3) % 65536

/-- `x2` before the registers are set up; `Ncp` is an octet. -/
def goldInit (frame_parms : FrameParms) (offset : BitVec 8) (ns l : Nat) : BitVec 32 :=
  let Ncp := (1 - frame_parms.Ncp).toNat
  let Nid_cell := offsetCell frame_parms.Nid_cell offset
  BitVec.ofNat 32 (Ncp + 2 * Nid_cell +
    (1 + 2 * Nid_cell) * (1 + (if frame_parms.Ncp = 0 then 4 else 3) * l + 7 * (1 + ns)) * 1024)

def lteGold (frame_parms : FrameParms) (offset : BitVec 8) (ns l n : Nat) : BitVec 32 :=
  stepX1^[n + 1] (stepX1^[49] resetX1) ^^^
    stepX2^[n + 1] (stepX2^[49] (resetX2 (goldInit frame_parms offset ns l)))

/-! ## The sequence of 36.211 -/

/-- `x1(n + 31) = x1(n + 3) + x1(n)`. -/
def x1Taps : List Nat := [0, 3]

/-- `x2(n + 31) = x2(n + 3) + x2(n + 2) + x2(n + 1) + x2(n)`. -/
def x2Taps : List Nat := [0, 1, 2, 3]

/-- `c(n) = x1(n + Nc) + x2(n + Nc)` with `Nc = 1600`; `x1` starts with a one and zeros, `x2` with
the bits of `c_init`. -/
def gold (c_init : BitVec 31) (n : Nat) : Bool :=
  stream x1Taps 1#31 (n + 1600) ^^ stream x2Taps c_init (n + 1600)

section Width
variable {L : Nat} (x : BitVec (L + 1))

theorem wordStep_x1Taps : wordStep x1Taps x =
    let y := (x >>> 1) ^^^ (x >>> 4)
    y ^^^ (y <<< L) ^^^ (y <<< (L - 3)) := by
  simp only [wordStep, x1Taps, List.foldr_cons, List.foldr_nil, BitVec.ofNat_eq_ofNat,
    BitVec.xor_zero, Nat.sub_zero, Nat.zero_add, Nat.reduceAdd]
  ac_rfl

theorem wordStep_x2Taps : wordStep x2Taps x =
    let y := (x >>> 1) ^^^ (x >>> 2) ^^^ (x >>> 3) ^^^ (x >>> 4)
    y ^^^ (y <<< L) ^^^ (y <<< (L - 1)) ^^^ (y <<< (L - 2)) ^^^ (y <<< (L - 3)) := by
  simp only [wordStep, x2Taps, List.foldr_cons, List.foldr_nil, BitVec.ofNat_eq_ofNat,
    BitVec.xor_zero, Nat.sub_zero, Nat.zero_add, Nat.reduceAdd, BitVec.xor_assoc]
  ac_rfl

end Width

theorem stepX1_eq (x : BitVec 32) : stepX1 x = wordStep x1Taps (L := 31) x :=
  (wordStep_x1Taps (L := 31) x).symm

theorem stepX2_eq (x : BitVec 32) : stepX2 x = wordStep x2Taps (L := 31) x :=
  (wordStep_x2Taps (L := 31) x).symm

/-! ## Words of the sequence -/

theorem x1_follows : Follows x1Taps 31 (stream x1Taps 1#31) :=
  stream_follows (by omega) (by decide) 1#31

theorem x2_follows (c_init : BitVec 31) : Follows x2Taps 31 (stream x2Taps c_init) :=
  stream_follows (by omega) (by decide) c_init

theorem holds_resetX1 : Holds (L := 31) (stream x1Taps 1#31) 0 resetX1 :=
  holds_stream (by omega) (by decide) (by decide) (by decide)

theorem getLsbD_resetX2 (x2 : BitVec 32) (hmsb : x2.getLsbD 31 = false) {j : Nat} (hj : j < 32) :
    (resetX2 x2).getLsbD j =
      if j < 31 then x2.getLsbD j else
        (x2.getLsbD 0 ^^ x2.getLsbD 1 ^^ x2.getLsbD 2 ^^ x2.getLsbD 3) := by
  unfold resetX2
  rw [BitVec.getLsbD_xor, BitVec.getLsbD_shiftLeft]
  split
  · rename_i hlt
    simp [hlt]
  · obtain rfl : j = 31 := by omega
    rw [hmsb, Bool.false_xor]
    simp

theorem holds_resetX2 {x2 : BitVec 32} (hmsb : x2.getLsbD 31 = false) :
    Holds (L := 31) (stream x2Taps (x2.setWidth 31)) 0 (resetX2 x2) := by
  have hlow : ∀ j < 31, (resetX2 x2).getLsbD j = (x2.setWidth 31).getLsbD j := by
    intro j hj
    rw [getLsbD_resetX2 x2 hmsb (by omega), if_pos hj, BitVec.getLsbD_setWidth, decide_eq_true hj,
      Bool.true_and]
  have htop : (resetX2 x2).getLsbD 31 = tapSum x2Taps (x2.setWidth 31).getLsbD := by
    rw [getLsbD_resetX2 x2 hmsb (by omega), if_neg (by omega)]
    simp [tapSum, x2Taps, BitVec.getLsbD_setWidth]
  exact holds_stream (by omega) (by decide) hlow htop

/-- `x1` and `x2` hold the two sequences from place `m` on. -/
structure Registers (c_init : BitVec 31) (m : Nat) (x1 x2 : BitVec 32) : Prop where
  x1 : Holds (L := 31) (stream x1Taps 1#31) m x1
  x2 : Holds (L := 31) (stream x2Taps c_init) m x2

theorem Registers.iterate {c_init : BitVec 31} {m : Nat} {x1 x2 : BitVec 32}
    (h : Registers c_init m x1 x2) (n : Nat) :
    Registers c_init (m + n * 32) (stepX1^[n] x1) (stepX2^[n] x2) := by
  have h1 : stepX1 = wordStep x1Taps (L := 31) := funext stepX1_eq
  have h2 : stepX2 = wordStep x2Taps (L := 31) := funext stepX2_eq
  rw [h1, h2]
  exact ⟨holds_iterate_wordStep x1_follows (by decide) h.x1 n,
    holds_iterate_wordStep (x2_follows c_init) (by decide) h.x2 n⟩

theorem Registers.start {x2 : BitVec 32} (hmsb : x2.getLsbD 31 = false) :
    Registers (x2.setWidth 31) 0 resetX1 (resetX2 x2) := ⟨holds_resetX1, holds_resetX2 hmsb⟩

theorem Registers.getLsbD_xor {c_init : BitVec 31} {m : Nat} {x1 x2 : BitVec 32}
    (h : Registers c_init (m + 1600) x1 x2) {j : Nat} (hj : j < 32) :
    (x1 ^^^ x2).getLsbD j = gold c_init (m + j) := by
  rw [BitVec.getLsbD_xor, h.x1 j (by omega), h.x2 j (by omega), gold, Nat.add_right_comm]

structure Returned (c_init : BitVec 31) (m : Nat) (r : BitVec 32 × BitVec 32 × BitVec 32) : Prop where
  word : ∀ j < 32, r.1.getLsbD j = gold c_init (m + j)
  registers : Registers c_init (m + 1600) r.2.1 r.2.2

theorem lteGoldGeneric_first (x1 : BitVec 32) {x2 : BitVec 32} (hmsb : x2.getLsbD 31 = false) :
    Returned (x2.setWidth 31) 0 (lteGoldGeneric x1 x2 true) := by
  have hrun := (Registers.start hmsb).iterate 50
  rw [Function.iterate_succ_apply', Function.iterate_succ_apply'] at hrun
  exact ⟨fun j hj => hrun.getLsbD_xor hj, hrun⟩

theorem lteGoldGeneric_next {c_init : BitVec 31} {m : Nat} {x1 x2 : BitVec 32}
    (h : Registers c_init (m + 1600) x1 x2) :
    Returned c_init (m + 32) (lteGoldGeneric x1 x2 false) := by
  have hrun := h.iterate 1
  rw [Nat.add_right_comm] at hrun
  exact ⟨fun j hj => hrun.getLsbD_xor hj, hrun⟩

def goldCalls (x1 x2 : BitVec 32) : Nat → BitVec 32 × BitVec 32 × BitVec 32
  | 0 => lteGoldGeneric x1 x2 true
  | k + 1 => lteGoldGeneric (goldCalls x1 x2 k).2.1 (goldCalls x1 x2 k).2.2 false

theorem returned_goldCalls (x1 : BitVec 32) {x2 : BitVec 32} (hmsb : x2.getLsbD 31 = false)
    (k : Nat) : Returned (x2.setWidth 31) (32 * k) (goldCalls x1 x2 k) := by
  induction k with
  | zero => exact lteGoldGeneric_first x1 hmsb
  | succ k ih => exact lteGoldGeneric_next ih.registers

theorem getLsbD_ofNat_of_lt {n : Nat} (h : n < 2147483648) :
    (BitVec.ofNat 32 n).getLsbD 31 = false := by
  rw [BitVec.getLsbD_ofNat, Nat.testBit_lt_two_pow h, Bool.and_false]

/-- `c_init` of the cell-specific reference signals in symbol `l'` of slot `ns`. -/
def referenceInit (Ncp : BitVec 8) (Nid ns l' : Nat) : Nat :=
  1024 * (7 * (ns + 1) + l' + 1) * (2 * Nid + 1) + 2 * Nid + (1 - Ncp).toNat

theorem goldInit_eq (frame_parms : FrameParms) (offset : BitVec 8) {ns l : Nat} (hns : ns < 20)
    (hl : l < 2) :
    goldInit frame_parms offset ns l = BitVec.ofNat 32 (referenceInit frame_parms.Ncp
        (offsetCell frame_parms.Nid_cell offset) ns ((if frame_parms.Ncp = 0 then 4 else 3) * l)) ∧
      referenceInit frame_parms.Ncp (offsetCell frame_parms.Nid_cell offset) ns
        ((if frame_parms.Ncp = 0 then 4 else 3) * l) < 2147483648 := by
  have hcell : offsetCell frame_parms.Nid_cell offset ≤ 767 := by
    have h1 : frame_parms.Nid_cell.toNat / 3 % 256 < 256 := Nat.mod_lt _ (by omega)
    have h2 : (frame_parms.Nid_cell.toNat % 3 + offset.toNat) % 3 < 3 := Nat.mod_lt _ (by omega)
    simp only [offsetCell]
    generalize frame_parms.Nid_cell.toNat / 3 % 256 = Nid1 at h1 ⊢
    generalize (frame_parms.Nid_cell.toNat % 3 + offset.toNat) % 3 = Nid2 at h2 ⊢
    exact (Nat.mod_le _ _).trans (by omega)
  have hNcp : (1 - frame_parms.Ncp).toNat < 256 := (1 - frame_parms.Ncp).isLt
  have hsym : (if frame_parms.Ncp = 0 then 4 else 3) * l ≤ 4 := by
    split <;> omega
  simp only [goldInit, referenceInit]
  generalize (if frame_parms.Ncp = 0 then 4 else 3) * l = l' at hsym ⊢
  generalize offsetCell frame_parms.Nid_cell offset = Nid at hcell ⊢
  generalize (1 - frame_parms.Ncp).toNat = cp at hNcp ⊢
  constructor
  · congr 1
    ring
  · have h1 : 7 * (ns + 1) + l' + 1 ≤ 145 := by omega
    have h2 : 2 * Nid + 1 ≤ 1535 := by omega
    have h3 := Nat.mul_le_mul (Nat.mul_le_mul_left 1024 h1) h2
    omega

/-- The words of the reference signals and of every run of calls are the sequence of 36.211: those
of `lte_gold` for the initial value of their slot and symbol, those of `lte_gold_generic` for the
initial value passed with the first call. -/
theorem gold_words :
    (∀ (frame_parms : FrameParms) (offset : BitVec 8) (ns : Fin 20) (l : Fin 2) (n : Nat)
        (j : Fin 32),
      (lteGold frame_parms offset ns l n).getLsbD j =
        gold (BitVec.ofNat 31 (referenceInit frame_parms.Ncp
          (offsetCell frame_parms.Nid_cell offset) ns
          ((if frame_parms.Ncp = 0 then 4 else 3) * l))) (32 * n + j)) ∧
      ∀ (x1 : BitVec 32) (c_init : BitVec 31) (k : Nat) (j : Fin 32),
        (goldCalls x1 (c_init.setWidth 32) k).1.getLsbD j = gold c_init (32 * k + j) := by
  constructor
  · intro frame_parms offset ns l n j
    obtain ⟨hinit, hsmall⟩ := goldInit_eq frame_parms offset ns.isLt l.isLt
    have hmsb := getLsbD_ofNat_of_lt hsmall
    rw [← hinit] at hmsb
    have hrun := ((Registers.start hmsb).iterate 49).iterate (n + 1)
    have hplace : 0 + 49 * 32 + (n + 1) * 32 = 32 * n + 1600 := by omega
    have hseed : (goldInit frame_parms offset ns l).setWidth 31 = BitVec.ofNat 31
        (referenceInit frame_parms.Ncp (offsetCell frame_parms.Nid_cell offset) ns
          ((if frame_parms.Ncp = 0 then 4 else 3) * l)) := by
      rw [hinit, BitVec.setWidth_ofNat_of_le (by omega)]
    rw [hplace, hseed] at hrun
    exact hrun.getLsbD_xor j.isLt
  · intro x1 c_init k j
    have hmsb : (c_init.setWidth 32).getLsbD 31 = false := by
      rw [BitVec.getLsbD_setWidth, BitVec.getLsbD_of_ge c_init 31 le_rfl, Bool.and_false]
    have hword := (returned_goldCalls x1 hmsb k).word j j.isLt
    rwa [BitVec.setWidth_setWidth_of_le _ (by omega), BitVec.setWidth_eq] at hword

end PdmaXen.Lte
