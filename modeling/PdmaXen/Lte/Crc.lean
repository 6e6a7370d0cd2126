import PdmaXen.Remainder
import Mathlib.Tactic.IntervalCases

/-!
# The checksums

`crc_byte.cpp`: the bit by bit checksum, the tables and the checksums that read them a
byte at a time, against the remainders of the generators of 36.212; the checksums the
transport channels append, and the test of the turbo decoder.
-/

namespace PdmaXen.Lte
set_option autoImplicit false
open Polynomial Remainder

/-! ## The source -/

def poly24a : BitVec 32 := 0x864cfb00
def poly24b : BitVec 32 := 0x80006300
def poly16 : BitVec 32 := 0x10210000
def poly12 : BitVec 32 := 0x80F00000
def poly8 : BitVec 32 := 0x9B000000

/-- The inner loop of `crcbit`; the bits of the octet come out of the highest place of `c`. -/
def crcbitRounds (poly : BitVec 32) : Nat → BitVec 32 → BitVec 32 → BitVec 32
  | 0, _, crc => crc
  | i + 1, c, crc =>
    crcbitRounds poly i (c <<< 1) (if (c ^^^ crc).msb then (crc <<< 1) ^^^ poly else crc <<< 1)

def crcbit (inputptr : Nat → BitVec 8) (octetlen : Nat) (poly : BitVec 32) : BitVec 32 :=
  (List.range octetlen).foldl
    (fun crc k => crcbitRounds poly 8 ((inputptr k).setWidth 32 <<< 24) crc) 0

structure CrcTables where
  crc24aTable : BitVec 8 → BitVec 32
  crc24bTable : BitVec 8 → BitVec 32
  crc16Table : BitVec 8 → BitVec 16
  crc12Table : BitVec 8 → BitVec 16
  crc8Table : BitVec 8 → BitVec 8

def crcTableInit : CrcTables where
  crc24aTable c := crcbit (fun _ => c) 1 poly24a
  crc24bTable c := crcbit (fun _ => c) 1 poly24b
  crc16Table c := (crcbit (fun _ => c) 1 poly16 >>> 16).setWidth 16
  crc12Table c := (crcbit (fun _ => c) 1 poly12 >>> 16).setWidth 16
  crc8Table c := (crcbit (fun _ => c) 1 poly8 >>> 24).setWidth 8

/-- `(*inptr >> (8 - n)) ^ (crc >> (32 - n))`, which is below 256 for at most 8 bits. -/
def tableIndex (octet : BitVec 8) (crc : BitVec 32) (n : Nat) : BitVec 8 :=
  ((octet >>> (8 - n)).setWidth 32 ^^^ (crc >>> (32 - n))).setWidth 8

/-- The checksums that move `crc` up by what they read; `entry` is what they add to it. -/
def crcOctets (entry : BitVec 8 → BitVec 32) (inptr : Nat → BitVec 8) (bitlen : Nat) :
    BitVec 32 :=
  let octetlen := bitlen / 8
  let resbit := bitlen % 8
  let crc := (List.range octetlen).foldl
    (fun (crc : BitVec 32) k => (crc <<< 8) ^^^ entry (tableIndex (inptr k) crc 8)) 0
  if 0 < resbit then (crc <<< resbit) ^^^ entry (tableIndex (inptr octetlen) crc resbit) else crc

def crc24a (inptr : Nat → BitVec 8) (bitlen : Nat) : BitVec 32 :=
  crcOctets crcTableInit.crc24aTable inptr bitlen

def crc24b (inptr : Nat → BitVec 8) (bitlen : Nat) : BitVec 32 :=
  crcOctets crcTableInit.crc24bTable inptr bitlen

def crc16 (inptr : Nat → BitVec 8) (bitlen : Nat) : BitVec 32 :=
  crcOctets (fun i => (crcTableInit.crc16Table i).setWidth 32 <<< 16) inptr bitlen

def crc12 (inptr : Nat → BitVec 8) (bitlen : Nat) : BitVec 32 :=
  crcOctets (fun i => (crcTableInit.crc12Table i).setWidth 32 <<< 16) inptr bitlen

/-- Unlike the others this one does not move `crc` up in its loop. -/
def crc8 (inptr : Nat → BitVec 8) (bitlen : Nat) : BitVec 32 :=
  let octetlen := bitlen / 8
  let resbit := bitlen % 8
  let entry := fun i => (crcTableInit.crc8Table i).setWidth 32 <<< 24
  let crc := (List.range octetlen).foldl
    (fun crc k => entry (tableIndex (inptr k) crc 8)) 0
  if 0 < resbit then (crc <<< resbit) ^^^ entry (tableIndex (inptr octetlen) crc resbit) else crc

/-! ## The bits of a buffer -/

def bitsOf (inptr : Nat → BitVec 8) (n : Nat) : List Bool :=
  (List.range n).map fun i => (inptr (i / 8)).getMsbD (i % 8)

theorem length_bitsOf (inptr : Nat → BitVec 8) (n : Nat) : (bitsOf inptr n).length = n := by
  simp [bitsOf]

theorem getMsbD_raised (b : BitVec 8) {i : Nat} (hi : i < 8) :
    (b.setWidth 32 <<< 24).getMsbD i = b.getMsbD i := by
  simp only [BitVec.getMsbD, BitVec.getLsbD_shiftLeft, BitVec.getLsbD_setWidth]
  have h1 : 32 - 1 - i - 24 = 8 - 1 - i := by omega
  have h2 : i < 32 := by omega
  have h3 : ¬ 32 - 1 - i < 24 := by omega
  have h4 : 32 - 1 - i < 32 := by omega
  have h5 : 8 - 1 - i < 32 := by omega
  simp only [h1, h2, h3, h4, h5, hi, decide_true, decide_false, Bool.not_false, Bool.true_and]

theorem leading_raised (b : BitVec 8) {n : Nat} (hn : n ≤ 8) :
    leading n (b.setWidth 32 <<< 24) = (List.range n).map b.getMsbD := by
  rw [leading_eq_map]
  apply List.map_congr_left
  intro i hi
  exact getMsbD_raised b (by have := List.mem_range.mp hi; omega)

theorem bitsOf_add (inptr : Nat → BitVec 8) (q : Nat) {n : Nat} (hn : n ≤ 8) :
    bitsOf inptr (8 * q + n) =
      bitsOf inptr (8 * q) ++ leading n ((inptr q).setWidth 32 <<< 24) := by
  rw [leading_raised _ hn, bitsOf, List.range_add, List.map_append, List.map_map]
  congr 1
  apply List.map_congr_left
  intro i hi
  have hlt := List.mem_range.mp hi
  have hdiv : (8 * q + i) / 8 = q := by omega
  have hmod : (8 * q + i) % 8 = i := by omega
  simp only [Function.comp_apply, hdiv, hmod]

/-! ## Bit by bit -/

theorem crcbitRounds_eq (poly : BitVec 32) (n : Nat) (c crc : BitVec 32) :
    crcbitRounds poly n c crc = divide poly crc (leading n c) := by
  induction n generalizing c crc with
  | zero => rfl
  | succ n ih =>
    have hmsb : (crc ^^^ top 32 c.msb).msb = (c ^^^ crc).msb := by
      cases hb : c.msb <;> simp [top, BitVec.msb_twoPow, BitVec.msb_xor, hb]
    have hup : (crc ^^^ top 32 c.msb) <<< 1 = crc <<< 1 := by
      have htop : top 32 c.msb <<< 1 = 0#32 := by
        cases c.msb <;> decide
      rw [BitVec.shiftLeft_xor_distrib, htop, BitVec.xor_zero]
    rw [crcbitRounds, ih, leading]
    simp only [divide, List.foldl_cons, shift, hmsb, hup]

theorem crcbit_eq (inputptr : Nat → BitVec 8) (octetlen : Nat) (poly : BitVec 32) :
    crcbit inputptr octetlen poly = divide poly 0#32 (bitsOf inputptr (8 * octetlen)) := by
  induction octetlen with
  | zero => rfl
  | succ k ih =>
    rw [Nat.mul_succ, bitsOf_add inputptr k le_rfl, divide_append, ← ih, ← crcbitRounds_eq]
    simp only [crcbit, List.range_succ, List.foldl_append, List.foldl_cons, List.foldl_nil]

/-! ## A table entry at a time -/

/-- The first `n` bits of an octet, at the top of a word. -/
def raised (b : BitVec 8) (n : Nat) : BitVec 32 := (b >>> (8 - n)).setWidth 32 <<< (32 - n)

theorem getMsbD_shiftLeft_sub {x : BitVec 32} {n i : Nat} (hn : n ≤ 32) (hi : i < n) :
    (x <<< (32 - n)).getMsbD i = x.getLsbD (n - 1 - i) := by
  simp only [BitVec.getMsbD, BitVec.getLsbD_shiftLeft]
  have h1 : i < 32 := by omega
  have h2 : 32 - 1 - i < 32 := by omega
  have h3 : ¬ 32 - 1 - i < 32 - n := by omega
  have h4 : 32 - 1 - i - (32 - n) = n - 1 - i := by omega
  simp only [h1, h2, h3, h4, decide_true, decide_false, Bool.not_false, Bool.true_and]

theorem shiftLeft_sub_shiftLeft (x : BitVec 32) {n : Nat} (hn : n ≤ 32) :
    x <<< (32 - n) <<< n = 0#32 := by
  rw [← BitVec.shiftLeft_add, Nat.sub_add_cancel hn]
  exact BitVec.shiftLeft_eq_zero le_rfl

theorem getMsbD_raised_of_lt (b : BitVec 8) {n i : Nat} (hn : n ≤ 8) (hi : i < n) :
    (raised b n).getMsbD i = b.getMsbD i := by
  have h1 : n - 1 - i < 32 := by omega
  have h2 : 8 - n + (n - 1 - i) = 8 - 1 - i := by omega
  have h3 : i < 8 := by omega
  rw [raised, getMsbD_shiftLeft_sub (by omega) hi, BitVec.getLsbD_setWidth,
    BitVec.getLsbD_ushiftRight, h2, BitVec.getMsbD]
  simp only [h1, h3, decide_true, Bool.true_and]

theorem getLsbD_tableIndex (b : BitVec 8) (crc : BitVec 32) (n : Nat) {i : Nat} (hi : i < 8) :
    (tableIndex b crc n).getLsbD i = (b.getLsbD (8 - n + i) ^^ crc.getLsbD (32 - n + i)) := by
  have h32 : i < 32 := by omega
  simp only [tableIndex, BitVec.getLsbD_setWidth, BitVec.getLsbD_xor, BitVec.getLsbD_ushiftRight,
    hi, h32, decide_true, Bool.true_and]

/-- The index at the top of a word: the bits that come in, added to those that go out. -/
theorem getMsbD_index (b : BitVec 8) (crc : BitVec 32) {n i : Nat} (hn : n ≤ 8) (hi : i < n) :
    ((tableIndex b crc n).setWidth 32 <<< (32 - n)).getMsbD i = (b.getMsbD i ^^ crc.getMsbD i) := by
  have h1 : n - 1 - i < 32 := by omega
  have h2 : 8 - n + (n - 1 - i) = 8 - 1 - i := by omega
  have h3 : 32 - n + (n - 1 - i) = 32 - 1 - i := by omega
  have h4 : i < 8 := by omega
  have h5 : i < 32 := by omega
  rw [getMsbD_shiftLeft_sub (by omega) hi, BitVec.getLsbD_setWidth,
    getLsbD_tableIndex b crc n (by omega), h2, h3, BitVec.getMsbD, BitVec.getMsbD]
  simp only [h1, h4, h5, decide_true, Bool.true_and]

theorem getMsbD_index_of_lt (b : BitVec 8) (crc : BitVec 32) {n i : Nat} (hi : i < 8 - n) :
    ((tableIndex b crc n).setWidth 32 <<< 24).getMsbD i = false := by
  have h1 : b.getLsbD (8 - n + (8 - 1 - i)) = false := BitVec.getLsbD_of_ge _ _ (by omega)
  have h2 : crc.getLsbD (32 - n + (8 - 1 - i)) = false := BitVec.getLsbD_of_ge _ _ (by omega)
  rw [getMsbD_raised _ (by omega), BitVec.getMsbD, getLsbD_tableIndex b crc n (by omega), h1, h2,
    Bool.xor_false, Bool.and_false]

/-- Eight shifts of a table's index give what the shifts of the bits it was made of add. -/
theorem divide_eq_entry (poly crc : BitVec 32) (b : BitVec 8) {n : Nat} (hn : n ≤ 8) :
    divide poly crc (leading n (b.setWidth 32 <<< 24)) =
      (crc <<< n) ^^^ (shift poly)^[8] ((tableIndex b crc n).setWidth 32 <<< 24) := by
  have hraised : leading n (raised b n) = leading n (b.setWidth 32 <<< 24) :=
    leading_congr fun i hi => by rw [getMsbD_raised_of_lt b hn hi, getMsbD_raised b (by omega)]
  have hgone : raised b n <<< n = 0#32 := shiftLeft_sub_shiftLeft _ (by omega)
  generalize hindex : (tableIndex b crc n).setWidth 32 = index
  have hlow : leading n (crc ^^^ raised b n ^^^ (index <<< (32 - n))) =
      List.replicate n false := by
    apply leading_eq_replicate
    intro i hi
    rw [BitVec.getMsbD_xor, BitVec.getMsbD_xor, ← hindex, getMsbD_index b crc hn hi,
      getMsbD_raised_of_lt b hn hi]
    cases b.getMsbD i <;> cases crc.getMsbD i <;> rfl
  have hstay : (crc ^^^ raised b n ^^^ (index <<< (32 - n))) <<< n = crc <<< n := by
    rw [BitVec.shiftLeft_xor_distrib, BitVec.shiftLeft_xor_distrib, hgone,
      shiftLeft_sub_shiftLeft _ (by omega), BitVec.xor_zero, BitVec.xor_zero]
  have hclear : leading (8 - n) (index <<< 24) = List.replicate (8 - n) false :=
    leading_eq_replicate fun i hi => by rw [← hindex, getMsbD_index_of_lt b crc hi]
  have hentry : (shift poly)^[8] (index <<< 24) = (shift poly)^[n] (index <<< (32 - n)) := by
    have hsplit : (8 : Nat) = n + (8 - n) := by omega
    have hsum : 24 + (8 - n) = 32 - n := by omega
    rw [hsplit, Function.iterate_add_apply,
      shifts_of_leading_zero (by omega) poly _ hclear, ← BitVec.shiftLeft_add, hsum]
  have hshift := shifts_xor_eq_divide (by omega) poly crc (raised b n) n
  rw [hgone, BitVec.xor_zero, hraised] at hshift
  rw [← hshift, hentry, ← hstay, ← shifts_of_leading_zero (by omega) poly _ hlow, ← shifts_xor,
    BitVec.xor_assoc, BitVec.xor_self, BitVec.xor_zero]

def entryOf (poly : BitVec 32) (i : BitVec 8) : BitVec 32 :=
  (shift poly)^[8] (i.setWidth 32 <<< 24)

theorem bitsOf_div_add_mod (inptr : Nat → BitVec 8) (n : Nat) :
    bitsOf inptr n = bitsOf inptr (8 * (n / 8)) ++
      leading (n % 8) ((inptr (n / 8)).setWidth 32 <<< 24) := by
  have hn : 8 * (n / 8) + n % 8 = n := Nat.div_add_mod n 8
  rw [← bitsOf_add inptr (n / 8) (by omega), hn]

theorem divide_eq_of_octets {poly : BitVec 32} {inptr : Nat → BitVec 8} (bitlen : Nat)
    {step : BitVec 32 → Nat → BitVec 32}
    (hstep : ∀ q, step (divide poly 0#32 (bitsOf inptr (8 * q))) q =
      (divide poly 0#32 (bitsOf inptr (8 * q)) <<< 8) ^^^
        entryOf poly (tableIndex (inptr q) (divide poly 0#32 (bitsOf inptr (8 * q))) 8)) :
    let crc := (List.range (bitlen / 8)).foldl step 0#32
    divide poly 0#32 (bitsOf inptr bitlen) =
      if 0 < bitlen % 8 then
        (crc <<< (bitlen % 8)) ^^^ entryOf poly (tableIndex (inptr (bitlen / 8)) crc (bitlen % 8))
      else crc := by
  have hloop : ∀ q, (List.range q).foldl step 0#32 = divide poly 0#32 (bitsOf inptr (8 * q)) := by
    intro q
    induction q with
    | zero => rfl
    | succ q ih =>
      rw [List.range_succ, List.foldl_append, List.foldl_cons, List.foldl_nil, ih, hstep,
        Nat.mul_succ, bitsOf_add inptr q le_rfl, divide_append, divide_eq_entry _ _ _ le_rfl]
      rfl
  intro crc
  have hcrc : crc = divide poly 0#32 (bitsOf inptr (8 * (bitlen / 8))) := hloop (bitlen / 8)
  rcases Nat.eq_zero_or_pos (bitlen % 8) with hzero | hpos
  · have hwhole : 8 * (bitlen / 8) = bitlen := by omega
    rw [if_neg (by omega), hcrc, hwhole]
  · rw [if_pos hpos, bitsOf_div_add_mod, divide_append, divide_eq_entry _ _ _ (by omega), ← hcrc]
    rfl

/-! ## The five checksums -/

inductive Checksum where
  | crc24a
  | crc24b
  | crc16
  | crc12
  | crc8
  deriving DecidableEq, Repr

namespace Checksum

def run : Checksum → (Nat → BitVec 8) → Nat → BitVec 32
  | .crc24a => Lte.crc24a
  | .crc24b => Lte.crc24b
  | .crc16 => Lte.crc16
  | .crc12 => Lte.crc12
  | .crc8 => Lte.crc8

def poly : Checksum → BitVec 32
  | .crc24a => poly24a
  | .crc24b => poly24b
  | .crc16 => poly16
  | .crc12 => poly12
  | .crc8 => poly8

def degree : Checksum → Nat
  | .crc24a => 24
  | .crc24b => 24
  | .crc16 => 16
  | .crc12 => 12
  | .crc8 => 8

/-- The generators as the comments beside the constants give them. -/
noncomputable def generator : Checksum → (ZMod 2)[X]
  | .crc24a => X ^ 24 + X ^ 23 + X ^ 18 + X ^ 17 + X ^ 14 + X ^ 11 + X ^ 10 + X ^ 7 + X ^ 6 +
      X ^ 5 + X ^ 4 + X ^ 3 + X + 1
  | .crc24b => X ^ 24 + X ^ 23 + X ^ 6 + X ^ 5 + X + 1
  | .crc16 => X ^ 16 + X ^ 12 + X ^ 5 + 1
  | .crc12 => X ^ 12 + X ^ 11 + X ^ 3 + X ^ 2 + X + 1
  | .crc8 => X ^ 8 + X ^ 7 + X ^ 4 + X ^ 3 + X + 1

end Checksum

theorem entryOf_eq_crcbit (poly : BitVec 32) (c : BitVec 8) :
    crcbit (fun _ => c) 1 poly = entryOf poly c := by
  have hshift := shifts_xor_eq_divide (by omega) poly 0#32 (c.setWidth 32 <<< 24) 8
  have hgone : c.setWidth 32 <<< 24 <<< 8 = 0#32 := shiftLeft_sub_shiftLeft _ (n := 8) (by omega)
  rw [BitVec.zero_xor, hgone, BitVec.xor_zero] at hshift
  rw [entryOf, hshift, ← crcbitRounds_eq]
  rfl

theorem lowClear_entryOf {k : Nat} {poly : BitVec 32} (hpoly : LowClear k poly) (hk : k ≤ 24)
    (c : BitVec 8) : LowClear k (entryOf poly c) := by
  apply lowClear_shifts hpoly
  intro i hi
  rw [BitVec.getLsbD_shiftLeft]
  simp
  omega

theorem restore_of_lowClear {k v : Nat} {x : BitVec 32} (h : LowClear k x) (hv : k + v = 32) :
    (((x >>> k).setWidth v).setWidth 32) <<< k = x := by
  apply BitVec.eq_of_getLsbD_eq
  intro i hi
  rw [BitVec.getLsbD_shiftLeft, BitVec.getLsbD_setWidth, BitVec.getLsbD_setWidth,
    BitVec.getLsbD_ushiftRight]
  rcases Nat.lt_or_ge i k with hlt | hge
  · rw [h i hlt]
    simp [hlt]
  · have h1 : k + (i - k) = i := by omega
    have h2 : i - k < 32 := by omega
    have h3 : i - k < v := by omega
    simp [hi, h1, h2, h3, Nat.not_lt_of_le hge]

namespace Checksum

theorem lowClear_poly (k : Checksum) : LowClear (32 - k.degree) k.poly := by
  cases k <;> unfold LowClear <;> decide

theorem generator_poly (k : Checksum) :
    Remainder.generator k.poly = X ^ (32 - k.degree) * k.generator := by
  cases k <;>
    simp [Remainder.generator, Remainder.poly, poly, generator, degree, Finset.sum_range_succ, bit,
      poly24a, poly24b, poly16, poly12, poly8] <;> ring

theorem crcOctets_eq_divide {poly : BitVec 32} {entry : BitVec 8 → BitVec 32}
    (hentry : ∀ c, entry c = entryOf poly c) (inptr : Nat → BitVec 8) (bitlen : Nat) :
    crcOctets entry inptr bitlen = divide poly 0#32 (bitsOf inptr bitlen) := by
  obtain rfl : entry = entryOf poly := funext hentry
  exact (divide_eq_of_octets bitlen fun _ => rfl).symm

theorem narrow_entry {k v : Nat} {poly : BitVec 32} (hpoly : LowClear k poly) (hk : k ≤ 24)
    (hv : k + v = 32) (c : BitVec 8) :
    (((crcbit (fun _ => c) 1 poly >>> k).setWidth v).setWidth 32) <<< k = entryOf poly c := by
  rw [entryOf_eq_crcbit, restore_of_lowClear (lowClear_entryOf hpoly hk c) hv]

theorem crc8_eq_divide (inptr : Nat → BitVec 8) (bitlen : Nat) :
    Lte.crc8 inptr bitlen = divide poly8 0#32 (bitsOf inptr bitlen) := by
  have hclear : LowClear 24 poly8 := lowClear_poly crc8
  have hentry : ∀ c, (crcTableInit.crc8Table c).setWidth 32 <<< 24 = entryOf poly8 c :=
    narrow_entry hclear le_rfl rfl
  have hgone : ∀ q, divide poly8 0#32 (bitsOf inptr (8 * q)) <<< 8 = 0#32 := by
    intro q
    apply BitVec.eq_of_getLsbD_eq
    intro i hi
    have hlow := lowClear_divide hclear (r := 0#32) (fun _ _ => BitVec.getLsbD_zero) (by omega)
      (bitsOf inptr (8 * q)) (i - 8) (by omega)
    rw [BitVec.getLsbD_shiftLeft, hlow, Bool.and_false, BitVec.getLsbD_zero]
  simp only [Lte.crc8, hentry]
  refine (divide_eq_of_octets bitlen fun q => ?_).symm
  rw [hgone, BitVec.zero_xor]

/-- What a checksum is: the bits of the buffer, shifted through the generator. -/
theorem run_eq_divide (k : Checksum) (inptr : Nat → BitVec 8) (bitlen : Nat) :
    k.run inptr bitlen = divide k.poly 0#32 (bitsOf inptr bitlen) := by
  cases k with
  | crc24a => exact crcOctets_eq_divide (entryOf_eq_crcbit poly24a) inptr bitlen
  | crc24b => exact crcOctets_eq_divide (entryOf_eq_crcbit poly24b) inptr bitlen
  | crc16 =>
    have hclear : LowClear 16 poly16 := lowClear_poly crc16
    exact crcOctets_eq_divide (narrow_entry hclear (by omega) (v := 16) rfl) inptr bitlen
  | crc12 =>
    have hclear : LowClear 16 poly12 := fun i hi => lowClear_poly crc12 i (by simp [degree]; omega)
    exact crcOctets_eq_divide (narrow_entry hclear (by omega) (v := 16) rfl) inptr bitlen
  | crc8 => exact crc8_eq_divide inptr bitlen

theorem monic_generator (k : Checksum) : k.generator.Monic := by
  have hmonic := Remainder.monic_generator k.poly
  rw [generator_poly] at hmonic
  exact (monic_X_pow _).of_mul_monic_left hmonic

theorem poly_run (k : Checksum) (inptr : Nat → BitVec 8) (bitlen : Nat) :
    Remainder.poly (k.run inptr bitlen) =
      X ^ (32 - k.degree) * ((X ^ k.degree * message (bitsOf inptr bitlen)) %ₘ k.generator) := by
  have hsum : 32 - k.degree + k.degree = 32 := by
    cases k <;> rfl
  have hpow := pow_mul_modByMonic k.monic_generator (32 - k.degree) k.degree
    (message (bitsOf inptr bitlen))
  rw [hsum] at hpow
  rw [k.run_eq_divide, poly_divide (by omega), k.generator_poly, hpow]

end Checksum

/-- Every checksum, of any number of bits, is the remainder of the message modulo its generator,
at the top of the word; on whole octets it is the one computed bit by bit. -/
theorem crc_eq_remainder (k : Checksum) (inptr : Nat → BitVec 8) (bitlen : Nat) :
    Remainder.poly (k.run inptr bitlen) =
        X ^ (32 - k.degree) * ((X ^ k.degree * message (bitsOf inptr bitlen)) %ₘ k.generator) ∧
      (8 ∣ bitlen → k.run inptr bitlen = crcbit inptr (bitlen / 8) k.poly) := by
  refine ⟨k.poly_run inptr bitlen, ?_⟩
  intro hdvd
  rw [k.run_eq_divide, crcbit_eq, Nat.mul_div_cancel' hdvd]

/-! ## Appending and testing -/

/-- `((u8 *)&x)[i]`. -/
def octetOf (x : BitVec 32) (i : Nat) : BitVec 8 := (x >>> (8 * i)).setWidth 8

/-- The three stores of a 24-bit checksum after `len` octets, its highest octet first. -/
def attachCrc24 (crc : BitVec 32) (a : Nat → BitVec 8) (len : Nat) : Nat → BitVec 8 :=
  Function.update (Function.update (Function.update a len (octetOf crc 2))
    (len + 1) (octetOf crc 1)) (len + 2) (octetOf crc 0)

inductive CrcType where
  | CRC24_A
  | CRC24_B
  | CRC16
  | CRC8
  deriving DecidableEq, Repr

/-- `crc_len` of the turbo decoder. -/
def CrcType.crcLen : CrcType → Nat
  | .CRC24_A => 3
  | .CRC24_B => 3
  | .CRC16 => 2
  | .CRC8 => 1

def wordOf (a b c d : BitVec 8) : BitVec 32 := d ++ c ++ b ++ a

/-- `*((unsigned int *)(&m[i]))`. -/
def loadWord (m : Nat → BitVec 8) (i : Nat) : BitVec 32 :=
  wordOf (m i) (m (i + 1)) (m (i + 2)) (m (i + 3))

def swapCrc (crc : BitVec 32) : BitVec 32 :=
  wordOf (octetOf crc 2) (octetOf crc 1) (octetOf crc 0) (octetOf crc 3)

/-- The test after an iteration of the turbo decoder, `(crc == oldcrc) && (crc != 0)`; `n` and `F`
count bits. -/
def crcPasses (crc_type : CrcType) (decoded_bytes : Nat → BitVec 8) (n F : Nat) : Bool :=
  let stored := loadWord decoded_bytes (n / 8 - crc_type.crcLen)
  let oldcrc := match crc_type with
    | .CRC24_A => stored &&& 0x00ffffff
    | .CRC24_B => stored &&& 0x00ffffff
    | .CRC16 => stored &&& 0x0000ffff
    | .CRC8 => stored &&& 0x000000ff
  let crc := match crc_type with
    | .CRC24_A => swapCrc (crc24a (fun i => decoded_bytes (F / 8 + i)) (n - 24 - F) >>> 8)
    | .CRC24_B => swapCrc (crc24b decoded_bytes (n - 24) >>> 8)
    -- these two are compared as they are, without the exchange
    | .CRC16 => crc16 decoded_bytes (n - 16) >>> 16
    | .CRC8 => crc8 decoded_bytes (n - 8) >>> 24
  crc == oldcrc && crc != 0

theorem getLsbD_octetOf (x : BitVec 32) (i : Nat) {j : Nat} (hj : j < 8) :
    (octetOf x i).getLsbD j = x.getLsbD (8 * i + j) := by
  simp [octetOf, hj]

theorem octetOf_wordOf (a b c d : BitVec 8) :
    octetOf (wordOf a b c d) 0 = a ∧ octetOf (wordOf a b c d) 1 = b ∧
      octetOf (wordOf a b c d) 2 = c ∧ octetOf (wordOf a b c d) 3 = d := by
  refine ⟨?_, ?_, ?_, ?_⟩ <;>
  · apply BitVec.eq_of_getLsbD_eq
    intro j hj
    rw [getLsbD_octetOf _ _ hj, wordOf, BitVec.getLsbD_append, BitVec.getLsbD_append,
      BitVec.getLsbD_append]
    split_ifs <;> first | omega | (congr 1; omega)

theorem wordOf_octetOf (x : BitVec 32) :
    wordOf (octetOf x 0) (octetOf x 1) (octetOf x 2) (octetOf x 3) = x := by
  apply BitVec.eq_of_getLsbD_eq
  intro j hj
  rw [wordOf, BitVec.getLsbD_append, BitVec.getLsbD_append, BitVec.getLsbD_append]
  split_ifs <;> rw [getLsbD_octetOf _ _ (by omega)] <;> congr 1 <;> omega

theorem wordOf_inj {a b c d a' b' c' d' : BitVec 8} :
    wordOf a b c d = wordOf a' b' c' d' ↔ a = a' ∧ b = b' ∧ c = c' ∧ d = d' := by
  constructor
  · intro h
    obtain ⟨h0, h1, h2, h3⟩ := octetOf_wordOf a b c d
    obtain ⟨k0, k1, k2, k3⟩ := octetOf_wordOf a' b' c' d'
    rw [h] at h0 h1 h2 h3
    exact ⟨h0.symm.trans k0, h1.symm.trans k1, h2.symm.trans k2, h3.symm.trans k3⟩
  · rintro ⟨rfl, rfl, rfl, rfl⟩
    rfl

theorem wordOf_and_three (a b c d : BitVec 8) :
    wordOf a b c d &&& 0x00ffffff#32 = wordOf a b c 0 := by
  have hmask : ∀ j < 32, (0x00ffffff#32).getLsbD j = decide (j < 24) := by decide
  apply BitVec.eq_of_getLsbD_eq
  intro j hj
  rw [BitVec.getLsbD_and, hmask j hj, wordOf, wordOf, BitVec.getLsbD_append,
    BitVec.getLsbD_append, BitVec.getLsbD_append, BitVec.getLsbD_append, BitVec.getLsbD_append,
    BitVec.getLsbD_append]
  split_ifs <;> simp <;> omega

/-! ## What the test accepts -/

theorem bitsOf_append (m : Nat → BitVec 8) (q n : Nat) :
    bitsOf m (8 * q + n) = bitsOf m (8 * q) ++ bitsOf (fun i => m (q + i)) n := by
  rw [bitsOf, List.range_add, List.map_append, List.map_map]
  congr 1
  apply List.map_congr_left
  intro i _
  have hdiv : (8 * q + i) / 8 = q + i / 8 := by omega
  have hmod : (8 * q + i) % 8 = i % 8 := by omega
  simp only [Function.comp_apply, hdiv, hmod]

theorem bitsOf_eq_leading_iff (m : Nat → BitVec 8) (x : BitVec 32) :
    bitsOf m 24 = leading 24 x ↔ m 0 = octetOf x 3 ∧ m 1 = octetOf x 2 ∧ m 2 = octetOf x 1 := by
  have hbit : ∀ q < 3, ∀ j < 8, (octetOf x (3 - q)).getMsbD j = x.getMsbD (8 * q + j) := by
    intro q hq j hj
    have h1 : 8 * (3 - q) + (8 - 1 - j) = 32 - 1 - (8 * q + j) := by omega
    have h2 : 8 * q + j < 32 := by omega
    rw [BitVec.getMsbD, BitVec.getMsbD, getLsbD_octetOf _ _ (by omega), h1]
    simp [hj, h2]
  have hoctet : ∀ q < 3, (∀ j < 8, (m q).getMsbD j = x.getMsbD (8 * q + j)) →
      m q = octetOf x (3 - q) := by
    intro q hq h
    apply BitVec.eq_of_getMsbD_eq
    intro j hj
    rw [h j hj, hbit q hq j hj]
  rw [leading_eq_map, bitsOf]
  constructor
  · intro h
    have hall : ∀ q < 3, ∀ j < 8, (m q).getMsbD j = x.getMsbD (8 * q + j) := by
      intro q hq j hj
      have hmem := List.map_inj_left.mp h (8 * q + j) (List.mem_range.mpr (by omega))
      have hdiv : (8 * q + j) / 8 = q := by omega
      have hmod : (8 * q + j) % 8 = j := by omega
      rwa [hdiv, hmod] at hmem
    exact ⟨hoctet 0 (by omega) (hall 0 (by omega)), hoctet 1 (by omega) (hall 1 (by omega)),
      hoctet 2 (by omega) (hall 2 (by omega))⟩
  · rintro ⟨h0, h1, h2⟩
    apply List.map_congr_left
    intro i hi
    have hlt := List.mem_range.mp hi
    have hm : m (i / 8) = octetOf x (3 - i / 8) := by
      have hcases : i / 8 = 0 ∨ i / 8 = 1 ∨ i / 8 = 2 := by omega
      rcases hcases with hq | hq | hq <;> rw [hq] <;> assumption
    rw [hm, hbit _ (by omega) _ (by omega), Nat.div_add_mod]

namespace Checksum

theorem degree_generator (k : Checksum) : k.generator.degree = k.degree := by
  cases k <;> simp only [generator, degree] <;> compute_degree!

theorem coeff_zero_generator (k : Checksum) : k.generator.coeff 0 ≠ 0 := by
  cases k <;> simp [generator, coeff_X, coeff_one]

theorem lowClear_run (k : Checksum) (m : Nat → BitVec 8) (n : Nat) :
    LowClear (32 - k.degree) (k.run m n) := by
  rw [run_eq_divide]
  apply lowClear_divide k.lowClear_poly (fun _ _ => BitVec.getLsbD_zero)
  cases k <;> decide

/-- A block is a multiple of the generator just when it ends in its checksum. -/
theorem dvd_iff (k : Checksum) (m : Nat → BitVec 8) (n : Nat) {t : List Bool}
    (ht : t.length = k.degree) :
    k.generator ∣ message (bitsOf m n ++ t) ↔ t = leading k.degree (k.run m n) := by
  have hd : k.degree ≤ 32 := by
    cases k <;> decide
  apply dvd_message_append_iff k.degree_generator _ ht (length_leading _ _)
  have hrem := k.poly_run m n
  rw [message_leading k.degree hd (k.lowClear_run m n)] at hrem
  exact (mul_left_cancel₀ (pow_ne_zero _ X_ne_zero) hrem).symm

end Checksum

theorem octetOf_shiftRight (x : BitVec 32) (i : Nat) : octetOf (x >>> 8) i = octetOf x (i + 1) := by
  rw [octetOf, octetOf, ← BitVec.shiftRight_add, Nat.mul_succ, Nat.add_comm]

theorem octetOf_of_le (x : BitVec 32) {i : Nat} (hi : 4 ≤ i) : octetOf x i = 0 := by
  apply BitVec.eq_of_getLsbD_eq
  intro j hj
  rw [getLsbD_octetOf _ _ hj, BitVec.getLsbD_of_ge _ _ (by omega)]
  exact BitVec.getLsbD_zero.symm

theorem octetOf_of_lowClear {x : BitVec 32} (h : LowClear 8 x) : octetOf x 0 = 0 := by
  apply BitVec.eq_of_getLsbD_eq
  intro j hj
  rw [getLsbD_octetOf _ _ hj, h _ (by omega)]
  exact BitVec.getLsbD_zero.symm

/-- The test of a 24-bit checksum `r`, at the top of its word, against the three octets at `p`. -/
theorem crc24_test_iff {r : BitVec 32} (hr : LowClear 8 r) (m : Nat → BitVec 8) (p : Nat) :
    (swapCrc (r >>> 8) == (loadWord m p &&& 0x00ffffff#32) && swapCrc (r >>> 8) != 0#32) = true ↔
      bitsOf (fun i => m (p + i)) 24 = leading 24 r ∧ r ≠ 0#32 := by
  have hswap : swapCrc (r >>> 8) = wordOf (octetOf r 3) (octetOf r 2) (octetOf r 1) 0 := by
    rw [swapCrc, octetOf_shiftRight, octetOf_shiftRight, octetOf_shiftRight, octetOf_shiftRight,
      octetOf_of_le r le_rfl]
  have hequal : swapCrc (r >>> 8) = (loadWord m p &&& 0x00ffffff#32) ↔
      bitsOf (fun i => m (p + i)) 24 = leading 24 r := by
    rw [hswap, loadWord, wordOf_and_three, wordOf_inj, bitsOf_eq_leading_iff]
    constructor
    · rintro ⟨h3, h2, h1, -⟩
      exact ⟨h3.symm, h2.symm, h1.symm⟩
    · rintro ⟨h3, h2, h1⟩
      exact ⟨h3.symm, h2.symm, h1.symm, rfl⟩
  have hzero : swapCrc (r >>> 8) = 0#32 ↔ r = 0#32 := by
    have hword : wordOf 0 0 0 0 = 0#32 := by decide
    constructor
    · intro h
      rw [hswap, ← hword, wordOf_inj] at h
      rw [← wordOf_octetOf r, octetOf_of_lowClear hr, h.2.2.1, h.2.1, h.1, hword]
    · rintro rfl
      decide
  rw [Bool.and_eq_true, beq_iff_eq, bne_iff_ne, hequal, ne_eq, hzero]

theorem bitsOf_attachCrc24 {r : BitVec 32} (a : Nat → BitVec 8) (len : Nat) :
    bitsOf (attachCrc24 (r >>> 8) a len) (8 * len + 24) = bitsOf a (8 * len) ++ leading 24 r := by
  have h0 : attachCrc24 (r >>> 8) a len len = octetOf r 3 := by
    simp [attachCrc24, octetOf_shiftRight]
  have h1 : attachCrc24 (r >>> 8) a len (len + 1) = octetOf r 2 := by
    simp [attachCrc24, octetOf_shiftRight]
  have h2 : attachCrc24 (r >>> 8) a len (len + 2) = octetOf r 1 := by
    simp [attachCrc24, octetOf_shiftRight]
  rw [bitsOf_append, (bitsOf_eq_leading_iff _ r).mpr ⟨h0, h1, h2⟩]
  congr 1
  apply List.map_congr_left
  intro i hi
  have hlt := List.mem_range.mp hi
  have hne : ∀ k, len ≤ k → i / 8 ≠ k := by
    intro k hk
    omega
  rw [attachCrc24, Function.update_of_ne (hne _ (by omega)), Function.update_of_ne (hne _ (by omega)),
    Function.update_of_ne (hne _ (by omega))]

/-- What a 24-bit checksum of `len` octets gives the test of a decoded block, whose octets before
`start` are fillers. -/
structure Protects (k : Checksum) (passes : (Nat → BitVec 8) → Bool) (start len : Nat) : Prop where
  accepts : ∀ decoded, passes decoded = true ↔
    k.generator ∣ message (bitsOf (fun i => decoded (start + i)) (8 * len + 24)) ∧
      k.run (fun i => decoded (start + i)) (8 * len) ≠ 0#32
  intact : ∀ a decoded, bitsOf (fun i => decoded (start + i)) (8 * len + 24) =
      bitsOf (attachCrc24 (k.run a (8 * len) >>> 8) a len) (8 * len + 24) →
    (passes decoded = true ↔ k.run a (8 * len) ≠ 0#32)
  burst : ∀ a decoded i, bitsOf (fun i => decoded (start + i)) (8 * len + 24) ≠
      bitsOf (attachCrc24 (k.run a (8 * len) >>> 8) a len) (8 * len + 24) →
    (∀ j, j < i ∨ i + 24 ≤ j → (bitsOf (fun i => decoded (start + i)) (8 * len + 24))[j]? =
      (bitsOf (attachCrc24 (k.run a (8 * len) >>> 8) a len) (8 * len + 24))[j]?) →
    passes decoded = false

theorem protects_of_test {k : Checksum} (hk : k.degree = 24) {passes : (Nat → BitVec 8) → Bool}
    {start len : Nat} (htest : ∀ decoded, passes decoded = true ↔
      bitsOf (fun i => decoded (start + len + i)) 24 =
        leading 24 (k.run (fun i => decoded (start + i)) (8 * len)) ∧
      k.run (fun i => decoded (start + i)) (8 * len) ≠ 0#32) :
    Protects k passes start len := by
  have haccepts : ∀ decoded, passes decoded = true ↔
      k.generator ∣ message (bitsOf (fun i => decoded (start + i)) (8 * len + 24)) ∧
        k.run (fun i => decoded (start + i)) (8 * len) ≠ 0#32 := by
    intro decoded
    have hdvd := k.dvd_iff (fun i => decoded (start + i)) (8 * len)
      (t := bitsOf (fun i => decoded (start + len + i)) 24) (by rw [length_bitsOf, hk])
    have hadd : ∀ i, start + len + i = start + (len + i) := fun i => Nat.add_assoc start len i
    rw [hk] at hdvd
    rw [htest, ← hdvd, bitsOf_append]
    simp only [hadd]
  have hsent : ∀ a, k.generator ∣
      message (bitsOf (attachCrc24 (k.run a (8 * len) >>> 8) a len) (8 * len + 24)) := by
    intro a
    rw [bitsOf_attachCrc24, k.dvd_iff a (8 * len) (by rw [length_leading, hk]), hk]
  refine ⟨haccepts, ?_, ?_⟩
  · intro a decoded hsame
    have hrun : k.run (fun i => decoded (start + i)) (8 * len) = k.run a (8 * len) := by
      rw [bitsOf_attachCrc24, bitsOf_append] at hsame
      rw [k.run_eq_divide, k.run_eq_divide,
        List.append_inj_left hsame (by rw [length_bitsOf, length_bitsOf])]
    rw [haccepts, hsame, hrun]
    exact and_iff_right (hsent a)
  · intro a decoded i hne hsame
    rw [← Bool.not_eq_true]
    intro hpass
    have hlen : (bitsOf (fun i => decoded (start + i)) (8 * len + 24)).length =
        (bitsOf (attachCrc24 (k.run a (8 * len) >>> 8) a len) (8 * len + 24)).length := by
      rw [length_bitsOf, length_bitsOf]
    exact not_dvd_of_burst k.coeff_zero_generator (k.degree_generator.trans (by rw [hk])) hlen hne i
      hsame ((haccepts decoded).mp hpass).1 (hsent a)

theorem crc24a_protects (f len : Nat) :
    Protects .crc24a (fun decoded => crcPasses .CRC24_A decoded (8 * f + 8 * len + 24) (8 * f))
      f len := by
  apply protects_of_test rfl
  intro decoded
  have hF : 8 * f / 8 = f := by omega
  have hn : 8 * f + 8 * len + 24 - 24 - 8 * f = 8 * len := by omega
  have hp : (8 * f + 8 * len + 24) / 8 - CrcType.CRC24_A.crcLen = f + len := by
    simp only [CrcType.crcLen]
    omega
  have htest := crc24_test_iff (Checksum.crc24a.lowClear_run (fun i => decoded (f + i)) (8 * len))
    decoded (f + len)
  simp only [crcPasses, hF, hn, hp]
  exact htest

theorem crc24b_protects (f len : Nat) :
    Protects .crc24b (fun decoded => crcPasses .CRC24_B decoded (8 * len + 24) (8 * f)) 0 len := by
  apply protects_of_test rfl
  intro decoded
  have hn : 8 * len + 24 - 24 = 8 * len := by omega
  have hp : (8 * len + 24) / 8 - CrcType.CRC24_B.crcLen = len := by
    simp only [CrcType.crcLen]
    omega
  have htest := crc24_test_iff (Checksum.crc24b.lowClear_run decoded (8 * len)) decoded len
  simp only [crcPasses, hn, hp, Nat.zero_add]
  exact htest

/-- The checksums of the transport block and of its segments protect what the turbo decoder
returns: every burst of 24 bits is found, and only a block whose checksum is zero is refused though
it arrived intact. `f` counts the octets of filler bits. -/
theorem crc24_protects (f len : Nat) :
    Protects .crc24a (fun decoded => crcPasses .CRC24_A decoded (8 * f + 8 * len + 24) (8 * f))
        f len ∧
      Protects .crc24b (fun decoded => crcPasses .CRC24_B decoded (8 * len + 24) (8 * f)) 0 len :=
  ⟨crc24a_protects f len, crc24b_protects f len⟩

end PdmaXen.Lte
