import Mathlib.Algebra.Group.Nat.Defs
import Mathlib.Data.Int.Basic
import PdmaXen.Pdma.Pci

/-!
# The geometry of the pools

`pdma_input_check_and_parse` narrows `block` to `int` and reads `pool` as a
`long` before it checks anything. What it accepts, against the 64-bit numbers.
-/

namespace PdmaXen.Pdma.Pci
set_option autoImplicit false

/-- The stored geometry is the one the numbers ask for. -/
structure Configured (a : InitAnswers) (c : Card) : Prop where
  block_pos : 0 < a.block.toNat
  block_le : a.block.toNat ≤ 1024 * 1024
  aligned : 4096 ∣ a.block.toNat
  divides : a.block.toNat ∣ a.pool.toNat
  rd_size : c.rdBufSize.toInt = a.block.toNat
  wt_size : c.wtBufSize.toInt = a.block.toNat
  rd_nr : 1 ≤ c.rdBufNr.toInt ∧ c.rdBufNr.toInt * a.block.toNat = a.pool.toNat
  wt_nr : 1 ≤ c.wtBufNr.toInt ∧ c.wtBufNr.toInt * a.block.toNat = a.pool.toNat

/-- Accepted parameters are stored as they are; rejected ones fail the
initialisation before it allocates anything. -/
def ParsedExactly (a : InitAnswers) (c : Card) : Prop :=
  if (inputCheckAndParse a c).2 = 0 then Configured a (inputCheckAndParse a c).1
  else (devInit a c).result = (c, -einval) ∧ (devInit a c).events = []

def blockSz (a : InitAnswers) : Int := (a.block.toNat : Int).bmod (2 ^ 32)

def poolSz (a : InitAnswers) : Int := (a.pool.toNat : Int).bmod (2 ^ 64)

/-- The checks, on the numbers as they are after the narrowing. -/
def Refused (a : InitAnswers) : Prop :=
  (blockSz a = 0 ∨ ¬ 4096 ∣ blockSz a ∨ 1024 * 1024 < blockSz a) ∨
    poolSz a = 0 ∨ ¬ blockSz a ∣ poolSz a

theorem toInt_block (a : InitAnswers) : a.block.toUInt32.toInt32.toInt = blockSz a := by
  have hnat : a.block.toUInt32.toBitVec.toNat = a.block.toNat % 2 ^ 32 := UInt64.toNat_toUInt32 a.block
  have htoInt := BitVec.toInt_eq_toNat_bmod a.block.toUInt32.toBitVec
  rw [hnat, Int.natCast_emod] at htoInt
  exact htoInt.trans (Int.emod_bmod _ _)

theorem toInt_pool (a : InitAnswers) : a.pool.toInt64.toInt = poolSz a :=
  BitVec.toInt_eq_toNat_bmod a.pool.toBitVec

theorem bmod_eq_self {n m : Nat} (h : 2 * n < m) : (n : Int).bmod m = n :=
  Int.bmod_eq_of_le_mul_two (by omega) (by omega)

theorem dvd_iff_tmod {m n : Int} : m ∣ n ↔ n.tmod m = 0 :=
  ⟨Int.tmod_eq_zero_of_dvd, Int.dvd_of_tmod_eq_zero⟩

theorem block_ok_iff (a : InitAnswers) :
    (a.block.toUInt32.toInt32 == 0 || a.block.toUInt32.toInt32 % 4096 != 0 ||
      a.block.toUInt32.toInt32 > 1024 * 1024) = true ↔
    blockSz a = 0 ∨ ¬ 4096 ∣ blockSz a ∨ 1024 * 1024 < blockSz a := by
  rw [dvd_iff_tmod]
  simp only [Bool.or_eq_true, beq_iff_eq, bne_iff_ne, decide_eq_true_eq, ne_eq, gt_iff_lt,
    ← Int32.toInt_inj, Int32.lt_iff_toInt_lt, Int32.toInt_mod, toInt_block, or_assoc]
  rfl

theorem pool_ok_iff (a : InitAnswers) :
    (a.pool.toInt64 == 0 || a.pool.toInt64 % a.block.toUInt32.toInt32.toInt64 != 0) = true ↔
    poolSz a = 0 ∨ ¬ blockSz a ∣ poolSz a := by
  rw [dvd_iff_tmod]
  simp only [Bool.or_eq_true, beq_iff_eq, bne_iff_ne, ne_eq, ← Int64.toInt_inj, Int64.toInt_mod,
    Int32.toInt_toInt64, toInt_block, toInt_pool]
  rfl

/-- The number of buffers as an `int` holds it. -/
def storedNr (a : InitAnswers) : Int := ((poolSz a).tdiv (blockSz a)).bmod (2 ^ 32)

theorem refused_of_parse {a : InitAnswers} (c : Card) (h : Refused a) :
    inputCheckAndParse a c = (c, -einval) := by
  unfold inputCheckAndParse
  by_cases hblock : blockSz a = 0 ∨ ¬ 4096 ∣ blockSz a ∨ 1024 * 1024 < blockSz a
  · exact if_pos ((block_ok_iff a).mpr hblock)
  · have hpool := h.resolve_left hblock
    exact (if_neg (mt (block_ok_iff a).mp hblock)).trans (if_pos ((pool_ok_iff a).mpr hpool))

theorem parse_of_accepted {a : InitAnswers} (c : Card) (h : ¬ Refused a) :
    ∃ c', inputCheckAndParse a c = (c', 0) ∧
      c'.rdBufSize.toInt = blockSz a ∧ c'.wtBufSize.toInt = blockSz a ∧
      c'.rdBufNr.toInt = storedNr a ∧ c'.wtBufNr.toInt = storedNr a := by
  obtain ⟨hblock, hpool⟩ := not_or.mp h
  refine ⟨_, (if_neg (mt (block_ok_iff a).mp hblock)).trans (if_neg (mt (pool_ok_iff a).mp hpool)),
    toInt_block a, toInt_block a, ?_⟩
  have hne : a.block.toUInt32.toInt32.toInt64 ≠ -1 := by
    intro hone
    have hval := congrArg Int64.toInt hone
    rw [Int32.toInt_toInt64, toInt_block] at hval
    have hdvd : (4096 : Int) ∣ -1 := by
      by_contra hnot
      exact hblock (.inr (.inl (hval ▸ hnot)))
    omega
  have hnr : (a.pool.toInt64 / a.block.toUInt32.toInt32.toInt64).toInt32.toInt = storedNr a := by
    rw [Int64.toInt_toInt32, Int64.toInt_div_of_ne_right _ _ hne, Int32.toInt_toInt64, toInt_block,
      toInt_pool, storedNr]
  exact ⟨hnr, hnr⟩

theorem configured_of_small {a : InitAnswers} {c : Card} (h : ¬ Refused a)
    (hrd : c.rdBufSize.toInt = blockSz a) (hwt : c.wtBufSize.toInt = blockSz a)
    (hrdNr : c.rdBufNr.toInt = storedNr a) (hwtNr : c.wtBufNr.toInt = storedNr a)
    (hb : a.block.toNat < 2 ^ 31) (hq : a.pool.toNat / a.block.toNat < 2 ^ 31) :
    Configured a c := by
  obtain ⟨hblock, hpool⟩ := not_or.mp h
  have hbs : blockSz a = a.block.toNat := bmod_eq_self (by omega)
  rw [hbs] at hblock hpool
  obtain ⟨hzero, haligned, hle⟩ : a.block.toNat ≠ 0 ∧ 4096 ∣ a.block.toNat ∧
      a.block.toNat ≤ 1024 * 1024 := by
    refine ⟨fun h0 => hblock (.inl (by omega)), ?_, ?_⟩
    · by_contra hnot
      exact hblock (.inr (.inl (by omega)))
    · by_contra hnot
      exact hblock (.inr (.inr (by omega)))
  have hsmall : a.pool.toNat < 2 ^ 31 * (1024 * 1024) := by
    have hlt := (Nat.div_lt_iff_lt_mul (by omega)).mp hq
    exact lt_of_lt_of_le hlt (Nat.mul_le_mul_left _ hle)
  have hps : poolSz a = a.pool.toNat := bmod_eq_self (by omega)
  rw [hps] at hpool
  have hdvd : a.block.toNat ∣ a.pool.toNat := by
    by_contra hnot
    exact hpool (.inr (mt Int.natCast_dvd_natCast.mp hnot))
  obtain ⟨n, hn⟩ := hdvd
  have hdiv : a.pool.toNat / a.block.toNat = n := by
    rw [hn, Nat.mul_div_cancel_left n (by omega)]
  have hnr : storedNr a = n := by
    rw [storedNr, hbs, hps, ← Int.ofNat_tdiv, hdiv]
    exact bmod_eq_self (by omega)
  have hnpos : 1 ≤ n := by
    by_contra hzero
    obtain rfl : n = 0 := by omega
    exact hpool (.inl (by simp [hn]))
  have hmul : (n : Int) * a.block.toNat = a.pool.toNat := by
    rw [hn, Nat.mul_comm]
    exact (Int.natCast_mul n _).symm
  exact {
    block_pos := by omega
    block_le := hle
    aligned := haligned
    divides := ⟨n, hn⟩
    rd_size := hrd.trans hbs
    wt_size := hwt.trans hbs
    rd_nr := by rw [hrdNr, hnr]; exact ⟨by omega, hmul⟩
    wt_nr := by rw [hwtNr, hnr]; exact ⟨by omega, hmul⟩ }

theorem small_of_configured {a : InitAnswers} {c : Card} (h : Configured a c) :
    a.block.toNat < 2 ^ 31 ∧ a.pool.toNat / a.block.toNat < 2 ^ 31 := by
  have hle := h.block_le
  have hlt := Int32.toInt_lt c.rdBufNr
  obtain ⟨hpos, hmul⟩ := h.rd_nr
  obtain ⟨n, hn⟩ := Int.eq_ofNat_of_zero_le (a := c.rdBufNr.toInt) (by omega)
  rw [hn] at hmul hlt
  have hp : a.pool.toNat = n * a.block.toNat := by
    exact_mod_cast hmul.symm
  rw [hp, Nat.mul_div_cancel n h.block_pos]
  omega

/-- Parsing is exact when the narrowed numbers are refused, or when neither the block
size nor the number of blocks needs more than 31 bits; otherwise it is not. -/
theorem pool_parsing_exact (a : InitAnswers) (c : Card) :
    ParsedExactly a c ↔
      Refused a ∨ (a.block.toNat < 2 ^ 31 ∧ a.pool.toNat / a.block.toNat < 2 ^ 31) := by
  by_cases h : Refused a
  · have hparse := refused_of_parse c h
    have hne : -einval ≠ 0 := by decide
    simp only [ParsedExactly, devInit, hparse, hne, if_false, h, true_or, iff_true, ne_eq,
      not_false_eq_true, if_true]
    exact ⟨rfl, rfl⟩
  · obtain ⟨c', hparse, hrd, hwt, hrdNr, hwtNr⟩ := parse_of_accepted c h
    simp only [ParsedExactly, hparse, if_true, h, false_or]
    constructor
    · intro hconf
      exact small_of_configured hconf
    · rintro ⟨hb, hq⟩
      exact configured_of_small h hrd hwt hrdNr hwtNr hb hq

/-- `block=4294971392`: 2³² and a page, stored as a page. -/
theorem block_of_four_gigabytes :
    ¬ ParsedExactly { block := 4294971392, pool := 16777216 } {} := by
  intro h
  have hparse : (inputCheckAndParse { block := 4294971392, pool := 16777216 } {}).2 = 0 := by
    decide +kernel
  rw [ParsedExactly, if_pos hparse] at h
  exact absurd h.block_le (by decide)

end PdmaXen.Pdma.Pci
