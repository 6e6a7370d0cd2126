import PdmaXen.Lte.Pdcch
import Mathlib.Algebra.BigOperators.Intervals

/-!
# The control format indicator

`pcfich.cpp`: the number of symbols of the control channel is sent in a code word of 32 bits, and is
detected as the one whose code word correlates best.
-/

namespace PdmaXen.Lte
set_option autoImplicit false

/-! ## The source -/

def pcfichReg (frame_parms : PdcchParms) (quad : Nat) : Nat :=
  let N_RB_DL := frame_parms.N_RB_DL.toNat
  let kbar := 6 * (frame_parms.Nid_cell.toNat % (2 * N_RB_DL))
  match quad with
  | 0 => kbar / 6
  | 1 => (kbar + N_RB_DL / 2 * 6) % (N_RB_DL * 12) / 6
  | 2 => (kbar + N_RB_DL * 6) % (N_RB_DL * 12) / 6
  | _ => (kbar + 3 * N_RB_DL / 2 * 6) % (N_RB_DL * 12) / 6

def pcfichFirstReg (frame_parms : PdcchParms) : Nat × Nat :=
  [1, 2, 3].foldl (fun (idx, first_reg) quad =>
    if pcfichReg frame_parms quad < first_reg then (quad, pcfichReg frame_parms quad)
    else (idx, first_reg)) (0, pcfichReg frame_parms 0)

def pcfichInit (frame_parms : PdcchParms) (subframe : BitVec 8) : BitVec 32 :=
  BitVec.ofNat 32 ((2 * frame_parms.Nid_cell.toNat + 1) * (1 + subframe.toNat) * 512 +
    frame_parms.Nid_cell.toNat)

def pcfichScrambling (frame_parms : PdcchParms) (subframe : BitVec 8) (b : Nat → BitVec 8)
    (x1 : BitVec 32) (bt : Nat → BitVec 8) : Nat → BitVec 8 :=
  (goldLoop (fun i c _ => scrambleBit c (b i)) x1 (pcfichInit frame_parms subframe) bt 32).2

def pcfichUnscrambling (frame_parms : PdcchParms) (subframe : BitVec 8) (x1 : BitVec 32)
    (d : Nat → BitVec 16) : Nat → BitVec 16 :=
  (goldLoop (fun _ c d => if c = 1 then -d else d) x1 (pcfichInit frame_parms subframe) d 32).2

def pcfichTable : List (List (BitVec 8)) :=
  [[0, 1, 1, 0, 1, 1, 0, 1, 1, 0, 1, 1, 0, 1, 1, 0, 1, 1, 0, 1, 1, 0, 1, 1, 0, 1, 1, 0, 1, 1, 0, 1],
   [1, 0, 1, 1, 0, 1, 1, 0, 1, 1, 0, 1, 1, 0, 1, 1, 0, 1, 1, 0, 1, 1, 0, 1, 1, 0, 1, 1, 0, 1, 1, 0],
   [1, 1, 0, 1, 1, 0, 1, 1, 0, 1, 1, 0, 1, 1, 0, 1, 1, 0, 1, 1, 0, 1, 1, 0, 1, 1, 0, 1, 1, 0, 1, 1],
   [0, 0, 0, 0, 0, 0, 0, 0, 0, 0, 0, 0, 0, 0, 0, 0, 0, 0, 0, 0, 0, 0, 0, 0, 0, 0, 0, 0, 0, 0, 0, 0]]

def pcfichB (i j : Nat) : BitVec 8 := (pcfichTable.getD i []).getD j 0

/-- `generate_pcfich` for one antenna, up to the symbols `pcfich_d`; for an illegal number of symbols
`pcfich_bt` is left as it is. -/
def generatePcfich (num_pdcch_symbols : Nat) (amp : BitVec 16) (frame_parms : PdcchParms)
    (subframe : BitVec 8) (x1 : BitVec 32) (pcfich_bt : Nat → BitVec 8) (m : Nat) :
    BitVec 16 × BitVec 16 :=
  let pcfich_bt :=
    if 0 < num_pdcch_symbols ∧ num_pdcch_symbols < 4 then
      pcfichScrambling frame_parms subframe (pcfichB (num_pdcch_symbols - 1)) x1 pcfich_bt
    else pcfich_bt
  let gain_lin_QPSK := gainLinQpsk amp
  (soft gain_lin_QPSK (pcfich_bt (2 * m)), soft gain_lin_QPSK (pcfich_bt (2 * m + 1)))

/-- The soft values from the four groups of resource elements, without the pilots. -/
def pcfichDemapping (frame_parms : PdcchParms) (rxdataF_comp : Nat → BitVec 16 × BitVec 16) (j : Nat) :
    BitVec 16 :=
  let re := rxdataF_comp (4 * pcfichReg frame_parms (j / 8) + j % 8 / 2)
  if j % 2 = 0 then re.1 else re.2

def pcfichMetric (i : Nat) (pcfich_d : Nat → BitVec 16) : Nat → Int
  | 0 => 0
  | j + 1 => pcfichMetric i pcfich_d j +
      if pcfichB i j = 0 then (pcfich_d j).toInt else -(pcfich_d j).toInt

def pcfichDetection (pcfich_d : Nat → BitVec 16) : Nat × Int :=
  [0, 1, 2].foldl (fun (num_pdcch_symbols, old_metric) i =>
    let metric := pcfichMetric i pcfich_d 32
    if old_metric < metric then (1 + i, metric) else (num_pdcch_symbols, old_metric)) (3, -16384)

def rxPcfich (frame_parms : PdcchParms) (subframe : BitVec 8) (x1 : BitVec 32)
    (rxdataF_comp : Nat → BitVec 16 × BitVec 16) : Nat :=
  (pcfichDetection (pcfichUnscrambling frame_parms subframe x1
    (pcfichDemapping frame_parms rxdataF_comp))).1

/-! ## The groups of resource elements -/

section Groups
variable {frame_parms : PdcchParms}

theorem pcfichReg_eq {quad : Nat} (hquad : quad < 4) :
    pcfichReg frame_parms quad = (frame_parms.Nid_cell.toNat + quad * frame_parms.N_RB_DL.toNat / 2) %
      (2 * frame_parms.N_RB_DL.toNat) := by
  have hsum : ∀ a, (6 * (frame_parms.Nid_cell.toNat % (2 * frame_parms.N_RB_DL.toNat)) + a * 6) %
      (frame_parms.N_RB_DL.toNat * 12) / 6 =
        (frame_parms.Nid_cell.toNat + a) % (2 * frame_parms.N_RB_DL.toNat) := by
    intro a
    have hscale : 6 * (frame_parms.Nid_cell.toNat % (2 * frame_parms.N_RB_DL.toNat)) + a * 6 =
        6 * (frame_parms.Nid_cell.toNat % (2 * frame_parms.N_RB_DL.toNat) + a) := by omega
    have hmodulus : frame_parms.N_RB_DL.toNat * 12 = 6 * (2 * frame_parms.N_RB_DL.toNat) := by omega
    rw [hscale, hmodulus, Nat.mul_mod_mul_left, Nat.mul_div_cancel_left _ (by omega), Nat.mod_add_mod]
  interval_cases quad
  · rw [pcfichReg, Nat.mul_div_cancel_left _ (by omega), Nat.zero_mul, Nat.zero_div, Nat.add_zero]
  · rw [Nat.one_mul]
    exact hsum _
  · rw [Nat.mul_div_cancel_left _ (by omega)]
    exact hsum _
  · exact hsum _

end Groups

/-! ## The detection -/

/-- `1` for the bit `0`, and `-1` for the bit `1`. -/
def pcfichSign (i j : Nat) : Int := if pcfichB i j = 0 then 1 else -1

theorem pcfichMetric_eq_sum (i : Nat) (d : Nat → BitVec 16) (n : Nat) :
    pcfichMetric i d n = ∑ j ∈ Finset.range n, pcfichSign i j * (d j).toInt := by
  induction n with
  | zero => rfl
  | succ n ih =>
    rw [pcfichMetric, ih, Finset.sum_range_succ, pcfichSign]
    split
    · rw [Int.one_mul]
    · rw [Int.neg_one_mul]

def differing (i k : Nat) : Finset Nat := (Finset.range 32).filter fun j => pcfichB i j ≠ pcfichB k j

theorem differing_card : ∀ i < 3, ∀ k < 3, i ≠ k → 21 ≤ (differing i k).card := by
  decide

theorem pcfichB_bit : ∀ i < 3, ∀ j < 32, pcfichB i j = 0 ∨ pcfichB i j = 1 := by
  decide

theorem pcfichMetric_eq_add {i k : Nat} (hi : i < 3) (hk : k < 3) (d : Nat → BitVec 16) :
    pcfichMetric k d 32 =
      pcfichMetric i d 32 + 2 * ∑ j ∈ differing i k, pcfichSign k j * (d j).toInt := by
  rw [pcfichMetric_eq_sum, pcfichMetric_eq_sum, differing, Finset.mul_sum, Finset.sum_filter,
    ← Finset.sum_add_distrib]
  apply Finset.sum_congr rfl
  intro j hj
  have hlt := Finset.mem_range.mp hj
  rw [pcfichSign, pcfichSign]
  rcases pcfichB_bit i hi j hlt with h | h <;> rcases pcfichB_bit k hk j hlt with h' | h'
  all_goals rw [h, h']; simp; try omega

/-- The code word that correlates best is detected, if it correlates at all. -/
theorem pcfichDetection_eq {d : Nat → BitVec 16} {k : Nat} (hk : k < 3)
    (hpos : -16384 < pcfichMetric k d 32)
    (hbest : ∀ i < 3, i ≠ k → pcfichMetric i d 32 < pcfichMetric k d 32) :
    (pcfichDetection d).1 = k + 1 := by
  have h0 := hbest 0 (by decide)
  have h1 := hbest 1 (by decide)
  have h2 := hbest 2 (by decide)
  simp only [pcfichDetection, List.foldl_cons, List.foldl_nil]
  interval_cases k <;> split_ifs <;> first | rfl | omega

/-! ## What arrives -/

def symbolPart (symbols : Nat → BitVec 16 × BitVec 16) (j : Nat) : BitVec 16 :=
  if j % 2 = 0 then (symbols (j / 2)).1 else (symbols (j / 2)).2

/-- What of a received part agrees with the part that was sent. -/
def agreement (sent : Nat → BitVec 16 × BitVec 16) (received : Nat → BitVec 16) (j : Nat) : Int :=
  (symbolPart sent j).toInt.sign * (received j).toInt

/-- At most ten of the 32 parts are wrong, and none of them by more than the others are right. -/
structure FewWrong (sent : Nat → BitVec 16 × BitVec 16) (received : Nat → BitVec 16) (m : Int) :
    Prop where
  pos : 0 < m
  ne_intMin : ∀ j < 32, received j ≠ BitVec.intMin 16
  low : ∀ j < 32, -m ≤ agreement sent received j
  few : ((Finset.range 32).filter fun j => agreement sent received j < m).card ≤ 10

theorem FewWrong.sum_pos {sent : Nat → BitVec 16 × BitVec 16} {received : Nat → BitVec 16} {m : Int}
    (h : FewWrong sent received m) {D : Finset Nat} (hD : D ⊆ Finset.range 32) (hcard : 21 ≤ D.card) :
    0 < ∑ j ∈ D, agreement sent received j := by
  have hleast : ∀ j ∈ D, (if agreement sent received j < m then -m else m) ≤
      agreement sent received j := by
    intro j hj
    split
    · exact h.low j (Finset.mem_range.mp (hD hj))
    · omega
  have hsum := Finset.sum_le_sum hleast
  have hwrong : (D.filter fun j => agreement sent received j < m).card ≤ 10 :=
    (Finset.card_le_card (Finset.filter_subset_filter _ hD)).trans h.few
  have hsplit := Finset.card_filter_add_card_filter_not (s := D)
    (fun j => agreement sent received j < m)
  rw [Finset.sum_ite, Finset.sum_const, Finset.sum_const, nsmul_eq_mul, nsmul_eq_mul] at hsum
  have hpos := h.pos
  generalize (D.filter fun j => agreement sent received j < m).card = w at *
  generalize (D.filter fun j => ¬ agreement sent received j < m).card = r at *
  have hmore : 0 ≤ ((r : Int) - w - 1) * m := mul_nonneg (by omega) hpos.le
  linarith

section Channel
variable {frame_parms : PdcchParms} {subframe : BitVec 8}

variable (frame_parms) in
theorem pcfichInit_msb (hsubframe : subframe.toNat < 10) :
    (pcfichInit frame_parms subframe).getLsbD 31 = false := by
  apply getLsbD_31_of_lt
  have hcell := frame_parms.Nid_cell.isLt
  have hproduct : (2 * frame_parms.Nid_cell.toNat + 1) * (1 + subframe.toNat) ≤ 511 * 10 :=
    Nat.mul_le_mul (by omega) (by omega)
  rw [pcfichInit, BitVec.toNat_ofNat]
  exact (Nat.mod_le _ _).trans_lt (by omega)

/-- After the unscrambler the values agree with the code word as the parts do with what was sent. -/
theorem agreement_unscrambled (hsubframe : subframe.toNat < 10) {k : Nat} (hk : k < 3) {amp : BitVec 16}
    (hamp : 2 ≤ amp.toInt)
    (x1 x1' : BitVec 32) (pcfich_bt : Nat → BitVec 8) (received : Nat → BitVec 16) {j : Nat} (hj : j < 32)
    (hmin : received j ≠ BitVec.intMin 16) :
    pcfichSign k j * (pcfichUnscrambling frame_parms subframe x1' received j).toInt =
      agreement (generatePcfich (k + 1) amp frame_parms subframe x1 pcfich_bt) received j := by
  have hmsb := pcfichInit_msb frame_parms hsubframe
  have hgain := gainLinQpsk_pos hamp
  have hneg : (-gainLinQpsk amp).toInt = -(gainLinQpsk amp).toInt := by
    apply BitVec.toInt_neg_of_ne_intMin
    intro hmin
    rw [hmin] at hgain
    exact absurd hgain (by decide)
  have hnegated : (-received j).toInt = -(received j).toInt := BitVec.toInt_neg_of_ne_intMin hmin
  have hpart : symbolPart (generatePcfich (k + 1) amp frame_parms subframe x1 pcfich_bt) j =
      soft (gainLinQpsk amp) (scrambleBit ((BitVec.ofBool
        (gold ((pcfichInit frame_parms subframe).setWidth 31) j)).setWidth 32) (pcfichB k j)) := by
    have hlegal : 0 < k + 1 ∧ k + 1 < 4 := by omega
    rw [symbolPart, generatePcfich, if_pos hlegal, Nat.add_sub_cancel]
    split
    · have hindex : 2 * (j / 2) = j := by omega
      simp only [hindex]
      rw [pcfichScrambling, goldLoop_cell _ _ _ _ hmsb, if_pos hj]
    · have hindex : 2 * (j / 2) + 1 = j := by omega
      simp only [hindex]
      rw [pcfichScrambling, goldLoop_cell _ _ _ _ hmsb, if_pos hj]
  rw [agreement, hpart, pcfichUnscrambling, goldLoop_cell _ _ _ _ hmsb, if_pos hj, pcfichSign,
    scrambleBit_ofBool]
  generalize gold _ _ = c
  rcases pcfichB_bit k hk j hj with h | h <;> rw [h] <;> cases c <;>
    simp [soft, hneg, hnegated, Int.sign_eq_one_of_pos hgain, Int.sign_neg]

theorem rxPcfich_eq (hsubframe : subframe.toNat < 10)
    {num_pdcch_symbols : Nat} (hnum : 0 < num_pdcch_symbols ∧ num_pdcch_symbols < 4) {amp : BitVec 16}
    (hamp : 2 ≤ amp.toInt) (x1 x1' : BitVec 32) (pcfich_bt : Nat → BitVec 8)
    (rxdataF_comp : Nat → BitVec 16 × BitVec 16) {m : Int}
    (hchannel : FewWrong (generatePcfich num_pdcch_symbols amp frame_parms subframe x1 pcfich_bt)
      (pcfichDemapping frame_parms rxdataF_comp) m) :
    rxPcfich frame_parms subframe x1' rxdataF_comp = num_pdcch_symbols := by
  obtain ⟨k, rfl⟩ : ∃ k, num_pdcch_symbols = k + 1 := ⟨num_pdcch_symbols - 1, by omega⟩
  have hk : k < 3 := by omega
  have hsum : ∀ D ⊆ Finset.range 32, 21 ≤ D.card →
      0 < ∑ j ∈ D, pcfichSign k j * (pcfichUnscrambling frame_parms subframe x1'
        (pcfichDemapping frame_parms rxdataF_comp) j).toInt := by
    intro D hD hcard
    rw [Finset.sum_congr rfl fun j hj => agreement_unscrambled hsubframe hk hamp x1 x1' pcfich_bt
      _ (Finset.mem_range.mp (hD hj)) (hchannel.ne_intMin j (Finset.mem_range.mp (hD hj)))]
    exact hchannel.sum_pos hD hcard
  apply pcfichDetection_eq hk
  · have hall := hsum (Finset.range 32) (Finset.Subset.refl _) (by decide)
    rw [← pcfichMetric_eq_sum] at hall
    omega
  · intro i hi hne
    have hdiffer := hsum (differing i k) (Finset.filter_subset _ _) (differing_card i hi k hk hne)
    rw [pcfichMetric_eq_add hi hk]
    omega

end Channel

end PdmaXen.Lte
