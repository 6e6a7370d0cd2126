import PdmaXen.Lte.Phich

/-!
# The subcarriers of the control channel

Where `generate_dci_top` puts the symbols, and where `pdcch_extract_rbs_single` and `pdcch_demapping`
take them from.
-/

namespace PdmaXen.Lte
set_option autoImplicit false

/-! ## The source -/

structure MappingParms extends PdcchParms where
  ofdm_symbol_size : Nat
  first_carrier_offset : Nat
  nushift : Nat

namespace MappingParms
variable (frame_parms : MappingParms)

def reOffset : Nat → Nat
  | 0 => frame_parms.first_carrier_offset
  | kprime + 1 =>
    let re_offset := reOffset kprime + 1
    if re_offset = frame_parms.ofdm_symbol_size then 1 else re_offset

/-- The subcarriers of a resource block, or of half of it, that hold no pilots. -/
def dataCarriers (n : Nat) : List Nat :=
  let nushiftmod3 := frame_parms.nushift % 3
  (List.range n).filter fun i =>
    i ≠ nushiftmod3 ∧ i ≠ nushiftmod3 + 3 ∧ i ≠ nushiftmod3 + 6 ∧ i ≠ nushiftmod3 + 9

/-- The OFDM symbols of the frame before symbol `lprime` of the subframe. -/
def symbolIndex (subframe : BitVec 8) (lprime : Nat) : Nat :=
  let nsymb := if frame_parms.Ncp = 0 then 14 else 12
  lprime + subframe.toNat * nsymb

/-- The cell of the frame where symbol `i` of the quadruplet of a place is put. `symbol_offset` and
`tti_offset` have sixteen bits. -/
def mappedCell (subframe : BitVec 8) (kprime lprime i : Nat) : Nat :=
  let symbol_offset := frame_parms.ofdm_symbol_size * frame_parms.symbolIndex subframe lprime % 65536
  let tti_offset := (symbol_offset + frame_parms.reOffset kprime) % 65536
  if lprime = 0 ∨ lprime = 1 ∧ frame_parms.nb_antennas_tx = 4 then
    tti_offset + (frame_parms.dataCarriers 6).getD i 0
  else tti_offset + i

/-- The place is beyond the cells that sixteen bits count. -/
def Wraps (subframe : BitVec 8) (kprime lprime : Nat) : Prop :=
  65536 ≤ frame_parms.ofdm_symbol_size * frame_parms.symbolIndex subframe lprime +
    frame_parms.reOffset kprime

/-- The cell of the subframe that `rxF_ext[j]` of a symbol is taken from. With an even number of resource
blocks the pilots are not left out. -/
def extractedCell (symbol j : Nat) : Nat :=
  let middle := frame_parms.N_RB_DL.toNat / 2
  frame_parms.ofdm_symbol_size * symbol +
    if frame_parms.N_RB_DL.toNat % 2 = 0 then
      let rb := j / 12
      let i := j % 12
      if rb < middle then frame_parms.first_carrier_offset + 12 * rb + i else 1 + 12 * (rb - middle) + i
    else
      let rb := if symbol = 0 then j / 8 else j / 12
      let i := if symbol = 0 then (frame_parms.dataCarriers 12).getD (j % 8) 0 else j % 12
      if rb < middle then frame_parms.first_carrier_offset + 12 * rb + i
      else if rb = middle then
        if i < 6 then frame_parms.first_carrier_offset + 12 * rb + i else 1 + i - 6
      else 7 + 12 * (rb - (middle + 1)) + i

end MappingParms

/-- `re_offset0` of `pdcch_demapping` in the pass of `kprime`, whether the groups before are used or not. -/
def reOffset0 : Nat → Nat
  | 0 => 0
  | kprime + 1 => if kprime % 6 = 0 then reOffset0 kprime + 4 else reOffset0 kprime

/-- Which of the extracted values of the symbol `pdcch_demapping` takes. -/
def demappedIndex (kprime lprime i : Nat) : Nat :=
  if lprime = 0 then reOffset0 kprime + i else kprime + i

/-! ## The subcarriers -/

theorem reOffset0_eq (kprime : Nat) : reOffset0 kprime = 4 * ((kprime + 5) / 6) := by
  induction kprime with
  | zero => rfl
  | succ kprime ih =>
    rw [reOffset0, ih]
    split <;> omega

theorem mem_mappedRegs {frame_parms : PdcchParms} {num_pdcch_symbols : Nat} {mi : BitVec 8}
    {kprime lprime : Nat} (h : (kprime, lprime) ∈ mappedRegs frame_parms num_pdcch_symbols mi) :
    kprime < frame_parms.N_RB_DL.toNat * 12 ∧ lprime < num_pdcch_symbols ∧
      startsReg frame_parms kprime lprime = true := by
  obtain ⟨k, hk, hplace⟩ := List.mem_flatMap.mp (List.mem_of_mem_take h)
  obtain ⟨l, hl, heq⟩ := List.mem_map.mp hplace
  obtain ⟨rfl, rfl⟩ := Prod.mk.inj heq
  have hused := (List.mem_filter.mp hl).2
  rw [Bool.and_eq_true] at hused
  exact ⟨List.mem_range.mp hk, List.mem_range.mp (List.mem_filter.mp hl).1, hused.2⟩

section Cells
variable {frame_parms : MappingParms} (hodd : frame_parms.N_RB_DL.toNat % 2 = 1)
  (hfirst : frame_parms.first_carrier_offset + 6 * frame_parms.N_RB_DL.toNat =
    frame_parms.ofdm_symbol_size)
  (hsize : 12 * frame_parms.N_RB_DL.toNat < frame_parms.ofdm_symbol_size)

/-- The cell of a subcarrier in its symbol; the one in the middle of the spectrum is left out. -/
def MappingParms.carrier (frame_parms : MappingParms) (k : Nat) : Nat :=
  if k < 6 * frame_parms.N_RB_DL.toNat then frame_parms.first_carrier_offset + k
  else 1 + k - 6 * frame_parms.N_RB_DL.toNat

include hfirst hsize in
theorem MappingParms.reOffset_eq {kprime : Nat} (hk : kprime < frame_parms.N_RB_DL.toNat * 12) :
    frame_parms.reOffset kprime = frame_parms.carrier kprime := by
  induction kprime with
  | zero =>
    rw [reOffset, carrier, if_pos (by omega), Nat.add_zero]
  | succ kprime ih =>
    rw [reOffset, ih (by omega), carrier, carrier]
    split <;> split <;> split <;> omega

theorem MappingParms.dataCarriers_twelve (frame_parms : MappingParms) {half i : Nat} (hhalf : half < 2)
    (hi : i < 4) : (frame_parms.dataCarriers 12).getD (4 * half + i) 0 =
      6 * half + (frame_parms.dataCarriers 6).getD i 0 ∧
        i ≤ (frame_parms.dataCarriers 6).getD i 0 ∧ (frame_parms.dataCarriers 6).getD i 0 < 6 := by
  let data := fun v n => (List.range n).filter fun c => c ≠ v ∧ c ≠ v + 3 ∧ c ≠ v + 6 ∧ c ≠ v + 9
  have htable : ∀ v < 3, ∀ half < 2, ∀ i < 4,
      (data v 12).getD (4 * half + i) 0 = 6 * half + (data v 6).getD i 0 ∧
        i ≤ (data v 6).getD i 0 ∧ (data v 6).getD i 0 < 6 := by
    decide
  exact htable _ (Nat.mod_lt _ (by decide)) half hhalf i hi

include hodd in
theorem MappingParms.blockCell_eq (rb : Nat) {i : Nat} (hi : i < 12) :
    (if rb < frame_parms.N_RB_DL.toNat / 2 then frame_parms.first_carrier_offset + 12 * rb + i
      else if rb = frame_parms.N_RB_DL.toNat / 2 then
        if i < 6 then frame_parms.first_carrier_offset + 12 * rb + i else 1 + i - 6
      else 7 + 12 * (rb - (frame_parms.N_RB_DL.toNat / 2 + 1)) + i) =
        frame_parms.carrier (12 * rb + i) := by
  rw [carrier]
  split_ifs <;> omega

include hodd in
theorem MappingParms.extractedCell_later {symbol : Nat} (hsymbol : symbol ≠ 0) (j : Nat) :
    frame_parms.extractedCell symbol j =
      frame_parms.ofdm_symbol_size * symbol + frame_parms.carrier j := by
  have hodd' : ¬ frame_parms.N_RB_DL.toNat % 2 = 0 := by omega
  simp only [extractedCell, if_neg hodd', if_neg hsymbol]
  rw [blockCell_eq hodd (j / 12) (Nat.mod_lt j (by decide)), Nat.div_add_mod]

include hodd in
theorem MappingParms.extractedCell_first (reg : Nat) {i : Nat} (hi : i < 4) :
    frame_parms.extractedCell 0 (4 * reg + i) =
      frame_parms.carrier (6 * reg + (frame_parms.dataCarriers 6).getD i 0) := by
  have hplace : (4 * reg + i) % 8 = 4 * (reg % 2) + i := by omega
  have hblock : (4 * reg + i) / 8 = reg / 2 := by omega
  have hodd' : ¬ frame_parms.N_RB_DL.toNat % 2 = 0 := by omega
  obtain ⟨hdata, -, hlt⟩ := frame_parms.dataCarriers_twelve (Nat.mod_lt reg Nat.two_pos) hi
  simp only [extractedCell, if_neg hodd', if_true, hplace, hblock, hdata]
  rw [blockCell_eq hodd (reg / 2) (by omega), Nat.mul_zero, Nat.zero_add]
  congr 1
  omega

theorem MappingParms.extractedCell_even (heven : frame_parms.N_RB_DL.toNat % 2 = 0) (symbol j : Nat) :
    frame_parms.extractedCell symbol j =
      frame_parms.ofdm_symbol_size * symbol + frame_parms.carrier j := by
  simp only [extractedCell, if_pos heven, carrier]
  congr 1
  split_ifs <;> omega

end Cells

theorem MappingParms.carrier_lt {frame_parms : MappingParms}
    (hfirst : frame_parms.first_carrier_offset + 6 * frame_parms.N_RB_DL.toNat =
      frame_parms.ofdm_symbol_size)
    (hsize : 12 * frame_parms.N_RB_DL.toNat < frame_parms.ofdm_symbol_size) {k : Nat}
    (hk : k < frame_parms.N_RB_DL.toNat * 12) : frame_parms.carrier k < frame_parms.ofdm_symbol_size := by
  rw [carrier]
  split <;> omega

theorem MappingParms.mappedCell_eq (frame_parms : MappingParms) (subframe : BitVec 8)
    (kprime lprime i : Nat) : frame_parms.mappedCell subframe kprime lprime i =
      (frame_parms.ofdm_symbol_size * frame_parms.symbolIndex subframe lprime +
        frame_parms.reOffset kprime) % 65536 +
        if lprime = 0 ∨ lprime = 1 ∧ frame_parms.nb_antennas_tx = 4 then
          (frame_parms.dataCarriers 6).getD i 0
        else i := by
  simp only [mappedCell, Nat.mod_add_mod]
  split <;> rfl

theorem MappingParms.symbolIndex_eq (frame_parms : MappingParms) (subframe : BitVec 8) (lprime : Nat) :
    frame_parms.ofdm_symbol_size * frame_parms.symbolIndex subframe lprime =
      frame_parms.ofdm_symbol_size * frame_parms.symbolIndex subframe 0 +
        frame_parms.ofdm_symbol_size * lprime := by
  rw [← Nat.mul_add, symbolIndex, symbolIndex, Nat.zero_add, Nat.add_comm]

theorem mod_or_wrap (x : Nat) : x < 65536 ∧ x % 65536 = x ∨ 65536 ≤ x ∧ x % 65536 + 65536 ≤ x := by
  omega

theorem MappingParms.wraps_iff {frame_parms : MappingParms} (hNcp : frame_parms.Ncp = 0)
    {subframe : BitVec 8} (hsubframe : subframe.toNat < 10) {kprime lprime : Nat} (hlprime : lprime < 3)
    (hoffset : frame_parms.reOffset kprime < frame_parms.ofdm_symbol_size) :
    (frame_parms.ofdm_symbol_size = 128 → ¬ frame_parms.Wraps subframe kprime lprime) ∧
    (frame_parms.ofdm_symbol_size = 512 →
      (frame_parms.Wraps subframe kprime lprime ↔ subframe = 9 ∧ lprime = 2)) ∧
    (frame_parms.ofdm_symbol_size = 1024 →
      (frame_parms.Wraps subframe kprime lprime ↔ 5 ≤ subframe.toNat)) ∧
    (frame_parms.ofdm_symbol_size = 2048 →
      (frame_parms.Wraps subframe kprime lprime ↔ 3 ≤ subframe.toNat)) := by
  have hnine : subframe = 9 ↔ subframe.toNat = 9 := BitVec.toNat_inj.symm
  simp only [Wraps, symbolIndex, if_pos hNcp, hnine]
  refine ⟨?_, ?_, ?_, ?_⟩
  all_goals
    intro hsize
    rw [hsize] at hoffset ⊢
    omega

/-- Where the terminal takes the symbols of the control channel from. With an odd number of resource
blocks this is where they were put, but for half of the quadruplet around the middle of the spectrum, in
the symbols without pilots: there `tti_offset + i` runs into the next symbol. With an even number it is
not in the first symbol, where the pilots are counted by the one side only. Places whose offset wraps go
to an earlier subframe. -/
theorem pdcch_mapping_agrees {frame_parms : MappingParms}
    (hfirst : frame_parms.first_carrier_offset + 6 * frame_parms.N_RB_DL.toNat =
      frame_parms.ofdm_symbol_size)
    (hsize : 12 * frame_parms.N_RB_DL.toNat < frame_parms.ofdm_symbol_size)
    (hlegal : frame_parms.ofdm_symbol_size ≤ 2048) (hant : frame_parms.nb_antennas_tx ≠ 4)
    {num_pdcch_symbols : Nat} (hnum : num_pdcch_symbols < 4) {mi subframe : BitVec 8}
    (hsubframe : subframe.toNat < 10) {kprime lprime i : Nat}
    (hplace : (kprime, lprime) ∈ mappedRegs frame_parms.toPdcchParms num_pdcch_symbols mi) (hi : i < 4) :
    (frame_parms.N_RB_DL.toNat % 2 = 1 →
      (frame_parms.ofdm_symbol_size * frame_parms.symbolIndex subframe 0 +
          frame_parms.extractedCell lprime (demappedIndex kprime lprime i) =
            frame_parms.mappedCell subframe kprime lprime i ↔
        ¬ frame_parms.Wraps subframe kprime lprime ∧
          ¬ (0 < lprime ∧ kprime + 2 = 6 * frame_parms.N_RB_DL.toNat ∧ 2 ≤ i)) ∧
      (¬ frame_parms.Wraps subframe kprime lprime →
        0 < lprime ∧ kprime + 2 = 6 * frame_parms.N_RB_DL.toNat ∧ 2 ≤ i →
          frame_parms.mappedCell subframe kprime lprime i =
            frame_parms.ofdm_symbol_size * frame_parms.symbolIndex subframe (lprime + 1) + (i - 2))) ∧
    (frame_parms.N_RB_DL.toNat % 2 = 0 →
      (frame_parms.ofdm_symbol_size * frame_parms.symbolIndex subframe 0 +
          frame_parms.extractedCell lprime (demappedIndex kprime lprime i) =
            frame_parms.mappedCell subframe kprime lprime i ↔
        ¬ frame_parms.Wraps subframe kprime lprime ∧
          (0 < lprime ∨ kprime = 0 ∧ (frame_parms.dataCarriers 6).getD i 0 = i))) ∧
    (frame_parms.Ncp = 0 →
      (frame_parms.ofdm_symbol_size = 128 → ¬ frame_parms.Wraps subframe kprime lprime) ∧
      (frame_parms.ofdm_symbol_size = 512 →
        (frame_parms.Wraps subframe kprime lprime ↔ subframe = 9 ∧ lprime = 2)) ∧
      (frame_parms.ofdm_symbol_size = 1024 →
        (frame_parms.Wraps subframe kprime lprime ↔ 5 ≤ subframe.toNat)) ∧
      (frame_parms.ofdm_symbol_size = 2048 →
        (frame_parms.Wraps subframe kprime lprime ↔ 3 ≤ subframe.toNat))) := by
  obtain ⟨hk, hlprime, hstart⟩ := mem_mappedRegs hplace
  have hoffset := MappingParms.reOffset_eq hfirst hsize hk
  have hcarrier := MappingParms.carrier_lt hfirst hsize hk
  have hindex := frame_parms.symbolIndex_eq subframe
  have hshort : frame_parms.ofdm_symbol_size * lprime ≤ 2048 * 2 :=
    Nat.mul_le_mul hlegal (by omega)
  rw [← and_assoc]
  refine ⟨?_, fun hNcp => MappingParms.wraps_iff hNcp hsubframe (by omega) (hoffset ▸ hcarrier)⟩
  have hput := frame_parms.mappedCell_eq subframe kprime lprime i
  simp only [MappingParms.Wraps]
  rw [hindex lprime, hoffset] at hput ⊢
  cases lprime with
  | zero =>
    rw [startsReg_first, decide_eq_true_iff] at hstart
    have hreg : (kprime + 5) / 6 = kprime / 6 := by omega
    obtain ⟨-, hle, hlt⟩ := frame_parms.dataCarriers_twelve (Nat.zero_lt_two) hi
    rw [if_pos (Or.inl rfl), Nat.mul_zero, Nat.add_zero] at hput
    rw [hput, demappedIndex, if_pos rfl, reOffset0_eq, hreg, Nat.mul_zero, Nat.add_zero]
    have hwrap := mod_or_wrap (frame_parms.ofdm_symbol_size * frame_parms.symbolIndex subframe 0 +
      frame_parms.carrier kprime)
    generalize (frame_parms.ofdm_symbol_size * frame_parms.symbolIndex subframe 0 +
      frame_parms.carrier kprime) % 65536 = tti_offset at hwrap ⊢
    generalize frame_parms.ofdm_symbol_size * frame_parms.symbolIndex subframe 0 = start at hwrap ⊢
    constructor
    · intro hodd
      rw [MappingParms.extractedCell_first hodd _ hi]
      simp only [MappingParms.carrier] at hcarrier hwrap ⊢
      split_ifs at hcarrier hwrap ⊢ <;> omega
    · intro heven
      rw [MappingParms.extractedCell_even heven, Nat.mul_zero, Nat.zero_add]
      simp only [MappingParms.carrier] at hcarrier hwrap ⊢
      split_ifs at hcarrier hwrap ⊢ <;> omega
  | succ lprime =>
    rw [startsReg_later hant, decide_eq_true_iff] at hstart
    have hpos : lprime + 1 ≠ 0 := lprime.succ_ne_zero
    have hpilots : ¬ (lprime + 1 = 0 ∨ lprime + 1 = 1 ∧ frame_parms.nb_antennas_tx = 4) := by
      rintro (h | h)
      · exact hpos h
      · exact hant h.2
    rw [if_neg hpilots] at hput
    rw [hput, demappedIndex, if_neg hpos, hindex (lprime + 1 + 1), Nat.mul_add _ (lprime + 1), Nat.mul_one]
    have hwrap := mod_or_wrap (frame_parms.ofdm_symbol_size * frame_parms.symbolIndex subframe 0 +
      frame_parms.ofdm_symbol_size * (lprime + 1) + frame_parms.carrier kprime)
    generalize (frame_parms.ofdm_symbol_size * frame_parms.symbolIndex subframe 0 +
      frame_parms.ofdm_symbol_size * (lprime + 1) + frame_parms.carrier kprime) % 65536 = tti_offset
      at hwrap ⊢
    generalize frame_parms.ofdm_symbol_size * frame_parms.symbolIndex subframe 0 = start at hwrap ⊢
    constructor
    · intro hodd
      rw [MappingParms.extractedCell_later hodd hpos]
      simp only [MappingParms.carrier] at hcarrier hwrap ⊢
      split_ifs at hcarrier hwrap ⊢ <;> omega
    · intro heven
      rw [MappingParms.extractedCell_even heven]
      simp only [MappingParms.carrier] at hcarrier hwrap ⊢
      split_ifs at hcarrier hwrap ⊢ <;> omega

def mapping5MHz : MappingParms where
  toPdcchParms := pdcch5MHz
  ofdm_symbol_size := 512
  first_carrier_offset := 362
  nushift := 1

theorem pdcch_mapping_agrees_5MHz :
    mapping5MHz.ofdm_symbol_size * mapping5MHz.symbolIndex 9 0 +
        mapping5MHz.extractedCell 1 (demappedIndex 148 1 1) = mapping5MHz.mappedCell 9 148 1 1 ∧
      mapping5MHz.mappedCell 9 148 1 2 =
        mapping5MHz.ofdm_symbol_size * mapping5MHz.symbolIndex 9 2 ∧
      mapping5MHz.ofdm_symbol_size * mapping5MHz.symbolIndex 9 0 +
        mapping5MHz.extractedCell 2 (demappedIndex 148 2 1) ≠ mapping5MHz.mappedCell 9 148 2 1 := by
  have hsecond : (148, 1) ∈ mappedRegs mapping5MHz.toPdcchParms 3 1 := by decide +kernel
  have hthird : (148, 2) ∈ mappedRegs mapping5MHz.toPdcchParms 3 1 := by decide +kernel
  have hfirst : mapping5MHz.first_carrier_offset + 6 * mapping5MHz.N_RB_DL.toNat =
      mapping5MHz.ofdm_symbol_size := by decide
  have hodd : mapping5MHz.N_RB_DL.toNat % 2 = 1 := by decide
  have hsubframe : (9 : BitVec 8).toNat < 10 := by decide
  obtain ⟨hkept, -, hwraps⟩ := pdcch_mapping_agrees hfirst (by decide) (by decide) (by decide)
    (by decide) hsubframe hsecond (show 1 < 4 by decide)
  obtain ⟨hmiddle, -⟩ := pdcch_mapping_agrees hfirst (by decide) (by decide) (by decide) (by decide)
    hsubframe hsecond (show 2 < 4 by decide)
  obtain ⟨hlost, -, hwraps'⟩ := pdcch_mapping_agrees hfirst (by decide) (by decide) (by decide)
    (by decide) hsubframe hthird (show 1 < 4 by decide)
  have hstays : ¬ mapping5MHz.Wraps 9 148 1 := by
    rw [(hwraps rfl).2.1 rfl]
    decide
  have hturns : mapping5MHz.Wraps 9 148 2 := ((hwraps' rfl).2.1 rfl).mpr (by decide)
  exact ⟨(hkept hodd).1.mpr ⟨hstays, by decide⟩, (hmiddle hodd).2 hstays (by decide),
    fun h => ((hlost hodd).1.mp h).1 hturns⟩

end PdmaXen.Lte
