import PdmaXen.Lte.RateMatching
import PdmaXen.Lte.Viterbi

/-!
# The downlink control information

`dci.cpp`: how a DCI is coded, matched to the resources of its aggregation level and decoded, and
the search of the terminal for the DCIs that are meant for it.
-/

namespace PdmaXen.Lte
set_option autoImplicit false

open Selection

/-! ## The source -/

def memset (m : Nat → BitVec 8) (v : BitVec 8) (n i : Nat) : BitVec 8 := if i < n then v else m i

/-- `d` and `w` are static arrays. -/
def dciEncoding (a : Nat → BitVec 8) (A : Nat) (E : BitVec 16) (e : Nat → BitVec 8) (rnti : BitVec 16)
    (d w : Nat → BitVec 8) : Option (Nat → BitVec 8) := do
  let D := (A + 16) % 256
  let d ← ccodelteEncode A .dci a d rnti
  let (RCC, w) := subBlockInterleavingCc D (codedBlock d) w
  let (_, e) ← lteRateMatchingCc RCC E w e
  return e

def dciFlip (dci : Nat → BitVec 8) (DCI_LENGTH i : Nat) : BitVec 8 :=
  if DCI_LENGTH ≤ 32 then dci (3 - i) else dci (7 - i)

def codedDciBits (aggregation_level : Nat) : BitVec 16 := BitVec.ofNat 16 (72 * 2 ^ aggregation_level)

def generateDci0 (dci e : Nat → BitVec 8) (DCI_LENGTH aggregation_level : Nat) (rnti : BitVec 16)
    (d w : Nat → BitVec 8) : Option (Nat → BitVec 8) :=
  if 3 < aggregation_level then none
  else dciEncoding (dciFlip dci DCI_LENGTH) DCI_LENGTH (codedDciBits aggregation_level) e rnti d w

structure DciBuffers where
  dummy_w_rx : Nat → BitVec 8
  w_rx : Nat → BitVec 8
  d_rx : Int → BitVec 8
  TB : Nat → StateBytes

/-- For an illegal level `decoded_output` is left as it is. -/
def dciDecoding (DCI_LENGTH aggregation_level : Nat) (e decoded_output : Nat → BitVec 8)
    (buffers : DciBuffers) : Option (Nat → BitVec 8) :=
  if 3 < aggregation_level then some decoded_output
  else do
    let D := DCI_LENGTH + 16 + 64
    let dummy_w_rx := memset buffers.dummy_w_rx 0 (3 * D)
    let (RCC, dummy_w_rx) := generateDummyWCc (DCI_LENGTH + 16) dummy_w_rx
    let w_rx ← lteRateMatchingCcRx RCC (codedDciBits aggregation_level) buffers.w_rx dummy_w_rx e
    let d_rx := subBlockDeinterleavingCc (DCI_LENGTH + 16) buffers.d_rx w_rx
    let decoded_output := memset decoded_output 0 (2 + (16 + DCI_LENGTH) / 8)
    phyViterbiLteSse2 (fun i => d_rx i) decoded_output (16 + DCI_LENGTH) buffers.TB

/-- The two octets of the checksum, the first of them in the higher place. -/
def extractCrc (dci : Nat → BitVec 8) (dci_len : Nat) : BitVec 16 :=
  let n := dci_len % 8
  if 0 < n then
    ((dci (dci_len / 8) <<< n) ||| (dci (1 + dci_len / 8) >>> (8 - n))) ++
      ((dci (1 + dci_len / 8) <<< n) ||| (dci (2 + dci_len / 8) >>> (8 - n)))
  else dci (dci_len / 8) ++ dci (1 + dci_len / 8)

/-- `crc` of the search: the RNTI that the checksum is scrambled with. -/
def decodedRnti (dci_decoded_output : Nat → BitVec 8) (sizeof_bits : Nat) : BitVec 16 :=
  (crc16 dci_decoded_output sizeof_bits >>> 16).setWidth 16 ^^^ extractCrc dci_decoded_output sizeof_bits

/-! ## The checksum -/

theorem crc16_congr {m m' : Nat → BitVec 8} {n : Nat} (h : ∀ p < n, bitAt m p = bitAt m' p) :
    crc16 m n = crc16 m' n := by
  have hbits : bitsOf m n = bitsOf m' n := by
    apply List.map_congr_left
    intro p hp
    exact h p (List.mem_range.mp hp)
  have hrun := Checksum.run_eq_divide .crc16
  exact (hrun m n).trans ((congrArg _ hbits).trans (hrun m' n).symm)

theorem getMsbD_across (a b : BitVec 8) {n i : Nat} (hn : n ≤ 8) (hi : i < 8) :
    ((a <<< n) ||| (b >>> (8 - n))).getMsbD i =
      if i + n < 8 then a.getMsbD (i + n) else b.getMsbD (i + n - 8) := by
  rw [BitVec.getMsbD_or, BitVec.getMsbD_shiftLeft, BitVec.getMsbD_ushiftRight, decide_eq_true hi,
    Bool.true_and]
  split
  · rw [decide_eq_true (by omega : i < 8 - n), Bool.not_true, Bool.false_and, Bool.or_false]
  · have hout : a.getMsbD (i + n) = false := BitVec.getMsbD_of_ge _ _ (by omega)
    have hindex : i - (8 - n) = i + n - 8 := by omega
    rw [decide_eq_false (by omega : ¬ i < 8 - n), hout, Bool.false_or, Bool.not_false, Bool.true_and,
      hindex]

theorem getMsbD_extractCrc (dci : Nat → BitVec 8) (dci_len : Nat) {i : Nat} (hi : i < 16) :
    (extractCrc dci dci_len).getMsbD i = bitAt dci (dci_len + i) := by
  rw [extractCrc, bitAt]
  split
  · rename_i hn
    rw [BitVec.getMsbD_append]
    rcases Nat.lt_or_ge i 8 with hlt | hge
    · rw [if_neg (by omega), getMsbD_across _ _ (by omega) hlt]
      split
      · congr 2 <;> omega
      · congr 2 <;> omega
    · rw [if_pos hge, getMsbD_across _ _ (by omega) (by omega)]
      split
      · congr 2 <;> omega
      · congr 2 <;> omega
  · rw [BitVec.getMsbD_append]
    split
    · congr 2 <;> omega
    · congr 2 <;> omega

/-- A block that was decoded rightly shows the RNTI that it was coded with. -/
theorem decodedRnti_eq {a out : Nat → BitVec 8} {A : Nat} {rnti : BitVec 16}
    (hout : ∀ p < A + 16, bitAt out p = codedBits A a (codedCrc A .dci a rnti) p) :
    decodedRnti out A = rnti := by
  have hmessage : ∀ p < A, bitAt out p = bitAt a p := by
    intro p hp
    rw [hout p (by omega), codedBits, if_pos hp]
  apply BitVec.eq_of_getMsbD_eq
  intro i hi
  have hcrc : bitAt out (A + i) = (crc16 a A ^^^ (rnti.setWidth 32 <<< 16)).getMsbD i := by
    rw [hout (A + i) (by omega), codedBits, if_neg (by omega), Nat.add_sub_cancel_left]
    rfl
  have hhigh : ∀ x : BitVec 32, ((x >>> 16).setWidth 16).getMsbD i = x.getMsbD i := by
    intro x
    have hindex : 16 + (16 - 1 - i) = 32 - 1 - i := by omega
    rw [BitVec.getMsbD, BitVec.getMsbD, BitVec.getLsbD_setWidth, BitVec.getLsbD_ushiftRight, hindex,
      decide_eq_true hi, decide_eq_true (by omega : i < 32), decide_eq_true (by omega : 16 - 1 - i < 16),
      Bool.true_and, Bool.true_and]
  have hrnti : (rnti.setWidth 32 <<< 16).getMsbD i = rnti.getMsbD i := by
    have hindex : 32 - 1 - (i + 16) = 16 - 1 - i := by omega
    rw [BitVec.getMsbD_shiftLeft, BitVec.getMsbD, BitVec.getMsbD, BitVec.getLsbD_setWidth, hindex,
      decide_eq_true hi, decide_eq_true (by omega : i + 16 < 32),
      decide_eq_true (by omega : 16 - 1 - i < 32), Bool.true_and]
  rw [decodedRnti, crc16_congr hmessage, BitVec.getMsbD_xor, getMsbD_extractCrc out A hi, hcrc, hhigh,
    BitVec.getMsbD_xor, hrnti, ← Bool.xor_assoc, Bool.xor_self, Bool.false_xor]

/-! ## The chain -/

theorem rescale_sign {ks : List Nat} {soft : Nat → BitVec 8} {v : BitVec 8} (hne : ks ≠ [])
    (hlength : ks.length ≤ 255) (hsign : ∀ k ∈ ks, 0 < bitSign v * (soft k).toInt) :
    -8 ≤ (rescale (ks.foldl (fun a k => a + (soft k).signExtend 16) 0)).toInt ∧
      (rescale (ks.foldl (fun a k => a + (soft k).signExtend 16) 0)).toInt ≤ 7 ∧
        0 < bitSign v * (rescale (ks.foldl (fun a k => a + (soft k).signExtend 16) 0)).toInt := by
  have hbound : ∀ x ∈ ks.map fun k => (soft k).toInt.natAbs, x ≤ 128 := by
    intro x hx
    obtain ⟨k, -, rfl⟩ := List.mem_map.mp hx
    have hlow := BitVec.le_toInt (soft k)
    have hhigh := BitVec.toInt_lt (x := soft k)
    omega
  have hsum := List.sum_le_card_nsmul _ 128 hbound
  rw [List.length_map, smul_eq_mul] at hsum
  have hzero : (0 : BitVec 16).toInt = 0 := rfl
  have hexact := softSum_toInt accumulate_of_le soft ks 0 (by
    rw [hzero, Int.natAbs_zero]
    omega)
  rw [hzero, Int.zero_add] at hexact
  have hpos : 0 < bitSign v * (ks.map fun k => (soft k).toInt).sum := by
    rw [← List.sum_map_mul_left]
    apply List.sum_pos
    · intro x hx
      obtain ⟨k, hk, rfl⟩ := List.mem_map.mp hx
      exact hsign k hk
    · simpa using hne
  rw [rescale_toInt, hexact]
  generalize (ks.map fun k => (soft k).toInt).sum = total at hpos
  refine ⟨by omega, by omega, ?_⟩
  rcases ite_eq_or_eq (v.getLsbD 0 = true) (1 : Int) (-1) with hv | hv
  · rw [bitSign, hv] at hpos ⊢
    omega
  · rw [bitSign, hv] at hpos ⊢
    omega

section Chain
variable {A aggregation_level : Nat}

/-- The arrays are for DCIs of 45 bits. -/
structure LegalDci (A aggregation_level : Nat) : Prop where
  size : A ≤ 45
  level : aggregation_level ≤ 3

structure Fits (A aggregation_level : Nat) : Prop extends LegalDci A aggregation_level where
  room : 3 * (A + 16) ≤ 72 * 2 ^ aggregation_level

theorem LegalDci.bits (h : LegalDci A aggregation_level) :
    (codedDciBits aggregation_level).toNat = 72 * 2 ^ aggregation_level ∧
      72 * 2 ^ aggregation_level ≤ 576 := by
  have hlevel := h.level
  rw [codedDciBits, BitVec.toNat_ofNat]
  interval_cases aggregation_level <;> simp

theorem LegalDci.ring (h : LegalDci A aggregation_level) : 3 * cellCount (A + 16) < 65536 := by
  have hadd := dummyCount_add (A + 16)
  have hlt := dummyCount_lt (A + 16)
  have hsize := h.size
  omega

theorem nullsAt_encoded {u : Nat → Bool} {N : Nat} {outPtr : Nat → BitVec 8} {st : EncoderState}
    (h : EncodedTo u N outPtr N st) : NullsAt st.output N 0 := by
  intro n hn o ho
  rw [h.coded n hn o ho]
  refine ⟨fun hnull => ?_, fun hfiller => absurd hfiller.2 (Nat.not_lt_zero n)⟩
  cases hcode : ringCode u N n o <;> rw [hcode] at hnull <;> exact absurd hnull (by decide)

def clearedMarks (A : Nat) (dummy_w_rx : Nat → BitVec 8) : Nat → BitVec 8 :=
  (generateDummyWCc (A + 16) (memset dummy_w_rx 0 (3 * (A + 16 + 64)))).2

theorem clearedMarks_ring {d : Nat → BitVec 8} (hd : NullsAt d (A + 16) 0) (w dummy_w_rx : Nat → BitVec 8) :
    RingAgrees (A + 16) (3 * (A + 16)) (clearedMarks A dummy_w_rx)
      (subBlockInterleavingCc (A + 16) (codedBlock d) w).2 := by
  apply ringAgrees_cc hd
  intro j hj
  have hadd := dummyCount_add (A + 16)
  have hlt := dummyCount_lt (A + 16)
  rw [memset, if_pos (by omega)]
  exact zero_ne_null

theorem dciEncoding_spec (hfits : Fits A aggregation_level) (a e d w : Nat → BitVec 8)
    (rnti : BitVec 16) : ∃ st e',
      dciEncoding a A (codedDciBits aggregation_level) e rnti d w = some e' ∧
      EncodedTo (codedBits A a (codedCrc A .dci a rnti)) (A + 16) d (A + 16) st ∧
      ∀ dummy_w_rx, MatchedCc (A + 16) (72 * 2 ^ aggregation_level) st.output
        (clearedMarks A dummy_w_rx) e e' := by
  have hsize := hfits.size
  have hD : (A + 16) % 256 = A + 16 := by omega
  have htailed : AddCrc.dci.Tailed A := ⟨by omega, fun h => absurd h (by decide)⟩
  obtain ⟨st, hst, hencoded⟩ := ccodelteEncode_run htailed a d rnti
  have hmatched := fun dummy_w_rx => lteRateMatchingCc_matched (by omega) hfits.ring
    (clearedMarks_ring (nullsAt_encoded hencoded) w dummy_w_rx) (codedDciBits aggregation_level) e
  rw [hfits.bits.1] at hmatched
  obtain ⟨e', he, -⟩ := hmatched fun _ => 0
  refine ⟨st, e', ?_, hencoded, ?_⟩
  · have hrows : (subBlockInterleavingCc (A + 16) (codedBlock st.output) w).1 = rowCount (A + 16) := rfl
    simp only [dciEncoding, hst, Option.bind_eq_bind, Option.bind_some, hD, hrows, he, Option.pure_def]
  · intro dummy_w_rx
    obtain ⟨e'', he', hmatched'⟩ := hmatched dummy_w_rx
    rw [he, Option.some.injEq, Prod.mk.injEq] at he'
    rw [he'.2]
    exact hmatched'

theorem copies_bounds (hfits : Fits A aggregation_level) {marks w : Nat → BitVec 8}
    (hring : RingAgrees (A + 16) (3 * (A + 16)) marks w) {n o : Nat} (hn : n < A + 16) (ho : o < 3)
    (hcell : w (Coding.cc.bufferCell (A + 16) n o) ≠ LTE_NULL) :
    1 ≤ (bitsOfCell marks (3 * cellCount (A + 16)) 0 (72 * 2 ^ aggregation_level)
      (Coding.cc.bufferCell (A + 16) n o)).length ∧
    (bitsOfCell marks (3 * cellCount (A + 16)) 0 (72 * 2 ^ aggregation_level)
      (Coding.cc.bufferCell (A + 16) n o)).length ≤ 255 := by
  have hbuffer := bufferCell_lt .cc hn ho
  have hlive : ∃ i < 3 * cellCount (A + 16), isNull w i = false :=
    ⟨_, hbuffer, isNull_eq_false.mpr hcell⟩
  obtain ⟨v, hv, hlength⟩ := visits_length 0 hlive hbuffer (isNull_eq_false.mpr hcell)
    (72 * 2 ^ aggregation_level)
  rw [hring.bits] at hv hlength
  have hroom : 1 ≤ 72 * 2 ^ aggregation_level / (3 * (A + 16)) :=
    (Nat.one_le_div_iff (by omega)).mpr hfits.room
  have hfew : 72 * 2 ^ aggregation_level / (3 * (A + 16)) ≤ 576 / 48 :=
    Nat.div_le_div hfits.bits.2 (by omega) (by omega)
  rw [bitsOfCell, bitCell_congr hring (by omega)]
  have hvisits : (visits (bitCell w (3 * cellCount (A + 16)) 0) (72 * 2 ^ aggregation_level)
      (Coding.cc.bufferCell (A + 16) n o)).length = _ := hlength
  split at hvisits <;> omega

theorem dciDecoding_eq (hlegal : LegalDci A aggregation_level) (soft decoded_output : Nat → BitVec 8)
    (buffers : DciBuffers) : ∃ d_rx : Int → BitVec 8,
      dciDecoding A aggregation_level soft decoded_output buffers = some (viterbiDecoded (fun i => d_rx i)
        (memset decoded_output 0 (2 + (16 + A) / 8)) (16 + A) buffers.TB) ∧
      ∀ n < A + 16, ∀ o : Nat, o < 3 → d_rx (3 * n + o) =
        rescale ((bitsOfCell (clearedMarks A buffers.dummy_w_rx) (3 * cellCount (A + 16)) 0
          (72 * 2 ^ aggregation_level) (Coding.cc.bufferCell (A + 16) n o)).foldl
            (fun a k => a + (soft k).signExtend 16) 0) := by
  have hd : NullsAt (fun _ => 0) (A + 16) 0 := by
    intro n _ o _
    exact ⟨fun h => absurd h zero_ne_null, fun h => absurd h.2 (Nat.not_lt_zero n)⟩
  have hlive := (clearedMarks_ring hd (fun _ => 0) buffers.dummy_w_rx).marks_live (by omega)
  obtain ⟨w', hrx, hcells⟩ := lteRateMatchingCcRx_cells hlegal.ring hlive
    (codedDciBits aggregation_level) buffers.w_rx soft buffers.d_rx
  rw [hlegal.bits.1] at hcells
  refine ⟨_, ?_, hcells⟩
  have hlevel := hlegal.level
  have hrows : (generateDummyWCc (A + 16) (memset buffers.dummy_w_rx 0 (3 * (A + 16 + 64)))).1 =
      rowCount (A + 16) := rfl
  rw [dciDecoding, if_neg (by omega)]
  rw [clearedMarks] at hrx
  simp only [hrows, hrx, Option.bind_eq_bind, Option.bind_some]
  have hsize := hlegal.size
  exact if_pos (by omega)

/-- Soft values that have the signs of the bits that were sent are decoded to the message and its
checksum; the decoder may look at fewer bits than were sent. -/
theorem dciDecoding_spec {L : Nat} (hL : Fits A L) (hle : L ≤ aggregation_level)
    {a d e e' soft : Nat → BitVec 8} {rnti : BitVec 16} {st : EncoderState} (buffers : DciBuffers)
    (hencoded : EncodedTo (codedBits A a (codedCrc A .dci a rnti)) (A + 16) d (A + 16) st)
    (hmatched : MatchedCc (A + 16) (72 * 2 ^ aggregation_level) st.output
      (clearedMarks A buffers.dummy_w_rx) e e')
    (hsign : ∀ k < 72 * 2 ^ L, 0 < bitSign (e' k) * (soft k).toInt) (decoded_output : Nat → BitVec 8) :
    ∃ out, dciDecoding A L soft decoded_output buffers = some out ∧
      ∀ p < A + 16, bitAt out p = codedBits A a (codedCrc A .dci a rnti) p := by
  obtain ⟨d_rx, hrun, hcells⟩ := dciDecoding_eq hL.toLegalDci soft decoded_output buffers
  have hring := clearedMarks_ring (nullsAt_encoded hencoded) (fun _ => 0) buffers.dummy_w_rx
  have hcell := fun n o => subBlockInterleavingCc_cell (codedBlock st.output) (fun _ => 0) (D := A + 16)
    (n := n) (o := o)
  generalize (subBlockInterleavingCc (A + 16) (codedBlock st.output) fun _ => 0).2 = tx at hring hcell
  have hfewer : 72 * 2 ^ L ≤ 72 * 2 ^ aggregation_level :=
    Nat.mul_le_mul_left 72 (Nat.pow_le_pow_right Nat.two_pos hle)
  have hsoft : ∀ n < A + 16, ∀ o : Nat, o < 3 → -8 ≤ (d_rx (3 * n + o)).toInt ∧
      (d_rx (3 * n + o)).toInt ≤ 7 ∧
        0 < bitSign (st.output (3 * n + o)) * (d_rx (3 * n + o)).toInt := by
    intro n hn o ho
    have hnull := nullsAt_encoded hencoded n hn o ho
    have hbounds := copies_bounds hL hring hn ho (by
      rw [hcell n o hn ho, codedBlock_cell]
      exact fun h => absurd (hnull.mp h).2 (Nat.not_lt_zero n))
    rw [hcells n hn o ho]
    apply rescale_sign (List.ne_nil_of_length_pos hbounds.1) hbounds.2
    intro k hk
    obtain ⟨hkL, hplace⟩ := mem_bitsOfCell.mp hk
    have hcopy := hmatched.copies n hn o ho k (mem_bitsOfCell.mpr ⟨hkL.trans_le hfewer, hplace⟩)
    rw [← hcopy]
    exact hsign k hkL
  have hinput : ∀ t o : Nat, d_rx ((3 * t + o : Nat) : Int) = d_rx (3 * t + o) := by
    intro t o
    rw [Nat.cast_add, Nat.cast_mul]
    rfl
  have hquantised : Quantised (fun i => d_rx (i : Int)) (A + 16) := by
    intro i hi
    have hplace : i = 3 * (i / 3) + i % 3 := by omega
    have hcell' := hsoft (i / 3) (by omega) (i % 3) (by omega)
    rw [← hinput, ← hplace] at hcell'
    exact ⟨hcell'.1, hcell'.2.1⟩
  have hclear : ∀ p < A + 16, bitAt (memset decoded_output 0 (2 + (A + 16) / 8)) p = false := by
    intro p hp
    rw [bitAt, memset, if_pos (by omega)]
    exact BitVec.getMsbD_zero
  have hdecoded := viterbiDecoded_ringCode (by omega) hquantised
    (u := codedBits A a (codedCrc A .dci a rnti)) (by
      intro t ht j hj
      have hcell' := (hsoft t ht j hj).2.2
      rw [hencoded.coded t ht j hj, bitSign, getLsbD_octet] at hcell'
      simp only [hinput]
      exact hcell') hclear buffers.TB
  rw [Nat.add_comm 16 A] at hrun
  exact ⟨_, hrun, fun p hp => (hdecoded p).trans (if_pos hp)⟩

/-- Whatever arrives of `bits` with the right signs is decoded to the DCI, and shows its RNTI. -/
def Decodable (A aggregation_level : Nat) (a : Nat → BitVec 8) (rnti : BitVec 16)
    (bits : Nat → BitVec 8) : Prop :=
  ∀ (soft decoded_output : Nat → BitVec 8) (buffers : DciBuffers),
    (∀ k < 72 * 2 ^ aggregation_level, 0 < bitSign (bits k) * (soft k).toInt) →
      ∃ out, dciDecoding A aggregation_level soft decoded_output buffers = some out ∧
        (∀ p < A, bitAt out p = bitAt a p) ∧ decodedRnti out A = rnti

theorem generateDci0_spec (hfits : Fits A aggregation_level) (dci e d w : Nat → BitVec 8)
    (rnti : BitVec 16) : ∃ e', generateDci0 dci e A aggregation_level rnti d w = some e' ∧
      (∀ k, 72 * 2 ^ aggregation_level ≤ k → e' k = e k) ∧
      ∀ L ≤ aggregation_level, Fits A L → Decodable A L (dciFlip dci A) rnti e' := by
  have hlevel := hfits.level
  obtain ⟨st, e', he, hencoded, hmatched⟩ := dciEncoding_spec hfits (dciFlip dci A) e d w rnti
  refine ⟨e', ?_, (hmatched fun _ => 0).frame, ?_⟩
  · rw [generateDci0, if_neg (by omega), he]
  · intro L hle hL soft decoded_output buffers hsign
    obtain ⟨out, hout, hbits⟩ := dciDecoding_spec hL hle buffers hencoded (hmatched _) hsign
      decoded_output
    refine ⟨out, hout, ?_, decodedRnti_eq hbits⟩
    intro p hp
    rw [hbits p (by omega), codedBits, if_pos hp]

end Chain

/-- A DCI that is sent with enough resources for its code, and arrives with the right signs, is decoded
to the same bits and with the same RNTI, also when the decoder takes it for one of a lower level that
has enough of them. -/
theorem dci_roundTrip {A aggregation_level : Nat} (hfits : Fits A aggregation_level)
    (dci e d w : Nat → BitVec 8) (rnti : BitVec 16) :
    ∃ e', generateDci0 dci e A aggregation_level rnti d w = some e' ∧
      (∀ k, 72 * 2 ^ aggregation_level ≤ k → e' k = e k) ∧
      ∀ L ≤ aggregation_level, 3 * (A + 16) ≤ 72 * 2 ^ L →
        ∀ (soft decoded_output : Nat → BitVec 8) (buffers : DciBuffers),
          (∀ k < 72 * 2 ^ L, 0 < bitSign (e' k) * (soft k).toInt) →
            ∃ out, dciDecoding A L soft decoded_output buffers = some out ∧
              (∀ p < A, bitAt out p = bitAt (dciFlip dci A) p) ∧ decodedRnti out A = rnti := by
  obtain ⟨e', he, hframe, hdecodable⟩ := generateDci0_spec hfits dci e d w rnti
  refine ⟨e', he, hframe, ?_⟩
  intro L hle hroom
  exact hdecodable L hle ⟨⟨hfits.size, hle.trans hfits.level⟩, hroom⟩

theorem dci_roundTrip_27_bits : Fits 27 3 ∧
    ∃ e', generateDci0 (fun _ => 0xa5) (fun _ => 9) 27 3 0x1234 (fun _ => 0) (fun _ => 0) = some e' ∧
      (∀ k, 72 * 2 ^ 3 ≤ k → e' k = 9) ∧
      ∀ L ≤ 3, 3 * (27 + 16) ≤ 72 * 2 ^ L →
        ∀ (soft decoded_output : Nat → BitVec 8) (buffers : DciBuffers),
          (∀ k < 72 * 2 ^ L, 0 < bitSign (e' k) * (soft k).toInt) →
            ∃ out, dciDecoding 27 L soft decoded_output buffers = some out ∧
              (∀ p < 27, bitAt out p = bitAt (dciFlip (fun _ => 0xa5) 27) p) ∧
                decodedRnti out 27 = 0x1234 :=
  have hfits : Fits 27 3 := ⟨⟨by decide, by decide⟩, by decide⟩
  ⟨hfits, dci_roundTrip hfits (fun _ => 0xa5) (fun _ => 9) (fun _ => 0) (fun _ => 0) 0x1234⟩

end PdmaXen.Lte
