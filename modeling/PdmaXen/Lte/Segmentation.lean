import PdmaXen.Lte.Crc
import PdmaXen.Turbo.Interleaver

/-!
# Code block segmentation

`lte_segmentation` cuts a transport block into segments of the sizes that the turbo
interleaver has rows for; the end of `dlsch_decoding` puts the decoded segments together.
-/

namespace PdmaXen.Lte
set_option autoImplicit false
open Turbo

/-! ## The source -/

def maxNumDlschSegments : Nat := 3

def subU32 (a b : Nat) : Nat := (a + 4294967296 - b) % 4294967296

structure Segmentation where
  C : Nat
  Cplus : Nat
  Cminus : Nat
  Kplus : Nat
  Kminus : Nat
  F : Nat
  deriving DecidableEq, Repr

/-- `((x >> n) << n)` with `step = 1 << n`, and a step more when it is below `x`. -/
def roundUp (step x : Nat) : Nat :=
  let Kplus := x / step * step
  if Kplus < x then Kplus + step else Kplus

/-- `*Kplus` and `*Kminus`. -/
def segmentSizes (Bprime_by_C : Nat) : Option (Nat × Nat) :=
  if Bprime_by_C ≤ 40 then some (40, 0)
  else if Bprime_by_C ≤ 512 then some (Bprime_by_C / 8 * 8, Bprime_by_C - 8)
  else if Bprime_by_C ≤ 1024 then
    some (roundUp 16 Bprime_by_C, roundUp 16 Bprime_by_C - 16)
  else if Bprime_by_C ≤ 2048 then
    some (roundUp 32 Bprime_by_C, roundUp 32 Bprime_by_C - 32)
  else if Bprime_by_C ≤ 6144 then
    some (roundUp 64 Bprime_by_C, roundUp 64 Bprime_by_C - 64)
  else none

/-- `L`, the bits of the checksum of a segment. -/
def segmentCrcBits (B : Nat) : Nat := if B ≤ 6144 then 0 else 24

def segmentCount (B : Nat) : Nat :=
  if B ≤ 6144 then 1
  else if 6120 * (B / 6120) < B then B / 6120 + 1 else B / 6120

/-- The part of `lte_segmentation` before the buffers; nothing is returned for `-1`. -/
def lteSegmentation (B : Nat) : Option Segmentation :=
  let C := segmentCount B
  -- for a single segment `L` is zero
  let Bprime := B + C * segmentCrcBits B
  if maxNumDlschSegments < C then none
  else match segmentSizes (Bprime / C) with
    | none => none
    | some (Kplus, Kminus) =>
      let Kminus := if C = 1 then 0 else Kminus
      let Cminus := if C = 1 then 0 else subU32 (C * Kplus) Bprime / subU32 Kplus Kminus
      let Cplus := if C = 1 then C else subU32 C Cminus
      some ⟨C, Cplus, Cminus, Kplus, Kminus, subU32 (Cplus * Kplus + Cminus * Kminus) Bprime⟩

def Segmentation.size (seg : Segmentation) (r : Nat) : Nat :=
  if r < seg.Cminus then seg.Kminus else seg.Kplus

structure Filling where
  k : Nat
  s : Nat
  output_buffers : Nat → Nat → BitVec 8

/-- So many rounds of the `while` loop of segment `r`. -/
def copyRounds (input_buffer : Nat → BitVec 8) (r : Nat) : Nat → Filling → Filling
  | 0, f => f
  | n + 1, f => copyRounds input_buffer r n ⟨f.k + 1, f.s + 1, Function.update f.output_buffers r
      (Function.update (f.output_buffers r) f.k (input_buffer f.s))⟩

def fillSegment (input_buffer : Nat → BitVec 8) (seg : Segmentation) (L : Nat) (f : Filling)
    (r : Nat) : Filling :=
  let Kr := seg.size r
  let f := copyRounds input_buffer r ((Kr - L) / 8 - f.k) f
  let c := f.output_buffers r
  let c := if 1 < seg.C then attachCrc24 (crc24b c (Kr - 24) >>> 8) c ((Kr - 24) / 8) else c
  ⟨0, f.s, Function.update f.output_buffers r c⟩

def clearFillers (F : Nat) (output_buffers : Nat → Nat → BitVec 8) : Nat → Nat → BitVec 8 :=
  fun r k => if r = 0 ∧ k < F / 8 then 0 else output_buffers r k

/-- The part of `lte_segmentation` that fills the buffers. -/
def fillSegments (input_buffer : Nat → BitVec 8) (seg : Segmentation) (L : Nat)
    (output_buffers : Nat → Nat → BitVec 8) : Nat → Nat → BitVec 8 :=
  ((List.range seg.C).foldl (fillSegment input_buffer seg L)
    ⟨seg.F / 8, 0, clearFillers seg.F output_buffers⟩).output_buffers

def copyTo (dst : Nat → BitVec 8) (offset : Nat) (src : Nat → BitVec 8) (n : Nat) : Nat → BitVec 8 :=
  fun i => if offset ≤ i ∧ i < offset + n then src (i - offset) else dst i

/-- The octets that `dlsch_decoding` takes from segment `r`. -/
def takenOctets (seg : Segmentation) (r : Nat) : Nat :=
  if r = 0 then seg.size r / 8 - seg.F / 8 - (if 1 < seg.C then 3 else 0)
  else seg.size r / 8 - (if 1 < seg.C then 3 else 0)

/-- One round of the reassembly in `dlsch_decoding`, on `b` and `offset`. -/
def reassembleSegment (seg : Segmentation) (c : Nat → Nat → BitVec 8)
    (st : (Nat → BitVec 8) × Nat) (r : Nat) : (Nat → BitVec 8) × Nat :=
  if r = 0 then
    (copyTo st.1 0 (fun i => c 0 (seg.F / 8 + i)) (takenOctets seg r), takenOctets seg r)
  else (copyTo st.1 st.2 (c r) (takenOctets seg r), st.2 + takenOctets seg r)

def reassemble (seg : Segmentation) (c : Nat → Nat → BitVec 8) (b : Nat → BitVec 8) :
    Nat → BitVec 8 :=
  ((List.range seg.C).foldl (reassembleSegment seg c) (b, 0)).1

/-! ## Sizes -/

theorem subU32_of_le {a b : Nat} (hb : b ≤ a) (ha : a < 4294967296) : subU32 a b = a - b := by
  unfold subU32
  omega

theorem roundUp_spec {step : Nat} (hstep : 0 < step) (x : Nat) :
    x ≤ roundUp step x ∧ roundUp step x < x + step ∧ step ∣ roundUp step x := by
  have hdiv := Nat.div_add_mod x step
  have hmod := Nat.mod_lt x hstep
  rw [Nat.mul_comm] at hdiv
  unfold roundUp
  simp only
  split
  · exact ⟨by omega, by omega, Dvd.dvd.add ⟨x / step, Nat.mul_comm _ _⟩ dvd_rfl⟩
  · exact ⟨by omega, by omega, ⟨x / step, Nat.mul_comm _ _⟩⟩

theorem legal_iff {K : Nat} : Legal K ↔
    5 ≤ K ∧ (K ≤ 64 ∨ K ≤ 128 ∧ 2 ∣ K ∨ K ≤ 256 ∧ 4 ∣ K ∨ K ≤ 768 ∧ 8 ∣ K) := by
  simp only [Legal, legalLengths, List.mem_append, List.mem_map, List.mem_range]
  constructor
  · rintro (((⟨i, hi, rfl⟩ | ⟨i, hi, rfl⟩) | ⟨i, hi, rfl⟩) | ⟨i, hi, rfl⟩) <;> omega
  · rintro ⟨hlow, h | ⟨h, h2⟩ | ⟨h, h4⟩ | ⟨h, h8⟩⟩
    · exact Or.inl (Or.inl (Or.inl ⟨K - 5, by omega, by omega⟩))
    · rcases Nat.lt_or_ge 64 K with hK | hK
      · exact Or.inl (Or.inl (Or.inr ⟨(K - 66) / 2, by omega, by omega⟩))
      · exact Or.inl (Or.inl (Or.inl ⟨K - 5, by omega, by omega⟩))
    · rcases Nat.lt_or_ge 128 K with hK | hK
      · exact Or.inl (Or.inr ⟨(K - 132) / 4, by omega, by omega⟩)
      · rcases Nat.lt_or_ge 64 K with hK | hK
        · exact Or.inl (Or.inl (Or.inr ⟨(K - 66) / 2, by omega, by omega⟩))
        · exact Or.inl (Or.inl (Or.inl ⟨K - 5, by omega, by omega⟩))
    · rcases Nat.lt_or_ge 256 K with hK | hK
      · exact Or.inr ⟨(K - 264) / 8, by omega, by omega⟩
      · rcases Nat.lt_or_ge 128 K with hK | hK
        · exact Or.inl (Or.inr ⟨(K - 132) / 4, by omega, by omega⟩)
        · rcases Nat.lt_or_ge 64 K with hK | hK
          · exact Or.inl (Or.inl (Or.inr ⟨(K - 66) / 2, by omega, by omega⟩))
          · exact Or.inl (Or.inl (Or.inl ⟨K - 5, by omega, by omega⟩))

/-- The smallest size with a row for `x` bits, and the size below it. -/
structure Sizes (x Kplus Kminus : Nat) : Prop where
  above : x ≤ Kplus
  close : Kplus < x + 64
  octets : 8 ∣ Kplus
  legal : Legal (Kplus / 8)
  large : 2048 < x → 64 ∣ Kplus ∧ Kminus = Kplus - 64

theorem sizes_of_segmentSizes {x : Nat} (hx : x ≤ 6144) (hsmall : x ≤ 512 → 8 ∣ x) :
    ∃ Kplus Kminus, segmentSizes x = some (Kplus, Kminus) ∧ (Sizes x Kplus Kminus ∨ x ≤ 40 ∧ Kplus = 40) := by
  unfold segmentSizes
  by_cases h1 : x ≤ 40
  · exact ⟨40, 0, if_pos h1, Or.inr ⟨h1, rfl⟩⟩
  · rw [if_neg h1]
    by_cases h2 : x ≤ 512
    · rw [if_pos h2]
      have h8 := hsmall h2
      refine ⟨_, _, rfl, Or.inl ⟨by omega, by omega, by omega, legal_iff.mpr (by omega), by omega⟩⟩
    · rw [if_neg h2]
      by_cases h3 : x ≤ 1024
      · rw [if_pos h3]
        obtain ⟨hle, hlt, hdvd⟩ := roundUp_spec (by omega : 0 < 16) x
        refine ⟨_, _, rfl, Or.inl ⟨hle, by omega, by omega, legal_iff.mpr (by omega), by omega⟩⟩
      · rw [if_neg h3]
        by_cases h4 : x ≤ 2048
        · rw [if_pos h4]
          obtain ⟨hle, hlt, hdvd⟩ := roundUp_spec (by omega : 0 < 32) x
          refine ⟨_, _, rfl, Or.inl ⟨hle, by omega, by omega, legal_iff.mpr (by omega), by omega⟩⟩
        · rw [if_neg h4, if_pos hx]
          obtain ⟨hle, hlt, hdvd⟩ := roundUp_spec (by omega : 0 < 64) x
          refine ⟨_, _, rfl, Or.inl ⟨hle, by omega, by omega, legal_iff.mpr (by omega),
            fun _ => ⟨hdvd, rfl⟩⟩⟩

/-- The numbers of `lte_segmentation` for a block of `8 * b` bits. -/
structure Counts (b : Nat) (seg : Segmentation) : Prop where
  C_pos : 0 < seg.C
  C_le : seg.C ≤ maxNumDlschSegments
  C_eq : seg.C = segmentCount (8 * b)
  Cplus_add : seg.Cplus + seg.Cminus = seg.C
  Cminus_lt : seg.Cminus < seg.C
  legal : ∀ r < seg.C, 8 ∣ seg.size r ∧ Legal (seg.size r / 8)
  room : ∀ r < seg.C, seg.F + segmentCrcBits (8 * b) ≤ seg.size r
  /-- The fillers, which the first segment has room for, make up the difference. -/
  total : seg.Cplus * seg.Kplus + seg.Cminus * seg.Kminus =
    8 * b + seg.C * segmentCrcBits (8 * b) + seg.F
  F_octets : 8 ∣ seg.F
  F_lt : seg.F < 64

theorem segmentCount_le_iff (b : Nat) : segmentCount (8 * b) ≤ maxNumDlschSegments ↔ b ≤ 2295 := by
  unfold segmentCount maxNumDlschSegments
  split_ifs <;> omega

theorem segmentCount_cases {b : Nat} (hb : b ≤ 2295) :
    b ≤ 768 ∧ segmentCount (8 * b) = 1 ∧ segmentCrcBits (8 * b) = 0 ∨
      768 < b ∧ b ≤ 1530 ∧ segmentCount (8 * b) = 2 ∧ segmentCrcBits (8 * b) = 24 ∨
        1530 < b ∧ segmentCount (8 * b) = 3 ∧ segmentCrcBits (8 * b) = 24 := by
  unfold segmentCount segmentCrcBits
  split_ifs <;> omega

theorem counts_of_one {b : Nat} (hb : b ≤ 768) (hC : segmentCount (8 * b) = 1)
    (hL : segmentCrcBits (8 * b) = 0) : ∃ seg, lteSegmentation (8 * b) = some seg ∧ Counts b seg := by
  obtain ⟨Kplus, Kminus, hsizes, hcases⟩ := sizes_of_segmentSizes (x := 8 * b) (by omega)
    (fun _ => ⟨b, rfl⟩)
  have hKplus : 8 * b ≤ Kplus ∧ Kplus < 8 * b + 64 ∧ 8 ∣ Kplus ∧ Legal (Kplus / 8) := by
    rcases hcases with h | ⟨hlow, rfl⟩
    · exact ⟨h.above, h.close, h.octets, h.legal⟩
    · exact ⟨hlow, by omega, by omega, by decide⟩
  obtain ⟨habove, hclose, hoctets, hlegal⟩ := hKplus
  have hF : subU32 Kplus (8 * b) = Kplus - 8 * b := subU32_of_le habove (by omega)
  refine ⟨⟨1, 1, 0, Kplus, 0, Kplus - 8 * b⟩, ?_, ?_⟩
  · unfold lteSegmentation
    simp only [hC, hL, Nat.mul_zero, Nat.add_zero, Nat.div_one, hsizes, maxNumDlschSegments,
      if_neg (by omega : ¬ 3 < 1), if_true, Nat.one_mul, hF]
  · refine ⟨Nat.one_pos, Nat.le_add_left 1 2, hC.symm, rfl, Nat.one_pos, ?_, ?_, ?_, ?_, ?_⟩
    · intro r _
      exact ⟨hoctets, hlegal⟩
    · intro r _
      rw [hL]
      exact Nat.sub_le Kplus (8 * b)
    · simp only [hL]
      omega
    · simp only
      omega
    · simp only
      omega

/-- A block that needs `C` segments with a checksum each; `x` is what one of them has to hold. -/
theorem counts_of_several {b C x : Nat} (hb : b ≤ 2295) (hC : segmentCount (8 * b) = C)
    (hL : segmentCrcBits (8 * b) = 24) (hC2 : C = 2 ∨ C = 3) (hx : (8 * b + C * 24) / C = x)
    (hlow : 2048 < x) (hhigh : x ≤ 6144) :
    ∃ seg, lteSegmentation (8 * b) = some seg ∧ Counts b seg := by
  obtain ⟨Kplus, Kminus, hsizes, hcases⟩ := sizes_of_segmentSizes hhigh (by omega)
  rcases hcases with h | ⟨hout, -⟩
  case inr => omega
  obtain ⟨h64, rfl⟩ := h.large hlow
  have habove := h.above
  have hclose := h.close
  have hfit : 8 * b + C * 24 ≤ C * Kplus ∧ C * Kplus < 8 * b + C * 24 + 64 * C := by
    rcases hC2 with rfl | rfl <;> omega
  obtain ⟨T, hT⟩ : ∃ T, C * Kplus = 8 * b + C * 24 + T := ⟨_, (Nat.add_sub_cancel' hfit.1).symm⟩
  have hCminus : subU32 (C * Kplus) (8 * b + C * 24) / subU32 Kplus (Kplus - 64) = T / 64 := by
    rw [subU32_of_le hfit.1 (by omega), subU32_of_le (by omega) (by omega), hT,
      Nat.add_sub_cancel_left, Nat.sub_sub_self (by omega)]
  have hlt : T / 64 < C := by omega
  have h8 : 8 ∣ T := by
    rcases hC2 with rfl | rfl <;> omega
  have hminus : 8 ∣ Kplus - 64 ∧ Legal ((Kplus - 64) / 8) := ⟨by omega, legal_iff.mpr (by omega)⟩
  have hCplus : subU32 C (T / 64) = C - T / 64 := subU32_of_le hlt.le (by omega)
  have htotal : (C - T / 64) * Kplus + T / 64 * (Kplus - 64) = 8 * b + C * 24 + T % 64 := by
    obtain ⟨P, rfl⟩ : ∃ P, C = P + T / 64 := ⟨_, (Nat.sub_add_cancel hlt.le).symm⟩
    obtain ⟨K, rfl⟩ : ∃ K, Kplus = K + 64 := ⟨_, (Nat.sub_add_cancel (by omega : 64 ≤ Kplus)).symm⟩
    have hexpand : (P + T / 64) * (K + 64) = P * (K + 64) + T / 64 * K + T / 64 * 64 := by ring
    rw [Nat.add_sub_cancel, Nat.add_sub_cancel]
    omega
  have hF : subU32 ((C - T / 64) * Kplus + T / 64 * (Kplus - 64)) (8 * b + C * 24) = T % 64 := by
    rw [htotal, subU32_of_le (by omega) (by omega), Nat.add_sub_cancel_left]
  have hC1 : ¬ C = 1 := by omega
  refine ⟨⟨C, C - T / 64, T / 64, Kplus, Kplus - 64, T % 64⟩, ?_, ?_⟩
  · unfold lteSegmentation
    simp only [hC, hL, hx, hsizes, maxNumDlschSegments, if_neg (by omega : ¬ 3 < C), if_neg hC1,
      hCminus, hCplus, hF]
  · have hpos : 0 < C ∧ C ≤ 3 := by omega
    refine ⟨hpos.1, hpos.2, hC.symm, Nat.sub_add_cancel hlt.le, hlt, ?_, ?_, ?_, ?_, ?_⟩
    · intro r _
      simp only [Segmentation.size]
      split
      · exact hminus
      · exact ⟨h.octets, h.legal⟩
    · intro r _
      simp only [Segmentation.size, hL]
      split <;> omega
    · simp only [hL]
      exact htotal
    · exact (Nat.dvd_mod_iff (by decide)).mpr h8
    · exact Nat.mod_lt T (by omega)

/-- A block of whole octets is refused exactly when it needs more segments than there are. -/
theorem lteSegmentation_eq (b : Nat) :
    2295 < b ∧ lteSegmentation (8 * b) = none ∨
      b ≤ 2295 ∧ ∃ seg, lteSegmentation (8 * b) = some seg ∧ Counts b seg := by
  rcases Nat.lt_or_ge 2295 b with hlt | hle
  · refine Or.inl ⟨hlt, ?_⟩
    have hC : maxNumDlschSegments < segmentCount (8 * b) := by
      have := segmentCount_le_iff b
      omega
    unfold lteSegmentation
    simp only [if_pos hC]
  · refine Or.inr ⟨hle, ?_⟩
    rcases segmentCount_cases hle with ⟨h1, hC, hL⟩ | ⟨h1, h2, hC, hL⟩ | ⟨h1, hC, hL⟩
    · exact counts_of_one h1 hC hL
    · exact counts_of_several hle hC hL (Or.inl rfl) rfl (by omega) (by omega)
    · exact counts_of_several hle hC hL (Or.inr rfl) rfl (by omega) (by omega)

/-! ## Buffers -/

def fillerOctets (seg : Segmentation) (r : Nat) : Nat := if r = 0 then seg.F / 8 else 0

def firstOctet (seg : Segmentation) : Nat → Nat
  | 0 => 0
  | r + 1 => firstOctet seg r + takenOctets seg r

theorem Counts.crcBits {b : Nat} {seg : Segmentation} (h : Counts b seg) :
    segmentCrcBits (8 * b) = if 1 < seg.C then 24 else 0 := by
  rw [h.C_eq]
  unfold segmentCrcBits segmentCount
  split_ifs <;> omega

theorem Counts.size_eq {b : Nat} {seg : Segmentation} (h : Counts b seg) {r : Nat} (hr : r < seg.C) :
    seg.size r = 8 * (fillerOctets seg r + takenOctets seg r) + segmentCrcBits (8 * b) := by
  obtain ⟨h8, hlegal⟩ := h.legal r hr
  have hF := h.F_octets
  have hroom := h.room r hr
  rw [h.crcBits] at hroom ⊢
  unfold fillerOctets takenOctets
  split_ifs at hroom ⊢ <;> omega

/-- The data of all segments is the block. -/
theorem Counts.firstOctet_C {b : Nat} {seg : Segmentation} (h : Counts b seg) :
    firstOctet seg seg.C = b := by
  have hsum : ∀ r ≤ seg.C, 8 * firstOctet seg r + (if r = 0 then 0 else seg.F) +
      r * segmentCrcBits (8 * b) = ((List.range r).map seg.size).sum := by
    intro r
    induction r with
    | zero =>
      intro _
      rw [Nat.zero_mul]
      rfl
    | succ r ih =>
      intro hr
      have hF := h.F_octets
      have hsize := h.size_eq (show r < seg.C by omega)
      rw [List.range_succ, List.map_append, List.sum_append, ← ih (by omega), firstOctet,
        Nat.add_mul, if_neg r.succ_ne_zero]
      simp only [List.map_cons, List.map_nil, List.sum_cons, List.sum_nil, hsize, fillerOctets]
      split_ifs <;> omega
  have hall : ∀ r ≤ seg.C, ((List.range r).map seg.size).sum + (seg.C - r) * seg.Kplus +
      (seg.Cminus - r) * seg.Kminus = seg.Cplus * seg.Kplus + seg.Cminus * seg.Kminus +
        (seg.Cminus - r) * seg.Kplus := by
    intro r
    induction r with
    | zero =>
      intro _
      have hadd := h.Cplus_add
      simp only [List.range_zero, List.map_nil, List.sum_nil, Nat.sub_zero, ← hadd, Nat.add_mul]
      omega
    | succ r ih =>
      intro hr
      have hprev := ih (by omega)
      have hC : seg.C - r = seg.C - (r + 1) + 1 := by omega
      rw [hC, Nat.succ_mul] at hprev
      rw [List.range_succ, List.map_append, List.sum_append]
      simp only [List.map_cons, List.map_nil, List.sum_cons, List.sum_nil, Segmentation.size]
      by_cases hlt : r < seg.Cminus
      · have hCminus : seg.Cminus - r = seg.Cminus - (r + 1) + 1 := by omega
        rw [hCminus, Nat.succ_mul, Nat.succ_mul] at hprev
        rw [if_pos hlt]
        omega
      · have hzero : seg.Cminus - r = 0 ∧ seg.Cminus - (r + 1) = 0 := by omega
        rw [hzero.1] at hprev
        rw [if_neg hlt, hzero.2]
        omega
  have hlast := hall seg.C le_rfl
  have hpos := h.C_pos
  have hCminus := h.Cminus_lt
  rw [← hsum seg.C le_rfl, if_neg (by omega), Nat.sub_self,
    Nat.sub_eq_zero_of_le (by omega : seg.Cminus ≤ seg.C), h.total] at hlast
  omega

theorem copyRounds_eq (input_buffer : Nat → BitVec 8) (r n : Nat) (f : Filling) :
    copyRounds input_buffer r n f = ⟨f.k + n, f.s + n, Function.update f.output_buffers r
      (copyTo (f.output_buffers r) f.k (fun i => input_buffer (f.s + i)) n)⟩ := by
  induction n generalizing f with
  | zero =>
    have hnone : copyTo (f.output_buffers r) f.k (fun i => input_buffer (f.s + i)) 0 =
        f.output_buffers r := by
      funext i
      exact if_neg (by omega)
    rw [hnone, Function.update_eq_self]
    rfl
  | succ n ih =>
    have hcells : copyTo (Function.update (f.output_buffers r) f.k (input_buffer f.s)) (f.k + 1)
        (fun i => input_buffer (f.s + 1 + i)) n =
          copyTo (f.output_buffers r) f.k (fun i => input_buffer (f.s + i)) (n + 1) := by
      funext i
      unfold copyTo
      rcases Nat.lt_trichotomy i f.k with hlt | rfl | hgt
      · rw [if_neg (by omega), if_neg (by omega), Function.update_of_ne (by omega)]
      · rw [if_neg (by omega), if_pos (by omega), Function.update_self, Nat.sub_self]
        rfl
      · by_cases hin : i < f.k + (n + 1)
        · have hplace : f.s + 1 + (i - (f.k + 1)) = f.s + (i - f.k) := by omega
          rw [if_pos (by omega), if_pos (by omega)]
          exact congrArg input_buffer hplace
        · rw [if_neg (by omega), if_neg (by omega), Function.update_of_ne (by omega)]
    rw [copyRounds, ih]
    simp only [Function.update_idem, Function.update_self]
    rw [hcells, Nat.add_right_comm f.k, Nat.add_right_comm f.s]
    rfl

structure Filled (seg : Segmentation) (input_buffer : Nat → BitVec 8) (r : Nat)
    (c : Nat → BitVec 8) : Prop where
  filler : ∀ k < fillerOctets seg r, c k = 0
  data : ∀ k < takenOctets seg r, c (fillerOctets seg r + k) = input_buffer (firstOctet seg r + k)
  checksum : 1 < seg.C → ∃ a, c =
    attachCrc24 (crc24b a (seg.size r - 24) >>> 8) a (fillerOctets seg r + takenOctets seg r)

theorem attachCrc24_of_lt (crc : BitVec 32) (a : Nat → BitVec 8) {len i : Nat} (hi : i < len) :
    attachCrc24 crc a len i = a i := by
  rw [attachCrc24, Function.update_of_ne (by omega), Function.update_of_ne (by omega),
    Function.update_of_ne (by omega)]

theorem filled_fillSegment {b : Nat} {seg : Segmentation} (h : Counts b seg)
    (input_buffer : Nat → BitVec 8) {r : Nat} (hr : r < seg.C) {f : Filling}
    (hk : f.k = fillerOctets seg r) (hs : f.s = firstOctet seg r)
    (hzero : ∀ k < fillerOctets seg r, f.output_buffers r k = 0) :
    let f' := fillSegment input_buffer seg (segmentCrcBits (8 * b)) f r
    f'.k = fillerOctets seg (r + 1) ∧ f'.s = firstOctet seg (r + 1) ∧
      (∀ q, q ≠ r → f'.output_buffers q = f.output_buffers q) ∧
      Filled seg input_buffer r (f'.output_buffers r) := by
  have hsize := h.size_eq hr
  have hcrc := h.crcBits
  have hrounds : (seg.size r - segmentCrcBits (8 * b)) / 8 - f.k = takenOctets seg r := by
    rw [hk, hsize, Nat.add_sub_cancel, Nat.mul_div_cancel_left _ (by omega), Nat.add_sub_cancel_left]
  have hlen : 1 < seg.C → (seg.size r - 24) / 8 = fillerOctets seg r + takenOctets seg r := by
    intro hC
    rw [hsize, hcrc, if_pos hC]
    omega
  simp only [fillSegment, hrounds, copyRounds_eq, Function.update_self, Function.update_idem]
  generalize hbefore : copyTo (f.output_buffers r) f.k (fun i => input_buffer (f.s + i))
    (takenOctets seg r) = a
  have hfiller : ∀ k < fillerOctets seg r, a k = 0 := by
    intro k hlt
    rw [← hbefore, copyTo, if_neg (by omega)]
    exact hzero k hlt
  have hdata : ∀ k < takenOctets seg r,
      a (fillerOctets seg r + k) = input_buffer (firstOctet seg r + k) := by
    intro k hlt
    rw [← hbefore, copyTo, if_pos (by omega), hk, hs, Nat.add_sub_cancel_left]
  refine ⟨(if_neg r.succ_ne_zero).symm, by rw [hs, firstOctet], ?_, ?_⟩
  · intro q hq
    exact Function.update_of_ne hq _ _
  · by_cases hC : 1 < seg.C
    · rw [if_pos hC, hlen hC]
      refine ⟨?_, ?_, fun _ => ⟨a, rfl⟩⟩
      · intro k hlt
        rw [attachCrc24_of_lt _ _ (by omega)]
        exact hfiller k hlt
      · intro k hlt
        rw [attachCrc24_of_lt _ _ (by omega)]
        exact hdata k hlt
    · rw [if_neg hC]
      exact ⟨hfiller, hdata, fun hC' => absurd hC' hC⟩

/-- After `r` segments the counters stand at the next one, and the segments so far are filled. -/
structure FilledTo (seg : Segmentation) (input_buffer : Nat → BitVec 8) (r : Nat) (f : Filling) :
    Prop where
  k : f.k = fillerOctets seg r
  s : f.s = firstOctet seg r
  zero : ∀ q, r ≤ q → ∀ k < fillerOctets seg q, f.output_buffers q k = 0
  filled : ∀ q < r, Filled seg input_buffer q (f.output_buffers q)

theorem filledTo_fillSegments {b : Nat} {seg : Segmentation} (h : Counts b seg)
    (input_buffer : Nat → BitVec 8) (output_buffers : Nat → Nat → BitVec 8) {r : Nat}
    (hr : r ≤ seg.C) : FilledTo seg input_buffer r
      ((List.range r).foldl (fillSegment input_buffer seg (segmentCrcBits (8 * b)))
        ⟨seg.F / 8, 0, clearFillers seg.F output_buffers⟩) := by
  induction r with
  | zero =>
    refine ⟨rfl, rfl, ?_, fun q hq => absurd hq q.not_lt_zero⟩
    intro q _ k hk
    unfold fillerOctets at hk
    split at hk
    · exact if_pos ⟨by assumption, hk⟩
    · omega
  | succ r ih =>
    have hprev := ih (by omega)
    rw [List.range_succ, List.foldl_append, List.foldl_cons, List.foldl_nil]
    obtain ⟨hk, hs, hframe, hfilled⟩ := filled_fillSegment h input_buffer (by omega) hprev.k hprev.s
      (hprev.zero r le_rfl)
    refine ⟨hk, hs, ?_, ?_⟩
    · intro q hq
      rw [hframe q (by omega)]
      exact hprev.zero q (by omega)
    · intro q hq
      rcases Nat.lt_succ_iff_lt_or_eq.mp hq with hlt | rfl
      · rw [hframe q hlt.ne]
        exact hprev.filled q hlt
      · exact hfilled

/-! ## Reassembly -/

theorem reassemble_eq {b : Nat} {seg : Segmentation} (h : Counts b seg)
    {input_buffer : Nat → BitVec 8} {c : Nat → Nat → BitVec 8}
    (hdata : ∀ r < seg.C, ∀ k < takenOctets seg r,
      c r (fillerOctets seg r + k) = input_buffer (firstOctet seg r + k)) (dst : Nat → BitVec 8)
    (i : Nat) : reassemble seg c dst i = if i < b then input_buffer i else dst i := by
  have hloop : ∀ r ≤ seg.C, ((List.range r).foldl (reassembleSegment seg c) (dst, 0)) =
      (fun i => if i < firstOctet seg r then input_buffer i else dst i, firstOctet seg r) := by
    intro r
    induction r with
    | zero =>
      intro _
      rfl
    | succ r ih =>
      intro hr
      have hstep : reassembleSegment seg c
          (fun i => if i < firstOctet seg r then input_buffer i else dst i, firstOctet seg r) r =
          (copyTo (fun i => if i < firstOctet seg r then input_buffer i else dst i)
            (firstOctet seg r) (fun i => c r (fillerOctets seg r + i)) (takenOctets seg r),
            firstOctet seg (r + 1)) := by
        unfold reassembleSegment fillerOctets
        rcases Nat.eq_zero_or_pos r with rfl | hpos
        · simp only [if_true, firstOctet, Nat.zero_add]
        · rw [if_neg hpos.ne', if_neg hpos.ne', firstOctet]
          simp only [Nat.zero_add]
      rw [List.range_succ, List.foldl_append, ih (by omega), List.foldl_cons, List.foldl_nil, hstep]
      congr 1
      funext i
      unfold copyTo
      by_cases hin : firstOctet seg r ≤ i ∧ i < firstOctet seg r + takenOctets seg r
      · have hcell := hdata r (by omega) (i - firstOctet seg r) (by omega)
        rw [Nat.add_sub_cancel' hin.1] at hcell
        rw [if_pos hin, if_pos (by rw [firstOctet]; omega)]
        exact hcell
      · rw [if_neg hin, firstOctet]
        by_cases hlt : i < firstOctet seg r
        · exact (if_pos hlt).trans (if_pos (by omega)).symm
        · exact (if_neg hlt).trans (if_neg (by omega)).symm
  rw [reassemble, hloop seg.C le_rfl, h.firstOctet_C]

/-! ## The whole way -/

theorem bitsOf_congr {m m' : Nat → BitVec 8} {n : Nat} (h : ∀ k < n, m k = m' k) :
    bitsOf m (8 * n) = bitsOf m' (8 * n) := by
  apply List.map_congr_left
  intro i hi
  have hlt := List.mem_range.mp hi
  rw [h (i / 8) (by omega)]

/-- A transport block of `len` octets on its way: `c` are the segments the encoder gets and `decoded`
those the decoder leaves when all of them arrive. -/
structure Delivered (a : Nat → BitVec 8) (len : Nat) (seg : Segmentation)
    (c decoded : Nat → Nat → BitVec 8) : Prop where
  fillers : ∀ k < seg.F / 8, c 0 k = 0
  /-- The decoder accepts a block that fits one segment, unless its checksum is zero. -/
  single : seg.C = 1 → (crcPasses .CRC24_A (decoded 0) (seg.size 0) seg.F = true ↔
    crc24a a (8 * len) ≠ 0#32)
  /-- It accepts every segment of a larger one, unless the segment's checksum is zero. -/
  several : 1 < seg.C → ∀ r < seg.C,
    (crcPasses .CRC24_B (decoded r) (seg.size r) (if r = 0 then seg.F else 0) = true ↔
      crc24b (c r) (seg.size r - 24) ≠ 0#32)
  /-- The block and its checksum are put together, and nothing else is written. -/
  reassembled : ∀ b i, reassemble seg decoded b i =
    if i < len + 3 then attachCrc24 (crc24a a (8 * len) >>> 8) a len i else b i

theorem delivered_of_counts {len : Nat} {seg : Segmentation} (h : Counts (len + 3) seg)
    (a : Nat → BitVec 8) {c decoded : Nat → Nat → BitVec 8}
    (hc : ∀ r < seg.C, Filled seg (attachCrc24 (crc24a a (8 * len) >>> 8) a len) r (c r))
    (hsame : ∀ r < seg.C, ∀ k < seg.size r / 8, decoded r k = c r k) :
    Delivered a len seg c decoded := by
  have hcrc := h.crcBits
  refine ⟨(hc 0 h.C_pos).filler, ?single, ?several, ?reassembled⟩
  case single =>
    intro hC
    have hF := h.F_octets
    have hfirst := h.firstOctet_C
    have hsize := h.size_eq h.C_pos
    rw [hC, firstOctet, firstOctet, Nat.zero_add] at hfirst
    rw [hcrc, hC, if_neg (lt_irrefl 1), hfirst, fillerOctets, if_pos rfl] at hsize
    have hbits : seg.size 0 = 8 * (seg.F / 8) + 8 * len + 24 := by omega
    have hfill : seg.F = 8 * (seg.F / 8) := (Nat.mul_div_cancel' hF).symm
    rw [hbits]
    nth_rewrite 2 [hfill]
    apply (crc24a_protects (seg.F / 8) len).intact
    apply bitsOf_congr (n := len + 3)
    intro k hk
    have hdata := (hc 0 h.C_pos).data k (by omega)
    rw [fillerOctets, if_pos rfl, firstOctet, Nat.zero_add] at hdata
    rw [hsame 0 h.C_pos _ (by omega), hdata]
    rfl
  case several =>
    intro hC r hr
    obtain ⟨before, hattached⟩ := (hc r hr).checksum hC
    have hF := h.F_octets
    have hsize := h.size_eq hr
    rw [hcrc, if_pos hC] at hsize
    have hbits : seg.size r - 24 = 8 * (fillerOctets seg r + takenOctets seg r) := by omega
    have hfill : (if r = 0 then seg.F else 0) = 8 * (if r = 0 then seg.F / 8 else 0) := by
      split <;> omega
    have hrun : crc24b (c r) (seg.size r - 24) = crc24b before (seg.size r - 24) := by
      have hdivide := Checksum.crc24b.run_eq_divide
      simp only [Checksum.run] at hdivide
      rw [hbits, hdivide, hdivide]
      congr 1
      apply bitsOf_congr
      intro k hk
      rw [hattached, attachCrc24_of_lt _ _ hk]
    rw [hrun, hbits, hsize, hfill]
    apply (crc24b_protects _ _).intact
    apply bitsOf_congr (n := fillerOctets seg r + takenOctets seg r + 3)
    intro k hk
    rw [Nat.zero_add, hsame r hr k (by omega), hattached, hbits]
    rfl
  case reassembled =>
    intro b i
    apply reassemble_eq h
    intro r hr k hk
    have hsize := h.size_eq hr
    rw [hsame r hr _ (by omega)]
    exact (hc r hr).data k hk

/-- A transport block with its checksum is refused when it needs more than three segments. Otherwise
it is cut into segments of legal sizes, and when the turbo code delivers these, the decoder's test
accepts them and the block is put together again. -/
theorem segmentation_roundTrip (a : Nat → BitVec 8) (len : Nat)
    (output_buffers : Nat → Nat → BitVec 8) :
    2292 < len ∧ lteSegmentation (8 * (len + 3)) = none ∨
      len ≤ 2292 ∧ ∃ seg, lteSegmentation (8 * (len + 3)) = some seg ∧ Counts (len + 3) seg ∧
        ∀ decoded : Nat → Nat → BitVec 8,
          let c := fillSegments (attachCrc24 (crc24a a (8 * len) >>> 8) a len) seg
            (segmentCrcBits (8 * (len + 3))) output_buffers
          (∀ r < seg.C, ∀ k < seg.size r / 8, decoded r k = c r k) →
            Delivered a len seg c decoded := by
  rcases lteSegmentation_eq (len + 3) with ⟨hlt, hnone⟩ | ⟨hle, seg, hsome, hcounts⟩
  · exact Or.inl ⟨by omega, hnone⟩
  · refine Or.inr ⟨by omega, seg, hsome, hcounts, ?_⟩
    intro decoded c hsame
    apply delivered_of_counts hcounts a _ hsame
    intro r hr
    exact (filledTo_fillSegments hcounts _ output_buffers le_rfl).filled r hr

end PdmaXen.Lte
