import PdmaXen.Lte.RateMatching

/-!
# The buffers of a HARQ process

`dlsch_encoding` and `ulsch_encoding` keep the coded segments of a process in the rows of its
arrays `d` and `w`, which follow each other in memory, and put the bits of a transmission
into `e`, one segment after the other.
-/

namespace PdmaXen.Lte
set_option autoImplicit false
open Turbo Scatter Selection

/-! ## The source -/

/-- Where `d[r]` begins: the rows are of type `u8 [96+3+(3*6144)]`. -/
def dRow (r : Nat) : Nat := (96 + 3 + 3 * 6144) * r

/-- Where `w[r]` begins: the rows are of type `u8 [3*6144]` and come after those of `d`. -/
def wRow (r : Nat) : Nat := dRow maxNumDlschSegments + 3 * 6144 * r

def Segmentation.fillers (seg : Segmentation) (r : Nat) : BitVec 8 :=
  if r = 0 then BitVec.ofNat 8 seg.F else 0

/-- The cells from `base` on as they are after a function that was given `&m[base]`. -/
def placeAt (m : Nat → BitVec 8) (base : Nat) (f : Nat → BitVec 8) : Nat → BitVec 8 :=
  fun a => if base ≤ a then f (a - base) else m a

def interleaveAt (m : Nat → BitVec 8) (dBase wBase D : Nat) : Nat → BitVec 8 :=
  let (_, d, w) := subBlockInterleavingTurbo D (fun i => m (dBase + i).toNat) fun j => m (wBase + j)
  fun a => if wBase ≤ a then w (a - wBase) else if dBase ≤ a then d (a - dBase) else m a

/-- The encoder and the interleaver for segment `r`, on the memory from `d` on. Behind `w` are `C` and the
sizes, which the loop reads again: a ring that gets there is not followed. -/
def encodeSegment (seg : Segmentation) (c : Nat → Nat → BitVec 8) (m : Nat → BitVec 8) (r : Nat) :
    Option (Nat → BitVec 8) := do
  let Kr_bytes := seg.size r / 8
  let (f1, f2) ← f1f2matRow Kr_bytes
  let m := placeAt m (dRow r + 96) (threegpplteTurboEncoder (c r) Kr_bytes
    (fun i => m (dRow r + 96 + i)) (seg.fillers r) f1 f2).1
  if wRow r + 3 * cellCount (8 * Kr_bytes + 4) ≤ wRow maxNumDlschSegments then
    return interleaveAt m (dRow r + 96) (wRow r) (8 * Kr_bytes + 4)
  else none

def encodeSegments (seg : Segmentation) (c : Nat → Nat → BitVec 8) (m : Nat → BitVec 8) :
    Option (Nat → BitVec 8) :=
  (List.range seg.C).foldlM (encodeSegment seg c) m

/-! ## What a segment has to be -/

def Segmentation.codedSize (seg : Segmentation) (r : Nat) : Nat := 8 * (seg.size r / 8) + 4

/-- The ring of the last row is longer than the row. -/
def Segmentation.Overruns (seg : Segmentation) : Prop := seg.C = 3 ∧ seg.size 2 = 6144

def segmentCode (seg : Segmentation) (c : Nat → Nat → BitVec 8) (r : Nat) : Nat → BitVec 8 :=
  match f1f2matRow (seg.size r / 8) with
  | some (f1, f2) =>
    (threegpplteTurboEncoder (c r) (seg.size r / 8) (fun _ => 0) (seg.fillers r) f1 f2).1
  | none => fun _ => 0

def segmentRing (seg : Segmentation) (c : Nat → Nat → BitVec 8) (r : Nat) : Nat → BitVec 8 :=
  (subBlockInterleavingTurbo (seg.codedSize r) (codedBlock (segmentCode seg c r)) fun _ => 0).2.2

theorem TurboEncoded.unique {input output output' : Nat → BitVec 8} {K F f1 f2 : Nat}
    {r r' : (Nat → BitVec 8) × BitVec 8 × BitVec 8} (h : TurboEncoded input K F f1 f2 output r)
    (h' : TurboEncoded input K F f1 f2 output' r') {j : Nat} (hj : j < 3 * K + 12) :
    r.1 j = r'.1 j := by
  rcases (by omega : j < 3 * K ∨ 3 * K ≤ j ∧ j < 3 * K + 6 ∨ 3 * K + 6 ≤ j) with hlt | hfirst | hsecond
  · have hplace : 3 * (j / 3) + j % 3 = j := Nat.div_add_mod j 3
    rw [← hplace, h.coded _ (by omega) _ (by omega), h'.coded _ (by omega) _ (by omega)]
  · have h1 := h.first_tail ((j - 3 * K) / 2) (by omega)
    have h2 := h'.first_tail ((j - 3 * K) / 2) (by omega)
    rcases (by omega : j = 3 * K + 2 * ((j - 3 * K) / 2) ∨ j = 3 * K + 2 * ((j - 3 * K) / 2) + 1) with
      heven | hodd
    · rw [heven, h1.1, h2.1]
    · rw [hodd, h1.2, h2.2]
  · have h1 := h.second_tail ((j - 3 * K - 6) / 2) (by omega)
    have h2 := h'.second_tail ((j - 3 * K - 6) / 2) (by omega)
    rcases (by omega : j = 3 * K + 6 + 2 * ((j - 3 * K - 6) / 2) ∨
      j = 3 * K + 6 + 2 * ((j - 3 * K - 6) / 2) + 1) with heven | hodd
    · rw [heven, h1.1, h2.1]
    · rw [hodd, h1.2, h2.2]

/-- The interleaver reads the coded cells and fewer than 96 of those before them. -/
theorem interleavingTurbo_congr {D : Nat} {d d' : Int → BitVec 8} (hD : 0 < D)
    (h : ∀ i : Int, -3 * dummyCount D ≤ i → i < 3 * D → d i = d' i) (w w' : Nat → BitVec 8) {j : Nat}
    (hj : j < 3 * cellCount D) :
    (subBlockInterleavingTurbo D d w).2.2 j = (subBlockInterleavingTurbo D d' w').2.2 j := by
  obtain ⟨k, hk, o, ho, rfl⟩ := Coding.turbo.exists_out hj
  have hadd := dummyCount_add D
  have horder := Coding.turbo.order_lt hk
  rw [subBlockInterleavingTurbo_eq, subBlockInterleavingTurbo_eq]
  simp only
  rw [stores_cell (Coding.turbo.out_distinct D) hk ho, stores_cell (Coding.turbo.out_distinct D) hk ho,
    repeated, repeated]
  by_cases hlast : Coding.turbo.source D k o = 3 * D + 2
  · rw [hlast, Function.update_self, Function.update_self]
    exact h 2 (by omega) (by omega)
  · rw [Function.update_of_ne hlast, Function.update_of_ne hlast]
    have hbounds : -3 * (dummyCount D : Int) ≤ Coding.turbo.source D k o ∧
        Coding.turbo.source D k o < 3 * D := by
      unfold Coding.source at hlast ⊢
      rcases (by omega : o = 0 ∨ o = 1 ∨ o = 2) with rfl | rfl | rfl <;>
        simp only [Coding.shift] at hlast ⊢ <;> omega
    exact h _ hbounds.1 hbounds.2

/-- The dummies of row `r` are still `LTE_NULL`, those at its beginning apart. -/
def NullsKept (m : Nat → BitVec 8) (r : Nat) : Prop :=
  ∀ i, 12 ≤ i → i < 96 → m (dRow r + i) = LTE_NULL

structure EncodedSegment (seg : Segmentation) (c : Nat → Nat → BitVec 8) (r : Nat)
    (m m' : Nat → BitVec 8) : Prop where
  code : ∀ i < 3 * seg.codedSize r, m' (dRow r + 96 + i) = segmentCode seg c r i
  repeated : m' (dRow r + 96 + (3 * seg.codedSize r + 2)) = segmentCode seg c r 2
  ring : ∀ j < 3 * cellCount (seg.codedSize r), m' (wRow r + j) = segmentRing seg c r j
  frame : ∀ a, ¬ (dRow r + 96 ≤ a ∧ a < dRow r + 96 + 3 * seg.codedSize r) →
    a ≠ dRow r + 96 + (3 * seg.codedSize r + 2) →
    ¬ (wRow r ≤ a ∧ a < wRow r + 3 * cellCount (seg.codedSize r)) → m' a = m a

theorem interleaveAt_eq {m : Nat → BitVec 8} {dBase wBase D : Nat} (hD : 0 < D)
    (hbefore : dBase + (3 * D + 2) < wBase) (a : Nat) : interleaveAt m dBase wBase D a =
      if wBase ≤ a ∧ a < wBase + 3 * cellCount D then
        (subBlockInterleavingTurbo D (fun i => m (dBase + i).toNat) fun _ => 0).2.2 (a - wBase)
      else if a = dBase + (3 * D + 2) then m (dBase + 2) else m a := by
  simp only [interleaveAt]
  have hframe := (subBlocks_turbo D (fun i => m ((dBase : Int) + i).toNat) (fun _ => 0)
    fun j => m (wBase + j)).frame
  rcases Nat.lt_or_ge a wBase with hlt | hge
  · have hbelow : ¬ wBase ≤ a := by omega
    have hbelow' : ¬ (wBase ≤ a ∧ a < wBase + 3 * cellCount D) := by omega
    rw [if_neg hbelow, if_neg hbelow', subBlockInterleavingTurbo_eq]
    simp only [repeated]
    by_cases hrep : a = dBase + (3 * D + 2)
    · have hindex : (a : Int) - dBase = 3 * D + 2 := by omega
      rw [if_pos hrep, if_pos (by omega), hindex, Function.update_self]
      rfl
    · rw [if_neg hrep, Function.update_of_ne (by omega)]
      split
      · congr 1
        omega
      · rfl
  · rw [if_pos hge]
    by_cases hin : a < wBase + 3 * cellCount D
    · rw [if_pos ⟨hge, hin⟩]
      exact interleavingTurbo_congr hD (fun _ _ _ => rfl) _ _ (by omega)
    · rw [if_neg (by omega), hframe _ (by omega), if_neg (by omega)]
      congr 1
      omega

theorem segment_room {b : Nat} {seg : Segmentation} (h : Counts b seg) {r : Nat} (hr : r < seg.C) :
    r < 3 ∧ 8 ∣ seg.size r ∧ 40 ≤ seg.size r ∧ seg.size r ≤ 6144 ∧
      seg.codedSize r = seg.size r + 4 ∧ seg.codedSize r ≤ cellCount (seg.codedSize r) ∧
        32 ∣ cellCount (seg.codedSize r) ∧ cellCount (seg.codedSize r) < seg.codedSize r + 32 := by
  obtain ⟨h8, hlegal⟩ := h.legal r hr
  have hbounds := legalLengths_bounds _ hlegal
  have hadd := dummyCount_add (seg.codedSize r)
  have hlt := dummyCount_lt (seg.codedSize r)
  have hrows : 32 ∣ cellCount (seg.codedSize r) := ⟨_, Nat.mul_comm _ _⟩
  have hC := hr.trans_le h.C_le
  unfold maxNumDlschSegments at hC
  unfold Segmentation.codedSize at *
  omega

/-- Only the last of three rows can be too short for all that follows. -/
theorem ring_fits_iff {b : Nat} {seg : Segmentation} (h : Counts b seg) {r : Nat} (hr : r < seg.C) :
    wRow r + 3 * cellCount (8 * (seg.size r / 8) + 4) ≤ wRow maxNumDlschSegments ↔
      ¬ (r = 2 ∧ seg.size 2 = 6144) := by
  obtain ⟨hr3, h8, -, hmax, hsize, hcells, hrows, hclose⟩ := segment_room h hr
  have hcoded : 8 * (seg.size r / 8) + 4 = seg.codedSize r := rfl
  simp only [hcoded, wRow, dRow, maxNumDlschSegments]
  rcases (by omega : r = 2 ∨ r < 2) with rfl | hlt
  · omega
  · omega

theorem encodeSegment_overrun {b : Nat} {seg : Segmentation} (h : Counts b seg) (hover : seg.Overruns)
    (c : Nat → Nat → BitVec 8) (m : Nat → BitVec 8) : encodeSegment seg c m 2 = none := by
  have hlast : 2 < seg.C := hover.1 ▸ Nat.lt_succ_self 2
  have hlong : ¬ wRow 2 + 3 * cellCount (8 * (seg.size 2 / 8) + 4) ≤ wRow maxNumDlschSegments := by
    rw [ring_fits_iff h hlast, not_not]
    exact ⟨rfl, hover.2⟩
  obtain ⟨f1, f2, hrow, -⟩ := f1f2matRow_of_legal (h.legal 2 hlast).2
  simp only [encodeSegment, hrow, if_neg hlong, Option.bind_eq_bind, Option.bind_some]

theorem encodedSegment {b : Nat} {seg : Segmentation} (h : Counts b seg) (c : Nat → Nat → BitVec 8)
    {r : Nat} (hr : r < seg.C) (hfits : ¬ (r = 2 ∧ seg.size 2 = 6144)) {m : Nat → BitVec 8}
    (hnulls : NullsKept m r) : ∃ m', encodeSegment seg c m r = some m' ∧ EncodedSegment seg c r m m' := by
  obtain ⟨h8, hlegal⟩ := h.legal r hr
  obtain ⟨hr3, -, hlow, hhigh, hsize, hcells, -⟩ := segment_room h hr
  obtain ⟨f1, f2, hrow, hf1, hf2, hcoprime, hdvd⟩ := f1f2matRow_of_legal hlegal
  have hcoded := fun output => turboEncoded_of_row (c r) (seg.fillers r) output hlegal hf1 hf2
    hcoprime hdvd
  have hND := dummyCount_segment (seg.size r / 8)
  have hsegment : segmentCode seg c r = (threegpplteTurboEncoder (c r) (seg.size r / 8) (fun _ => 0)
      (seg.fillers r) f1 f2).1 := by
    rw [segmentCode, hrow]
  have hsame : ∀ i < 3 * seg.codedSize r, placeAt m (dRow r + 96) (threegpplteTurboEncoder (c r)
      (seg.size r / 8) (fun i => m (dRow r + 96 + i)) (seg.fillers r) f1 f2).1 (dRow r + 96 + i) =
        segmentCode seg c r i := by
    intro i hi
    rw [placeAt, if_pos (by omega), Nat.add_sub_cancel_left, hsegment]
    exact (hcoded (fun i => m (dRow r + 96 + i))).unique (hcoded fun _ => 0) (by omega)
  have hother : ∀ a, ¬ (dRow r + 96 ≤ a ∧ a < dRow r + 96 + 3 * seg.codedSize r) →
      placeAt m (dRow r + 96) (threegpplteTurboEncoder (c r) (seg.size r / 8)
        (fun i => m (dRow r + 96 + i)) (seg.fillers r) f1 f2).1 a = m a := by
    intro a ha
    rw [placeAt]
    split
    · rw [(hcoded (fun i => m (dRow r + 96 + i))).frame _ (by omega)]
      congr 1
      omega
    · rfl
  rw [encodeSegment, hrow, Option.bind_eq_bind, Option.bind_some]
  simp only [if_pos ((ring_fits_iff h hr).mpr hfits)]
  refine ⟨_, rfl, ?_⟩
  generalize placeAt m (dRow r + 96) _ = m1 at hsame hother ⊢
  have hcodedSize : 8 * (seg.size r / 8) + 4 = seg.codedSize r := rfl
  rw [hcodedSize] at hND ⊢
  have hbefore : dRow r + 96 + (3 * seg.codedSize r + 2) < wRow r := by
    simp only [dRow, wRow, maxNumDlschSegments]
    omega
  have hcell := interleaveAt_eq (m := m1) (by omega) hbefore
  refine ⟨?_, ?_, ?_, ?_⟩
  · intro i hi
    rw [hcell, if_neg (by omega), if_neg (by omega), hsame i hi]
  · rw [hcell, if_neg (by omega), if_pos rfl, hsame 2 (by omega)]
  · intro j hj
    rw [hcell, if_pos (by omega), Nat.add_sub_cancel_left, segmentRing]
    apply interleavingTurbo_congr (by omega) _ _ _ hj
    intro i hlow hhigh
    rcases lt_or_ge i 0 with hneg | hpos
    · obtain ⟨n, hn⟩ : ∃ n : Nat, (96 : Int) + i = n := ⟨(96 + i).toNat, by omega⟩
      have hindex : ((dRow r + 96 : Nat) + i).toNat = dRow r + n := by omega
      rw [codedBlock_neg _ hneg, hindex, hother _ (by omega)]
      exact hnulls n (by omega) (by omega)
    · obtain ⟨n, rfl⟩ := Int.eq_ofNat_of_zero_le hpos
      have hindex : ((dRow r + 96 : Nat) + (n : Int)).toNat = dRow r + 96 + n := by omega
      rw [hindex, hsame n (by omega), codedBlock, if_neg (by omega), Int.toNat_natCast]
  · intro a ha hrep hring
    rw [hcell, if_neg (by omega), if_neg hrep, hother a ha]

/-! ## All segments -/

/-- What is in cell `j` of `w[r]` after `n` segments: the row of a segment of 6144 bits is too short by
96 cells. -/
def keptCell (seg : Segmentation) (c : Nat → Nat → BitVec 8) (n r j : Nat) : BitVec 8 :=
  if r + 1 < n ∧ 3 * 6144 ≤ j then segmentRing seg c (r + 1) (j - 3 * 6144)
  else segmentRing seg c r j

/-- What the first `n` segments leave in the memory `m`. -/
structure EncodedSegments (seg : Segmentation) (c : Nat → Nat → BitVec 8) (n : Nat)
    (m m' : Nat → BitVec 8) : Prop where
  /-- The next block finds the dummies that it needs. -/
  nulls : ∀ r < 3, NullsKept m' r
  rows : ∀ r < n, ∀ j < 3 * cellCount (seg.codedSize r), m' (wRow r + j) = keptCell seg c n r j
  beyond : ∀ a, wRow 3 ≤ a → m' a = m a

section Segments
variable {b : Nat} {seg : Segmentation} {c : Nat → Nat → BitVec 8} {m m' m'' : Nat → BitVec 8} {n : Nat}

theorem EncodedSegments.nulls_step (h : Counts b seg) (hn : n < seg.C)
    (hseg : EncodedSegments seg c n m m') (hstep : EncodedSegment seg c n m' m'') :
    ∀ r < 3, NullsKept m'' r := by
  intro r hr i hlow hhigh
  obtain ⟨hn3, -, -, hmax, hsize, -, -, hcells⟩ := segment_room h hn
  rw [hstep.frame]
  · exact hseg.nulls r hr i hlow hhigh
  · simp only [dRow]
    omega
  · simp only [dRow]
    omega
  · simp only [dRow, wRow, maxNumDlschSegments]
    omega

theorem EncodedSegments.rows_step (h : Counts b seg) (hn : n < seg.C)
    (hfits : ¬ (n = 2 ∧ seg.size 2 = 6144)) (hseg : EncodedSegments seg c n m m')
    (hstep : EncodedSegment seg c n m' m'') : ∀ r < n + 1, ∀ j < 3 * cellCount (seg.codedSize r),
      m'' (wRow r + j) = keptCell seg c (n + 1) r j := by
  intro r hr j hj
  obtain ⟨hn3, hn8, hnlow, hnmax, hnsize, hncells, hn32, hnclose⟩ := segment_room h hn
  rcases Nat.lt_succ_iff_lt_or_eq.mp hr with hlt | rfl
  · obtain ⟨hr3, hr8, hrlow, hrmax, hrsize, hrcells, hr32, hrclose⟩ :=
      segment_room h (by omega : r < seg.C)
    rcases (by omega : r + 1 = n ∧ 3 * 6144 ≤ j ∨ ¬ (r + 1 = n ∧ 3 * 6144 ≤ j)) with ⟨rfl, hover⟩ | hin
    · have hindex : wRow r + j = wRow (r + 1) + (j - 3 * 6144) := by
        simp only [wRow]
        omega
      rw [hindex, hstep.ring _ (by omega), keptCell, if_pos ⟨by omega, hover⟩]
    · have hlast : n = 2 → seg.size n ≠ 6144 := by
        rintro rfl hfull
        exact hfits ⟨rfl, hfull⟩
      rw [hstep.frame, hseg.rows r hlt j hj, keptCell, keptCell]
      · exact if_congr (by omega) rfl rfl
      · simp only [wRow, dRow, maxNumDlschSegments]
        omega
      · simp only [wRow, dRow, maxNumDlschSegments]
        omega
      · simp only [wRow, dRow, maxNumDlschSegments]
        omega
  · rw [hstep.ring j hj, keptCell, if_neg (by omega)]

theorem EncodedSegments.beyond_step (h : Counts b seg) (hn : n < seg.C)
    (hfits : ¬ (n = 2 ∧ seg.size 2 = 6144)) (hseg : EncodedSegments seg c n m m')
    (hstep : EncodedSegment seg c n m' m'') : ∀ a, wRow 3 ≤ a → m'' a = m a := by
  intro a ha
  obtain ⟨hn3, -, -, hmax, hsize, -⟩ := segment_room h hn
  have hroom := (ring_fits_iff h hn).mpr hfits
  have hcoded : 8 * (seg.size n / 8) + 4 = seg.codedSize n := rfl
  rw [hcoded] at hroom
  simp only [maxNumDlschSegments, wRow, dRow] at hroom ha
  rw [hstep.frame, hseg.beyond a (by simp only [maxNumDlschSegments, wRow, dRow]; omega)]
  · simp only [dRow]
    omega
  · simp only [dRow]
    omega
  · simp only [wRow, dRow, maxNumDlschSegments]
    omega

theorem encodedSegments (h : Counts b seg) (hnulls : ∀ r < 3, NullsKept m r) (hn : n ≤ seg.C)
    (hfits : ¬ (2 < n ∧ seg.size 2 = 6144)) :
    ∃ m', (List.range n).foldlM (encodeSegment seg c) m = some m' ∧ EncodedSegments seg c n m m' := by
  induction n with
  | zero => exact ⟨m, rfl, hnulls, fun r hr => absurd hr (Nat.not_lt_zero r), fun _ _ => rfl⟩
  | succ n ih =>
    obtain ⟨m', hrun, hseg⟩ := ih (by omega) (by omega)
    obtain ⟨hn3, -⟩ := segment_room h (by omega : n < seg.C)
    have hlast : ¬ (n = 2 ∧ seg.size 2 = 6144) := by omega
    obtain ⟨m'', hrun', hstep⟩ := encodedSegment h c (by omega) hlast (hseg.nulls n hn3)
    refine ⟨m'', ?_, hseg.nulls_step h (by omega) hstep, hseg.rows_step h (by omega) hlast hstep,
      hseg.beyond_step h (by omega) hlast hstep⟩
    rw [List.range_succ, List.foldlM_append, hrun]
    simp only [Option.bind_eq_bind, Option.bind_some, List.foldlM_cons, List.foldlM_nil, hrun',
      Option.pure_def]

theorem encodeSegments_overrun (h : Counts b seg) (hnulls : ∀ r < 3, NullsKept m r) (hover : seg.Overruns) :
    encodeSegments seg c m = none := by
  have hlast : 2 ≤ seg.C := hover.1 ▸ Nat.le_succ 2
  obtain ⟨m', hrun, -⟩ := encodedSegments (c := c) h hnulls hlast (by omega)
  rw [encodeSegments, hover.1, List.range_succ, List.foldlM_append, hrun]
  simp only [Option.bind_eq_bind, Option.bind_some, List.foldlM_cons, List.foldlM_nil,
    encodeSegment_overrun h hover, Option.bind_none]

end Segments

theorem counts_of_lteSegmentation {b : Nat} {seg : Segmentation}
    (h : lteSegmentation (8 * b) = some seg) : Counts b seg := by
  rcases lteSegmentation_eq b with ⟨-, hnone⟩ | ⟨-, seg', hsome, hcounts⟩
  · rw [hnone] at h
    contradiction
  · rw [hsome, Option.some.injEq] at h
    exact h ▸ hcounts

theorem overruns_iff {b : Nat} {seg : Segmentation} (h : Counts b seg) :
    seg.Overruns ↔ 2 < seg.C ∧ seg.size 2 = 6144 := by
  have hC := h.C_le
  unfold maxNumDlschSegments at hC
  exact and_congr_left fun _ => ⟨fun h3 => by omega, fun h2 => by omega⟩

def encodeBlocks (m : Nat → BitVec 8) (blocks : List (Segmentation × (Nat → Nat → BitVec 8))) :
    Option (Nat → BitVec 8) :=
  blocks.foldlM (fun m block => encodeSegments block.1 block.2 m) m

theorem encodeBlocks_nulls {m : Nat → BitVec 8} {blocks : List (Segmentation × (Nat → Nat → BitVec 8))}
    (hblocks : ∀ block ∈ blocks, ¬ block.1.Overruns ∧ ∃ b, lteSegmentation (8 * b) = some block.1)
    (hnulls : ∀ r < 3, NullsKept m r) :
    ∃ m', encodeBlocks m blocks = some m' ∧ ∀ r < 3, NullsKept m' r := by
  induction blocks generalizing m with
  | nil => exact ⟨m, rfl, hnulls⟩
  | cons block blocks ih =>
    obtain ⟨hfits, b, hb⟩ := hblocks block List.mem_cons_self
    obtain ⟨m1, hrun, hseg⟩ := encodedSegments (c := block.2) (counts_of_lteSegmentation hb) hnulls le_rfl
      (overruns_iff (counts_of_lteSegmentation hb) |>.not.mp hfits)
    obtain ⟨m2, hrest, hkept⟩ := ih (fun block' h' => hblocks block' (List.mem_cons_of_mem block h'))
      hseg.nulls
    refine ⟨m2, ?_, hkept⟩
    rw [encodeBlocks, List.foldlM_cons, encodeSegments, hrun]
    exact hrest

/-- After any blocks before it that stay within the arrays, a block does too unless it has a third segment
of 6144 bits. It leaves in the rows of `w` the rings of its segments, but for the cells by which segments
of 6144 bits run into other rows; none do when there is one segment or when all are smaller. -/
theorem encodeSegments_rows {b : Nat} {seg : Segmentation} (hsegmentation : lteSegmentation (8 * b) = some seg)
    (c : Nat → Nat → BitVec 8) {m : Nat → BitVec 8} (hnulls : ∀ r < 3, NullsKept m r)
    {blocks : List (Segmentation × (Nat → Nat → BitVec 8))}
    (hblocks : ∀ block ∈ blocks, ¬ block.1.Overruns ∧ ∃ b, lteSegmentation (8 * b) = some block.1) :
    ∃ m1, encodeBlocks m blocks = some m1 ∧ (seg.Overruns → encodeSegments seg c m1 = none) ∧
      (¬ seg.Overruns → ∃ m2, encodeSegments seg c m1 = some m2 ∧ EncodedSegments seg c seg.C m1 m2 ∧
        ((seg.C = 1 ∨ ∀ r < seg.C, seg.size r < 6144) → ∀ r < seg.C,
          ∀ j < 3 * cellCount (seg.codedSize r), m2 (wRow r + j) = segmentRing seg c r j)) := by
  have hcounts := counts_of_lteSegmentation hsegmentation
  obtain ⟨m1, hrun, hkept⟩ := encodeBlocks_nulls hblocks hnulls
  refine ⟨m1, hrun, encodeSegments_overrun hcounts hkept, ?_⟩
  intro hfits
  obtain ⟨m2, hrun', hseg⟩ := encodedSegments (c := c) hcounts hkept le_rfl
    ((overruns_iff hcounts).not.mp hfits)
  refine ⟨m2, hrun', hseg, ?_⟩
  intro hsmall r hr j hj
  obtain ⟨hr3, h8, -, hmax, hsize, -, hrows, hcells⟩ := segment_room hcounts hr
  rw [hseg.rows r hr j hj, keptCell]
  rcases hsmall with hone | hsmall
  · rw [if_neg (by omega)]
  · have hr6144 := hsmall r hr
    rw [if_neg (by omega)]

theorem encodeSegments_rows_two_segments :
    ∃ m1 m2, encodeBlocks (fun _ => LTE_NULL) [(⟨3, 1, 2, 4352, 4288, 56⟩, fun _ _ => 0xa5)] = some m1 ∧
      encodeSegments ⟨2, 2, 0, 6144, 6080, 0⟩ (fun _ _ => 0x5a) m1 = some m2 ∧
      EncodedSegments ⟨2, 2, 0, 6144, 6080, 0⟩ (fun _ _ => 0x5a) 2 m1 m2 := by
  have hblocks : ∀ block ∈ [((⟨3, 1, 2, 4352, 4288, 56⟩ : Segmentation), fun (_ _ : Nat) => (0xa5 : BitVec 8))],
      ¬ block.1.Overruns ∧ ∃ b, lteSegmentation (8 * b) = some block.1 := by
    intro block hblock
    rw [List.mem_singleton.mp hblock]
    exact ⟨fun h => absurd h.2 (by decide), 1600, by decide⟩
  obtain ⟨m1, hrun, -, hrows⟩ := encodeSegments_rows
    (by decide : lteSegmentation (8 * 1530) = some ⟨2, 2, 0, 6144, 6080, 0⟩) (fun _ _ => 0x5a)
    (m := fun _ => LTE_NULL) (fun _ _ _ _ _ => rfl) hblocks
  obtain ⟨m2, hrun', hseg, -⟩ := hrows fun h => absurd h.1 (by decide)
  exact ⟨m1, m2, hrun, hrun', hseg⟩

/-! ## The bits of a transmission -/

/-- The call of `lte_rate_matching_turbo` for segment `r`: `r_offset` and `e` afterwards. -/
def matchSegment (p : RateMatching) (RTC : Nat → Nat) (w : Nat → Nat → BitVec 8)
    (st : Nat × (Nat → BitVec 8)) (r : Nat) : Option (Nat × (Nat → BitVec 8)) := do
  let (E, e) ← lteRateMatchingTurbo { p with r := r, RTC := RTC r } (w r) st.2
  return (st.1 + E, e)

def matchSegments (p : RateMatching) (RTC : Nat → Nat) (w : Nat → Nat → BitVec 8)
    (e : Nat → BitVec 8) : Option (Nat × (Nat → BitVec 8)) :=
  (List.range p.C).foldlM (matchSegment p RTC w) (0, e)

namespace RateMatching
variable (p : RateMatching)

def bits (r : Nat) : Nat := { p with r := r }.E

def bitsBefore (r : Nat) : Nat := ((List.range r).map p.bits).sum

/-- `Gp % C`: the segments that have a symbol more in every layer. -/
def longSegments : Nat := p.G / p.Nl / p.Qm % p.C

/-- The gap before the long segments. -/
def gap : Nat := if p.longSegments = 0 then 0 else (p.C - p.longSegments) * (p.Nl * p.Qm)

/-- Where the bits of segment `r` begin. -/
def place (r : Nat) : Nat :=
  p.bitsBefore r + if r < p.C - p.longSegments then 0 else p.gap

theorem bits_eq {r : Nat} : p.bits r = p.Nl * p.Qm * (p.G / p.Nl / p.Qm / p.C) +
    if r < p.C - p.longSegments ∨ p.longSegments = 0 then 0 else p.Nl * p.Qm := by
  unfold bits E longSegments
  simp only
  split_ifs with h1 h2 h3 h4 h5 <;> first | omega | (rw [Nat.mul_add]; omega)

theorem bitsBefore_succ (r : Nat) : p.bitsBefore (r + 1) = p.bitsBefore r + p.bits r := by
  rw [bitsBefore, List.range_succ, List.map_append, List.sum_append]
  simp [bitsBefore]

theorem longSegments_lt (hC : 0 < p.C) : p.longSegments < p.C := Nat.mod_lt _ hC

theorem bitsBefore_eq (r : Nat) : p.bitsBefore r = r * (p.Nl * p.Qm * (p.G / p.Nl / p.Qm / p.C)) +
    if p.longSegments = 0 then 0 else (r - (p.C - p.longSegments)) * (p.Nl * p.Qm) := by
  induction r with
  | zero => simp [bitsBefore]
  | succ r ih =>
    rw [bitsBefore_succ, ih, bits_eq, Nat.succ_mul]
    by_cases hlong : p.longSegments = 0
    · rw [if_pos hlong, if_pos (Or.inr hlong), if_pos hlong]
      omega
    · rw [if_neg hlong, if_neg hlong]
      by_cases hr : r < p.C - p.longSegments
      · have hzero : r - (p.C - p.longSegments) = 0 := by omega
        have hzero' : r + 1 - (p.C - p.longSegments) = 0 := by omega
        rw [if_pos (Or.inl hr), hzero, hzero', Nat.zero_mul]
        omega
      · have hnext : r + 1 - (p.C - p.longSegments) = r - (p.C - p.longSegments) + 1 := by omega
        rw [if_neg (by omega), hnext, Nat.succ_mul]
        omega

/-- `r * E` is where the segment before ends, but for the gap. -/
theorem mul_bits (r : Nat) : r * p.bits r = p.place r := by
  rw [place, bitsBefore_eq, bits_eq, gap, Nat.mul_add]
  by_cases hlong : p.longSegments = 0
  · rw [if_pos (Or.inr hlong), if_pos hlong, if_pos hlong, ite_self, Nat.mul_zero]
  · rw [if_neg hlong, if_neg hlong]
    by_cases hr : r < p.C - p.longSegments
    · have hzero : r - (p.C - p.longSegments) = 0 := by omega
      rw [if_pos (Or.inl hr), if_pos hr, hzero, Nat.zero_mul, Nat.mul_zero]
    · have hsplit : r * (p.Nl * p.Qm) = (r - (p.C - p.longSegments)) * (p.Nl * p.Qm) +
          (p.C - p.longSegments) * (p.Nl * p.Qm) := by
        rw [← Nat.add_mul]
        congr 1
        omega
      rw [if_neg (by omega), if_neg hr, hsplit]
      omega

theorem bitsBefore_C (hC : 0 < p.C) :
    p.bitsBefore p.C = p.Nl * p.Qm * (p.G / p.Nl / p.Qm) := by
  have hlt := p.longSegments_lt hC
  have hdiv := Nat.div_add_mod (p.G / p.Nl / p.Qm) p.C
  have hlast : p.C - (p.C - p.longSegments) = p.longSegments := by omega
  have hsum : p.bitsBefore p.C = p.Nl * p.Qm * (p.C * (p.G / p.Nl / p.Qm / p.C) + p.longSegments) := by
    rw [bitsBefore_eq, hlast, Nat.mul_add, Nat.mul_left_comm]
    split
    · rename_i hzero
      rw [hzero, Nat.mul_zero]
    · rw [Nat.mul_comm p.longSegments]
  rw [hsum, longSegments, hdiv]

theorem place_add_bits_le {r r' : Nat} (h : r < r') : p.place r + p.bits r ≤ p.place r' := by
  have hmono : ∀ n, p.bitsBefore (r + 1) ≤ p.bitsBefore (r + 1 + n) := by
    intro n
    induction n with
    | zero => exact le_rfl
    | succ n ih => exact ih.trans (by rw [← Nat.add_assoc, bitsBefore_succ]; omega)
  have hle := hmono (r' - (r + 1))
  rw [Nat.add_sub_cancel' h, bitsBefore_succ] at hle
  unfold place
  split <;> split <;> omega

theorem gap_eq_zero_iff (hC : 0 < p.C) (hNl : 0 < p.Nl) (hQm : 0 < p.Qm) :
    p.gap = 0 ↔ p.C ∣ p.G / p.Nl / p.Qm := by
  have hlt := p.longSegments_lt hC
  rw [Nat.dvd_iff_mod_eq_zero, gap]
  change _ ↔ p.longSegments = 0
  by_cases hlong : p.longSegments = 0
  · simp [hlong]
  · have hpos : 0 < (p.C - p.longSegments) * (p.Nl * p.Qm) :=
      Nat.mul_pos (by omega) (Nat.mul_pos hNl hQm)
    rw [if_neg hlong]
    omega

theorem place_add_bits_le_iff (hC : 0 < p.C) (hNl : 0 < p.Nl) (hQm : 0 < p.Qm) :
    (∀ r < p.C, p.place r + p.bits r ≤ p.Nl * p.Qm * (p.G / p.Nl / p.Qm)) ↔
      p.C ∣ p.G / p.Nl / p.Qm := by
  have hlt := p.longSegments_lt hC
  have htotal := p.bitsBefore_C hC
  rw [← p.gap_eq_zero_iff hC hNl hQm, ← htotal]
  have hlast := p.bitsBefore_succ (p.C - 1)
  rw [Nat.sub_add_cancel hC] at hlast
  constructor
  · intro h
    have hle := h (p.C - 1) (by omega)
    rw [place] at hle
    by_cases hlong : p.longSegments = 0
    · exact if_pos hlong
    · rw [if_neg (by omega)] at hle
      omega
  · intro hgap r hr
    rcases Nat.lt_or_ge r (p.C - 1) with hlt' | hge
    · have hle := p.place_add_bits_le hlt'
      have hplace : p.place (p.C - 1) ≤ p.bitsBefore (p.C - 1) := by
        rw [place, hgap, ite_self]
        exact le_rfl
      omega
    · obtain rfl : r = p.C - 1 := by omega
      rw [place, hgap, ite_self]
      omega

end RateMatching

/-- The bits of segment `r` are `e[place r]` to `e[place r + bits r - 1]`. -/
def RateMatching.InSegment (p : RateMatching) (r i : Nat) : Prop := p.place r ≤ i ∧ i < p.place r + p.bits r

/-- What the first `n` segments leave in `e`. -/
structure MatchedSegments (p : RateMatching) (RTC : Nat → Nat) (w : Nat → Nat → BitVec 8)
    (e : Nat → BitVec 8) (n : Nat) (st : Nat × (Nat → BitVec 8)) : Prop where
  count : st.1 = p.bitsBefore n
  bits : ∀ r < n, ∀ k < p.bits r, st.2 (p.place r + k) =
    w r (bitCell (w r) (3 * (RTC r * 32)) { p with r := r, RTC := RTC r }.ind k)
  frame : ∀ i, (∀ r < n, ¬ p.InSegment r i) → st.2 i = e i

section Matched
variable {p : RateMatching} {RTC : Nat → Nat} {w : Nat → Nat → BitVec 8}

theorem RateMatching.offset_eq (hC : 0 < p.C) (hG : p.G < 2147483648)
    (hsymbols : p.C * (p.Nl * p.Qm) < 2147483648) {r : Nat} (hr : r < p.C) (RTC : Nat) :
    { p with r := r, RTC := RTC }.offset = p.place r := by
  have hbits : { p with r := r, RTC := RTC }.E = p.bits r := rfl
  have htotal := p.bitsBefore_C hC
  have hle : p.Nl * p.Qm * (p.G / p.Nl / p.Qm) ≤ p.G := by
    rw [Nat.div_div_eq_div_mul]
    exact Nat.mul_div_le p.G (p.Nl * p.Qm)
  have hgap : p.gap ≤ p.C * (p.Nl * p.Qm) := by
    unfold gap
    split
    · exact Nat.zero_le _
    · exact Nat.mul_le_mul_right _ (Nat.sub_le _ _)
  have hbefore : p.bitsBefore r ≤ p.bitsBefore p.C := by
    have hmono : ∀ n, p.bitsBefore r ≤ p.bitsBefore (r + n) := by
      intro n
      induction n with
      | zero => exact le_rfl
      | succ n ih => exact ih.trans (by rw [← Nat.add_assoc, bitsBefore_succ]; omega)
    have hr' := hmono (p.C - r)
    rwa [Nat.add_sub_cancel' hr.le] at hr'
  have hplace : p.place r ≤ p.bitsBefore p.C + p.gap := by
    unfold place
    split <;> omega
  rw [offset, hbits]
  simp only
  rw [p.mul_bits, Nat.mod_eq_of_lt (by omega)]

theorem matchSegment_eq {r : Nat} (hready : { p with r := r, RTC := RTC r }.Ready (RTC r))
    (hlive : ∃ i < 3 * (RTC r * 32), w r i ≠ LTE_NULL) (hG : p.G < 2147483648)
    (hsymbols : p.C * (p.Nl * p.Qm) < 2147483648) (hr : r < p.C) (st : Nat × (Nat → BitVec 8)) :
    matchSegment p RTC w st r = some (st.1 + p.bits r, fun i =>
      if p.place r ≤ i ∧ i < p.place r + p.bits r then w r (bitCell (w r) (3 * (RTC r * 32))
        { p with r := r, RTC := RTC r }.ind (i - p.place r)) else st.2 i) := by
  have hoffset := RateMatching.offset_eq (p := p) (by omega) hG hsymbols hr (RTC r)
  have hE : { p with r := r, RTC := RTC r }.E = p.bits r := rfl
  rw [matchSegment, lteRateMatchingTurbo_eq hready hlive, hoffset, hE]
  rfl

theorem MatchedSegments.step {e : Nat → BitVec 8} {n : Nat} {st : Nat × (Nat → BitVec 8)}
    (h : MatchedSegments p RTC w e n st) : MatchedSegments p RTC w e (n + 1) (st.1 + p.bits n, fun i =>
      if p.place n ≤ i ∧ i < p.place n + p.bits n then w n (bitCell (w n) (3 * (RTC n * 32))
        { p with r := n, RTC := RTC n }.ind (i - p.place n)) else st.2 i) := by
  refine ⟨?_, ?_, ?_⟩
  · rw [h.count, p.bitsBefore_succ]
  · intro r hr k hk
    rcases Nat.lt_succ_iff_lt_or_eq.mp hr with hlt | rfl
    · have hapart := p.place_add_bits_le hlt
      simp only
      rw [if_neg (by omega), h.bits r hlt k hk]
    · simp only
      rw [if_pos (by omega), Nat.add_sub_cancel_left]
  · intro i hi
    have hout := hi n n.lt_succ_self
    exact (if_neg hout).trans (h.frame i fun r hr => hi r (by omega))

theorem matchedSegments (hready : ∀ r < p.C, { p with r := r, RTC := RTC r }.Ready (RTC r))
    (hlive : ∀ r < p.C, ∃ i < 3 * (RTC r * 32), w r i ≠ LTE_NULL) (hG : p.G < 2147483648)
    (hsymbols : p.C * (p.Nl * p.Qm) < 2147483648) (e : Nat → BitVec 8) {n : Nat} (hn : n ≤ p.C) :
    ∃ st, (List.range n).foldlM (matchSegment p RTC w) (0, e) = some st ∧
      MatchedSegments p RTC w e n st := by
  induction n with
  | zero => exact ⟨(0, e), rfl, rfl, fun r hr => absurd hr (Nat.not_lt_zero r), fun i _ => rfl⟩
  | succ n ih =>
    obtain ⟨st, hrun, hst⟩ := ih (by omega)
    refine ⟨_, ?_, hst.step⟩
    rw [List.range_succ, List.foldlM_append, hrun]
    simp only [Option.bind_eq_bind, Option.bind_some, List.foldlM_cons, List.foldlM_nil,
      matchSegment_eq (hready n (by omega)) (hlive n (by omega)) hG hsymbols (by omega), Option.pure_def]

/-- The segments of a transmission never overlap in `e`; they follow each other without a gap, and
stay among the bits of whole symbols, exactly when the symbols can be shared out evenly. -/
theorem matchSegments_eq (hC : 0 < p.C)
    (hready : ∀ r < p.C, { p with r := r, RTC := RTC r }.Ready (RTC r))
    (hlive : ∀ r < p.C, ∃ i < 3 * (RTC r * 32), w r i ≠ LTE_NULL) (hG : p.G < 2147483648)
    (hsymbols : p.C * (p.Nl * p.Qm) < 2147483648) (e : Nat → BitVec 8) :
    ∃ st, matchSegments p RTC w e = some st ∧ MatchedSegments p RTC w e p.C st ∧
      st.1 = p.Nl * p.Qm * (p.G / p.Nl / p.Qm) ∧
      (∀ r r', r < r' → p.place r + p.bits r ≤ p.place r') ∧
      ((∀ r < p.C, p.place r + p.bits r ≤ st.1) ↔ p.C ∣ p.G / p.Nl / p.Qm) ∧
      ((∀ r < p.C, p.place r = p.bitsBefore r) ↔ p.C ∣ p.G / p.Nl / p.Qm) := by
  obtain ⟨st, hrun, hst⟩ := matchedSegments hready hlive hG hsymbols e le_rfl
  have hlast := hready 0 hC
  have hNl : 0 < p.Nl := hlast.Nl_pos
  have hQm : 0 < p.Qm := hlast.Qm_pos
  have htotal := hst.count.trans (p.bitsBefore_C hC)
  refine ⟨st, hrun, hst, htotal, fun r r' h => p.place_add_bits_le h, ?_, ?_⟩
  · rw [htotal]
    exact p.place_add_bits_le_iff hC hNl hQm
  · rw [← p.gap_eq_zero_iff hC hNl hQm]
    constructor
    · intro h
      have hshort := p.longSegments_lt hC
      by_contra hgap
      have hplace := h (p.C - 1) (by omega)
      have hlong : p.longSegments ≠ 0 := fun hzero => hgap (if_pos hzero)
      rw [RateMatching.place, if_neg (by omega)] at hplace
      omega
    · intro hgap r _
      rw [RateMatching.place, hgap, ite_self]
      rfl

end Matched

theorem matchSegments_eq_two_segments :
    let p : RateMatching := ⟨2, 602, 2, 1827072, 8, 1, 0, 2, 1, 0⟩
    ∃ st, matchSegments p (fun _ => 2) (fun _ _ => 1) (fun _ => 0) = some st ∧
      MatchedSegments p (fun _ => 2) (fun _ _ => 1) (fun _ => 0) 2 st ∧ st.1 = 1 * 2 * (602 / 1 / 2) ∧
      (∀ r r', r < r' → p.place r + p.bits r ≤ p.place r') ∧
      ((∀ r < 2, p.place r + p.bits r ≤ st.1) ↔ 2 ∣ 602 / 1 / 2) ∧
      ((∀ r < 2, p.place r = p.bitsBefore r) ↔ 2 ∣ 602 / 1 / 2) :=
  matchSegments_eq (by decide)
    (fun _ _ => ⟨rfl, Nat.two_pos, Nat.two_pos, Nat.one_pos, Nat.succ_pos 7, Nat.two_pos, Nat.one_pos,
      (by decide : 3 * (2 * 32) ≤ 1827072 / 1 / min 8 8 / 2), Nat.succ_pos 3⟩)
    (fun _ _ => ⟨0, by decide, by decide⟩) (by decide) (by decide) (fun _ => 0)

end PdmaXen.Lte
