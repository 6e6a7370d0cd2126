import PdmaXen.Lanes
import PdmaXen.Scatter
import PdmaXen.Trellis
import PdmaXen.Lte.Convolutional

/-!
# The Viterbi decoder

`viterbi_lte.cpp`: the tables of the branch metrics, and the decoder of the tail-biting code, which
passes twice over the block with the metrics of the 64 states in four registers.
-/

namespace PdmaXen.Lte
set_option autoImplicit false

open Lanes Scatter Trellis

/-! ## The source -/

/-- `w`: what an input is worth for the three bits of the code. -/
def branchWeights (in0 in1 in2 : Int) : List Int :=
  [24 - in0 - in1 - in2, 24 + in0 - in1 - in2, 24 - in0 + in1 - in2, 24 + in0 + in1 - in2,
    24 - in0 - in1 + in2, 24 + in0 - in1 + in2, 24 - in0 + in1 + in2, 24 + in0 + in1 + in2]

def branchEntry (input in0 in1 in2 state : Nat) : BitVec 8 :=
  BitVec.ofInt 8 ((branchWeights (in0 - 8) (in1 - 8) (in2 - 8)).getD
    (ccodelteTableRev (input + 2 * state)).toNat 0)

/-- The loops of `phy_generate_viterbi_tables_lte`, for one of the tables; the inputs are counted
from 0 here. -/
def branchTable (input : Nat) : Nat → BitVec 8 :=
  (List.range 16).foldl (fun table in0 => (List.range 16).foldl (fun table in1 =>
    (List.range 16).foldl (fun table in2 => (List.range 64).foldl (fun table state =>
      Function.update table ((in0 + 16 * in1 + 256 * in2) * 64 + state)
        (branchEntry input in0 in1 in2 state)) table) table) table) fun _ => 0

/-- One octet for every state, in four registers: the metrics, or an entry of `TB`. -/
structure StateBytes where
  of0_15 : Reg
  of16_31 : Reg
  of32_47 : Reg
  of48_63 : Reg

def lane (s : Nat) : Fin 16 := ⟨s % 16, Nat.mod_lt s (by omega)⟩

def StateBytes.byte (m : StateBytes) (s : Nat) : BitVec 8 :=
  if s < 16 then m.of0_15 (lane s)
  else if s < 32 then m.of16_31 (lane s)
  else if s < 48 then m.of32_47 (lane s)
  else m.of48_63 (lane s)

def tableOffset (in0 in1 in2 : BitVec 8) : Nat :=
  ((in0.toInt + 8 + (in1.toInt + 8) * 16 + (in2.toInt + 8) * 256) * 64 % 4294967296).toNat

def branchReg (input offset r : Nat) : Reg := fun i => branchTable input (offset + 16 * r + i)

/-- The greater metrics of the two ways into every state, and the four registers of `TB` that say
whether the second one is the greater. -/
def viterbiSelect (in0 in1 in2 : BitVec 8) (m : StateBytes) : StateBytes × StateBytes :=
  let table_offset := tableOffset in0 in1 in2
  let even0_30a := addsEpu8 m.of0_15 (branchReg 0 table_offset 0)
  let even32_62a := addsEpu8 m.of16_31 (branchReg 0 table_offset 1)
  let even0_30b := addsEpu8 m.of32_47 (branchReg 0 table_offset 2)
  let even32_62b := addsEpu8 m.of48_63 (branchReg 0 table_offset 3)
  let odd1_31a := addsEpu8 m.of0_15 (branchReg 1 table_offset 0)
  let odd33_63a := addsEpu8 m.of16_31 (branchReg 1 table_offset 1)
  let odd1_31b := addsEpu8 m.of32_47 (branchReg 1 table_offset 2)
  let odd33_63b := addsEpu8 m.of48_63 (branchReg 1 table_offset 3)
  let even0_30a := maxEpu8 even0_30a even0_30b
  let even32_62a := maxEpu8 even32_62a even32_62b
  let odd1_31a := maxEpu8 odd1_31a odd1_31b
  let odd33_63a := maxEpu8 odd33_63a odd33_63b
  let TBeven0_30 := cmpeqEpi8 even0_30a even0_30b
  let TBeven32_62 := cmpeqEpi8 even32_62a even32_62b
  let TBodd1_31 := cmpeqEpi8 odd1_31a odd1_31b
  let TBodd33_63 := cmpeqEpi8 odd33_63a odd33_63b
  (⟨unpackloEpi8 even0_30a odd1_31a, unpackhiEpi8 even0_30a odd1_31a,
      unpackloEpi8 even32_62a odd33_63a, unpackhiEpi8 even32_62a odd33_63a⟩,
    ⟨unpackloEpi8 TBeven0_30 TBodd1_31, unpackhiEpi8 TBeven0_30 TBodd1_31,
      unpackloEpi8 TBeven32_62 TBodd33_63, unpackhiEpi8 TBeven32_62 TBodd33_63⟩)

def StateBytes.rescaled (m : StateBytes) : StateBytes :=
  let min_state := broadcastMin (minEpu8 (minEpu8 (minEpu8 m.of0_15 m.of16_31) m.of32_47) m.of48_63)
  ⟨subsEpu8 m.of0_15 min_state, subsEpu8 m.of16_31 min_state, subsEpu8 m.of32_47 min_state,
    subsEpu8 m.of48_63 min_state⟩

structure ViterbiState where
  metrics : StateBytes
  TB : Nat → StateBytes

def viterbiPosition (y : Nat → BitVec 8) (st : ViterbiState) (position : Nat) : ViterbiState :=
  let (metrics, tb) := viterbiSelect (y (3 * position)) (y (3 * position + 1)) (y (3 * position + 2))
    st.metrics
  ⟨metrics.rescaled, Function.update st.TB position tb⟩

def viterbiPass (y : Nat → BitVec 8) (n : Nat) (st : ViterbiState) : ViterbiState :=
  (List.range n).foldl (viterbiPosition y) st

/-- The state `prev_state0` of the greatest metric; the loops over the registers are one loop here. -/
def viterbiEnd (metrics : StateBytes) : Nat :=
  ((List.range 64).foldl (fun (st : Nat × Nat) s =>
    if st.2 < (metrics.byte s).toNat then (s, (metrics.byte s).toNat) else st) (0, 0)).1

def tracebackStep (TB : Nat → StateBytes) (n : Nat) (st : Nat × (Nat → BitVec 8)) (k : Nat) :
    Nat × (Nat → BitVec 8) :=
  let position := n - 1 - k
  let (prev_state0, decoded_bytes) := st
  (if (TB position).byte prev_state0 = 0 then prev_state0 / 2 else 32 + prev_state0 / 2,
    Function.update decoded_bytes (position / 8) (decoded_bytes (position / 8) +
      (BitVec.ofNat 8 (prev_state0 % 2) <<< (7 - position % 8))))

def viterbiPasses (y : Nat → BitVec 8) (n : Nat) (TB : Nat → StateBytes) : ViterbiState :=
  viterbiPass y n (viterbiPass y n ⟨⟨fun _ => 0, fun _ => 0, fun _ => 0, fun _ => 0⟩, TB⟩)

def viterbiDecoded (y decoded_bytes : Nat → BitVec 8) (n : Nat) (TB : Nat → StateBytes) :
    Nat → BitVec 8 :=
  let st := viterbiPasses y n TB
  ((List.range n).foldl (tracebackStep st.TB n) (viterbiEnd st.metrics, decoded_bytes)).2

/-- `TB` is a static array of `4*8192` registers, whose contents before the call are given here. The
passes store beyond it when there are more positions. -/
def phyViterbiLteSse2 (y decoded_bytes : Nat → BitVec 8) (n : Nat) (TB : Nat → StateBytes) :
    Option (Nat → BitVec 8) :=
  if n ≤ 8192 then some (viterbiDecoded y decoded_bytes n TB) else none

/-! ## The table -/

def branchCell (input i : Nat) : BitVec 8 :=
  branchEntry input (i / 64 % 16) (i / 1024 % 16) (i / 16384) (i % 64)

theorem branchCell_eq (input in2 : Nat) {in0 in1 state : Nat} (h0 : in0 < 16) (h1 : in1 < 16)
    (hs : state < 64) : branchCell input ((in0 + 16 * in1 + 256 * in2) * 64 + state) =
      branchEntry input in0 in1 in2 state := by
  have hdigits : ((in0 + 16 * in1 + 256 * in2) * 64 + state) / 64 % 16 = in0 ∧
      ((in0 + 16 * in1 + 256 * in2) * 64 + state) / 1024 % 16 = in1 ∧
      ((in0 + 16 * in1 + 256 * in2) * 64 + state) / 16384 = in2 ∧
      ((in0 + 16 * in1 + 256 * in2) * 64 + state) % 64 = state := by omega
  obtain ⟨d0, d1, d2, d3⟩ := hdigits
  rw [branchCell, d0, d1, d2, d3]

theorem branchTable_eq (input : Nat) {in0 in1 in2 state : Nat} (h0 : in0 < 16) (h1 : in1 < 16)
    (h2 : in2 < 16) (hs : state < 64) :
    branchTable input ((in0 + 16 * in1 + 256 * in2) * 64 + state) =
      branchEntry input in0 in1 in2 state := by
  have hstores := StoresAt.foldl (P := fun i v => v = branchCell input i) (l := List.range 16)
    fun in0 hin0 => StoresAt.foldl (l := List.range 16) fun in1 hin1 =>
    StoresAt.foldl (l := List.range 16) fun in2 _ => StoresAt.foldl (l := List.range 64) fun state hstate =>
      StoresAt.update (branchCell_eq input in2 (List.mem_range.mp hin0) (List.mem_range.mp hin1)
        (List.mem_range.mp hstate)).symm
  have howned := (hstores (fun _ => 0) ((in0 + 16 * in1 + 256 * in2) * 64 + state)).1
    ⟨in0, List.mem_range.mpr h0, in1, List.mem_range.mpr h1, in2, List.mem_range.mpr h2, state,
      List.mem_range.mpr hs, rfl⟩
  exact howned.trans (branchCell_eq input in2 h0 h1 hs)

/-! ## The branch metrics -/

def codeSign (c : Bool) : Int := if c then 1 else -1

/-- The state and the bit that it has lost, the newest first. -/
def window (s : BitVec 6) (b : Bool) (k : Nat) : Bool := if k < 6 then s.getLsbD k else b

/-- The branch into the state `s` at position `t`, from the state that has lost `b`. -/
def branchMetric (y : Nat → BitVec 8) (n t : Nat) (s : BitVec 6) (b : Bool) : Int :=
  24 + ∑ j ∈ Finset.range 3, codeSign (codeBit j (window s b)) * (y (3 * (t % n) + j)).toInt

def Quantised (y : Nat → BitVec 8) (n : Nat) : Prop :=
  ∀ i < 3 * n, -8 ≤ (y i).toInt ∧ (y i).toInt ≤ 7

def previous (s : BitVec 6) (b : Bool) : BitVec 6 := (s.setWidth 7 ||| if b then 64 else 0).extractLsb' 1 6

theorem toNat_previous : ∀ (s : BitVec 6) (b : Bool),
    (previous s b).toNat = s.toNat / 2 + if b then 32 else 0 := by
  decide +kernel

theorem getLsbD_previous : ∀ (s : BitVec 6) (b : Bool) (k : Fin 6),
    (previous s b).getLsbD k = window s b (k + 1) := by
  decide +kernel

theorem branchWeights_getD (in0 in1 in2 : Int) (c : BitVec 8) (hc : c.toNat < 8) :
    (branchWeights in0 in1 in2).getD c.toNat 0 = 24 + codeSign (c.getLsbD 0) * in0 +
      codeSign (c.getLsbD 1) * in1 + codeSign (c.getLsbD 2) * in2 := by
  have hcases : ∀ k < 8, (branchWeights in0 in1 in2).getD k 0 = 24 + codeSign (k.testBit 0) * in0 +
      codeSign (k.testBit 1) * in1 + codeSign (k.testBit 2) * in2 := by
    intro k hk
    interval_cases k <;> simp [branchWeights, codeSign, Nat.testBit] <;> omega
  exact hcases c.toNat hc

theorem toNat_ccodelteTableRev_lt : ∀ i < 128, (ccodelteTableRev i).toNat < 8 := by
  decide +kernel

theorem testBit_window : ∀ (s : BitVec 6) (b : Bool) (k : Fin 7),
    (s.toNat % 2 + 2 * (previous s b).toNat).testBit k = window s b k := by
  decide +kernel

theorem codeSign_mul_le (c : Bool) {x : Int} (hx : -8 ≤ x ∧ x ≤ 7) :
    -8 ≤ codeSign c * x ∧ codeSign c * x ≤ 8 := by
  cases c <;> simp only [codeSign] <;> constructor <;> simp <;> omega

theorem branchMetric_bounds {y : Nat → BitVec 8} {n : Nat} (hy : Quantised y n) (hn : 0 < n) (t : Nat)
    (s : BitVec 6) (b : Bool) : 0 ≤ branchMetric y n t s b ∧ branchMetric y n t s b ≤ 48 := by
  have hpos := Nat.mod_lt t hn
  have hinput := fun j (hj : j < 3) => codeSign_mul_le (codeBit j (window s b))
    (hy (3 * (t % n) + j) (by omega))
  have h0 := hinput 0 (by omega)
  have h1 := hinput 1 (by omega)
  have h2 := hinput 2 (by omega)
  rw [branchMetric, Finset.sum_range_succ, Finset.sum_range_succ, Finset.sum_range_one]
  omega

theorem tableOffset_eq {in0 in1 in2 : BitVec 8} (h0 : -8 ≤ in0.toInt ∧ in0.toInt ≤ 7)
    (h1 : -8 ≤ in1.toInt ∧ in1.toInt ≤ 7) (h2 : -8 ≤ in2.toInt ∧ in2.toInt ≤ 7) :
    tableOffset in0 in1 in2 = ((in0.toInt + 8).toNat + 16 * (in1.toInt + 8).toNat +
      256 * (in2.toInt + 8).toNat) * 64 := by
  unfold tableOffset
  omega

theorem toNat_branchTable {y : Nat → BitVec 8} {n : Nat} (hy : Quantised y n) (hn : 0 < n) {t p : Nat}
    (hp : t % n = p) (s : BitVec 6) (b : Bool) :
    ((branchTable (s.toNat % 2) (tableOffset (y (3 * p)) (y (3 * p + 1)) (y (3 * p + 2)) +
      (previous s b).toNat)).toNat : Int) = branchMetric y n t s b := by
  have hpos := Nat.mod_lt t hn
  have h0 := hy (3 * p) (by omega)
  have h1 := hy (3 * p + 1) (by omega)
  have h2 := hy (3 * p + 2) (by omega)
  have hindex : s.toNat % 2 + 2 * (previous s b).toNat < 128 := by
    have := (previous s b).isLt
    omega
  have hcode : ∀ j < 3, (ccodelteTableRev (s.toNat % 2 + 2 * (previous s b).toNat)).getLsbD j =
      codeBit j (window s b) := by
    intro j hj
    rw [getLsbD_ccodelteTableRev _ hindex j hj]
    exact codeBit_congr j fun k hk => testBit_window s b ⟨k, hk⟩
  have hbounds := branchMetric_bounds hy hn t s b
  have hmetric : branchMetric y n t s b = 24 + codeSign (codeBit 0 (window s b)) * (y (3 * p)).toInt +
      codeSign (codeBit 1 (window s b)) * (y (3 * p + 1)).toInt +
        codeSign (codeBit 2 (window s b)) * (y (3 * p + 2)).toInt := by
    rw [branchMetric, Finset.sum_range_succ, Finset.sum_range_succ, Finset.sum_range_one, hp, Nat.add_zero,
      ← add_assoc, ← add_assoc]
  have hinputs : ∀ x : BitVec 8, -8 ≤ x.toInt → (((x.toInt + 8).toNat : Nat) : Int) - 8 = x.toInt := by
    intro x hx
    omega
  rw [tableOffset_eq h0 h1 h2, branchTable_eq _ (by omega) (by omega) (by omega) (previous s b).isLt,
    branchEntry, hinputs _ h0.1, hinputs _ h1.1, hinputs _ h2.1,
    branchWeights_getD _ _ _ _ (toNat_ccodelteTableRev_lt _ hindex), hcode 0 (by omega),
    hcode 1 (by omega), hcode 2 (by omega), ← hmetric, BitVec.toNat_ofInt]
  omega

/-! ## One position -/

def StateBytes.reg (m : StateBytes) : Nat → Reg
  | 0 => m.of0_15
  | 1 => m.of16_31
  | 2 => m.of32_47
  | _ => m.of48_63

theorem byte_eq_reg (m : StateBytes) {s : Nat} (hs : s < 64) : m.byte s = m.reg (s / 16) (lane s) := by
  interval_cases s <;> rfl

theorem byte_unpack (f : Nat → Nat → Reg) {s : Nat} (hs : s < 64) :
    (StateBytes.mk (unpackloEpi8 (f 0 0) (f 1 0)) (unpackhiEpi8 (f 0 0) (f 1 0))
      (unpackloEpi8 (f 0 1) (f 1 1)) (unpackhiEpi8 (f 0 1) (f 1 1))).byte s =
        f (s % 2) (s / 32) (lane (s / 2)) := by
  interval_cases s <;> rfl

theorem value_branchReg (input offset r : Nat) {i j : Nat} (h : 16 * r + i % 16 = j) :
    value (branchReg input offset r) (lane i) = (branchTable input (offset + j)).toNat := by
  rw [← h, ← Nat.add_assoc]
  rfl

def wayReg (m : StateBytes) (offset input r : Nat) : Reg :=
  addsEpu8 (m.reg r) (branchReg input offset r)

/-- The metric of the way into `s` from the state that has lost `b`. -/
def wayMetric (m : StateBytes) (offset : Nat) (s : BitVec 6) (b : Bool) : Nat :=
  (m.byte (previous s b).toNat).toNat +
    (branchTable (s.toNat % 2) (offset + (previous s b).toNat)).toNat

structure Selected (m : StateBytes) (offset : Nat) (out : StateBytes × StateBytes) (s : BitVec 6) :
    Prop where
  metric : (out.1.byte s.toNat).toNat = max (wayMetric m offset s false) (wayMetric m offset s true)
  traceback : out.2.byte s.toNat = 0 ↔ ¬ wayMetric m offset s false ≤ wayMetric m offset s true

theorem wayMetric_eq (m : StateBytes) (offset : Nat) (s : BitVec 6) (b : Bool) :
    value (m.reg (s.toNat / 32 + if b then 2 else 0)) (lane (s.toNat / 2)) +
      value (branchReg (s.toNat % 2) offset (s.toNat / 32 + if b then 2 else 0)) (lane (s.toNat / 2)) =
        wayMetric m offset s b := by
  have hs : s.toNat < 64 := s.isLt
  have hprev := toNat_previous s b
  have hhalf : (if b then 32 else 0) = 16 * if b then 2 else 0 := by cases b <;> rfl
  have hreg : (previous s b).toNat / 16 = s.toNat / 32 + if b then 2 else 0 := by omega
  have hlane : lane (previous s b).toNat = lane (s.toNat / 2) := by
    apply Fin.ext
    simp only [lane]
    omega
  rw [value_branchReg (j := (previous s b).toNat) _ _ _ (by omega), wayMetric,
    byte_eq_reg m (previous s b).isLt, hreg, hlane]
  rfl

theorem viterbiSelect_spec (in0 in1 in2 : BitVec 8) {m : StateBytes} {s : BitVec 6}
    (hfit : ∀ b, wayMetric m (tableOffset in0 in1 in2) s b ≤ 255) :
    Selected m (tableOffset in0 in1 in2) (viterbiSelect in0 in1 in2 m) s := by
  have hselect := addCompareSelect (wayMetric_eq m (tableOffset in0 in1 in2) s false)
    (wayMetric_eq m (tableOffset in0 in1 in2) s true) (hfit false) (hfit true)
  constructor
  · have hmax := byte_unpack (fun input r => maxEpu8 (wayReg m (tableOffset in0 in1 in2) input r)
      (wayReg m (tableOffset in0 in1 in2) input (r + 2))) s.isLt
    exact (congrArg BitVec.toNat hmax).trans hselect.1
  · have hmask := byte_unpack (fun input r => cmpeqEpi8
      (maxEpu8 (wayReg m (tableOffset in0 in1 in2) input r)
        (wayReg m (tableOffset in0 in1 in2) input (r + 2)))
      (wayReg m (tableOffset in0 in1 in2) input (r + 2))) s.isLt
    exact (iff_of_eq (congrArg (· = 0) hmask)).trans hselect.2

def StateBytes.least (m : StateBytes) : Reg :=
  minEpu8 (minEpu8 (minEpu8 m.of0_15 m.of16_31) m.of32_47) m.of48_63

theorem least_le (m : StateBytes) (r : Nat) (i : Fin 16) : value m.least i ≤ value (m.reg r) i := by
  have hleast : value m.least i = min (min (min (value m.of0_15 i) (value m.of16_31 i))
      (value m.of32_47 i)) (value m.of48_63 i) := by
    rw [StateBytes.least, value_minEpu8, value_minEpu8, value_minEpu8]
  rw [hleast]
  match r with
  | 0 => exact (min_le_left _ _).trans ((min_le_left _ _).trans (min_le_left _ _))
  | 1 => exact (min_le_left _ _).trans ((min_le_left _ _).trans (min_le_right _ _))
  | 2 => exact (min_le_left _ _).trans (min_le_right _ _)
  | _ + 3 => exact min_le_right _ _

theorem least_attained (m : StateBytes) (i : Fin 16) :
    ∃ r < 4, value m.least i = value (m.reg r) i := by
  rw [StateBytes.least, value_minEpu8, value_minEpu8, value_minEpu8]
  rcases min_choice (min (min (value m.of0_15 i) (value m.of16_31 i)) (value m.of32_47 i))
    (value m.of48_63 i) with h | h
  · rcases min_choice (min (value m.of0_15 i) (value m.of16_31 i)) (value m.of32_47 i) with h' | h'
    · rcases min_choice (value m.of0_15 i) (value m.of16_31 i) with h'' | h''
      · exact ⟨0, by omega, h.trans (h'.trans h'')⟩
      · exact ⟨1, by omega, h.trans (h'.trans h'')⟩
    · exact ⟨2, by omega, h.trans h'⟩
  · exact ⟨3, by omega, h⟩

/-- The metrics `m'` are those of `m`, less the least of them. -/
structure Rescaled (m m' : StateBytes) (c : Nat) : Prop where
  least : ∀ s < 64, c ≤ (m.byte s).toNat
  attained : ∃ s < 64, (m.byte s).toNat = c
  byte : ∀ s < 64, (m'.byte s).toNat = (m.byte s).toNat - c

theorem rescaled_spec (m : StateBytes) : ∃ c, Rescaled m m.rescaled c := by
  refine ⟨value (broadcastMin m.least) 0, ?_, ?_, ?_⟩
  · intro s hs
    rw [byte_eq_reg m hs]
    exact (broadcastMin_le m.least 0 (lane s)).trans (least_le m (s / 16) (lane s))
  · obtain ⟨k, hk⟩ := broadcastMin_attained m.least 0
    obtain ⟨r, hr, hvalue⟩ := least_attained m k
    have hs : 16 * r + k < 64 := by omega
    have hreg : (16 * r + k) / 16 = r := by omega
    have hlane : lane (16 * r + k) = k := by
      apply Fin.ext
      simp only [lane]
      omega
    refine ⟨16 * r + k, hs, ?_⟩
    rw [byte_eq_reg m hs, hreg, hlane, hk, hvalue]
    rfl
  · intro s hs
    have hreg : ∀ r, m.rescaled.reg r = subsEpu8 (m.reg r) (broadcastMin m.least) := by
      intro r
      match r with
      | 0 => rfl
      | 1 => rfl
      | 2 => rfl
      | _ + 3 => rfl
    have hsubs := value_subsEpu8 (m.reg (s / 16)) (broadcastMin m.least) (lane s)
    rw [broadcastMin_eq m.least (lane s) 0] at hsubs
    rw [byte_eq_reg m hs, byte_eq_reg m.rescaled hs, hreg]
    exact hsubs

/-! ## The spread of the metrics -/

/-- How many bits of the code two ways into states with the difference `d` differ in, where they
come from states with the same bit lost or, if `e` is set, with another one. -/
def branchWeight (d : BitVec 6) (e : Bool) : Nat :=
  ∑ j ∈ Finset.range 3, if codeBit j (window d e) then 1 else 0

/-- For every difference of two states, a number of bits of the code in which the ways into them
need not differ more often. -/
def spreadTable : List Nat :=
  [0, 3, 5, 4, 8, 5, 5, 6, 10, 9, 7, 6, 6, 7, 7, 8, 11, 11, 10, 11, 9, 8, 8, 7, 9, 6, 8, 9, 7, 9, 9, 9,
    12, 11, 10, 11, 9, 10, 10, 7, 10, 10, 9, 10, 10, 9, 9, 8, 10, 10, 8, 7, 9, 10, 10, 11, 9, 8, 9, 10,
    10, 10, 9, 9]

def spread (d : BitVec 6) : Nat := spreadTable.getD d.toNat 0

theorem spread_step : ∀ d : BitVec 6, ∃ e, branchWeight d e + spread (previous d e) ≤ spread d := by
  decide +kernel

theorem spread_le : ∀ d : BitVec 6, spread d ≤ 12 := by
  decide +kernel

theorem window_xor (s s' : BitVec 6) (b b' : Bool) (k : Nat) :
    window (s ^^^ s') (b ^^ b') k = (window s b k ^^ window s' b' k) := by
  rw [window, window, window]
  split
  · exact BitVec.getLsbD_xor
  · rfl

theorem previous_xor (s s' : BitVec 6) (b b' : Bool) :
    previous (s ^^^ s') (b ^^ b') = previous s b ^^^ previous s' b' := by
  apply BitVec.eq_of_getLsbD_eq
  intro k hk
  rw [BitVec.getLsbD_xor, getLsbD_previous _ _ ⟨k, hk⟩, getLsbD_previous _ _ ⟨k, hk⟩,
    getLsbD_previous _ _ ⟨k, hk⟩, window_xor]

theorem branchMetric_le {y : Nat → BitVec 8} {n : Nat} (hy : Quantised y n) (hn : 0 < n) (t : Nat)
    (s s' : BitVec 6) (b b' : Bool) : branchMetric y n t s' b' ≤
      branchMetric y n t s b + 16 * branchWeight (s ^^^ s') (b ^^ b') := by
  have hpos := Nat.mod_lt t hn
  have hbit : ∀ j ∈ Finset.range 3, codeSign (codeBit j (window s' b')) * (y (3 * (t % n) + j)).toInt ≤
      codeSign (codeBit j (window s b)) * (y (3 * (t % n) + j)).toInt +
        16 * (if codeBit j (window (s ^^^ s') (b ^^ b')) then 1 else 0) := by
    intro j hj
    have hinput := hy (3 * (t % n) + j) (by
      have := Finset.mem_range.mp hj
      omega)
    have hxor : codeBit j (window (s ^^^ s') (b ^^ b')) =
        (codeBit j (window s b) ^^ codeBit j (window s' b')) := by
      rw [← codeBit_xor]
      exact codeBit_congr j fun k _ => window_xor s s' b b' k
    rw [hxor]
    generalize (y (3 * (t % n) + j)).toInt = x at hinput ⊢
    cases codeBit j (window s b) <;> cases codeBit j (window s' b') <;> simp [codeSign] <;> omega
  have hsum := Finset.sum_le_sum hbit
  rw [Finset.sum_add_distrib, ← Finset.mul_sum] at hsum
  have hweight : ((branchWeight (s ^^^ s') (b ^^ b') : Nat) : Int) =
      ∑ j ∈ Finset.range 3, if codeBit j (window (s ^^^ s') (b ^^ b')) then 1 else 0 := by
    rw [branchWeight, Nat.cast_sum]
    apply Finset.sum_congr rfl
    intro j _
    split <;> rfl
  rw [branchMetric, branchMetric, hweight]
  omega

/-- The value of the best way into `s` before position `t` of the passes. -/
def bestMetric (y : Nat → BitVec 8) (n : Nat) : Nat → BitVec 6 → Int :=
  best previous (fun _ => 0) (branchMetric y n)

/-- How far the metrics of two states can be apart. -/
def metricGap (s s' : BitVec 6) : Int := 16 * spread (s ^^^ s')

/-- Every way into a state has a counterpart into another one, which is as near as the spread says. -/
theorem metricGap_step {y : Nat → BitVec 8} {n : Nat} (hy : Quantised y n) (hn : 0 < n) (t : Nat)
    (s s' : BitVec 6) (b' : Bool) : ∃ b, branchMetric y n t s' b' +
      metricGap (previous s b) (previous s' b') ≤ branchMetric y n t s b + metricGap s s' := by
  obtain ⟨e, he⟩ := spread_step (s ^^^ s')
  refine ⟨e ^^ b', ?_⟩
  have hb : ((e ^^ b') ^^ b') = e := by cases e <;> cases b' <;> rfl
  have hle := branchMetric_le hy hn t s s' (e ^^ b') b'
  have hprev := previous_xor s s' (e ^^ b') b'
  rw [hb] at hle hprev
  rw [metricGap, metricGap, ← hprev]
  omega

theorem bestMetric_spread {y : Nat → BitVec 8} {n : Nat} (hy : Quantised y n) (hn : 0 < n) (t : Nat)
    (s s' : BitVec 6) : bestMetric y n t s' ≤ bestMetric y n t s + 192 := by
  have hstart : ∀ s s' : BitVec 6, (0 : Int) ≤ 0 + metricGap s s' := by
    intro s s'
    rw [metricGap]
    omega
  have hspread := best_spread hstart (metricGap_step hy hn) t s s'
  have hle := spread_le (s ^^^ s')
  rw [metricGap] at hspread
  rw [bestMetric]
  omega

/-! ## The passes -/

/-- The metrics before position `t` of the passes are the values of the best ways, less the least of
them. -/
structure Tracks (y : Nat → BitVec 8) (n t : Nat) (m : StateBytes) (c : Int) : Prop where
  metric : ∀ s : BitVec 6, ((m.byte s.toNat).toNat : Int) = bestMetric y n t s - c
  zero : ∃ s : BitVec 6, (m.byte s.toNat).toNat = 0

theorem Tracks.byte_le {y : Nat → BitVec 8} {n t : Nat} {m : StateBytes} {c : Int}
    (h : Tracks y n t m c) (hy : Quantised y n) (hn : 0 < n) (s : BitVec 6) :
    (m.byte s.toNat).toNat ≤ 192 := by
  obtain ⟨s₀, hzero⟩ := h.zero
  have hspread := bestMetric_spread hy hn t s₀ s
  have hs := h.metric s
  have hs₀ := h.metric s₀
  omega

theorem Tracks.way {y : Nat → BitVec 8} {n t p : Nat} {m : StateBytes} {c : Int} (h : Tracks y n t m c)
    (hy : Quantised y n) (hn : 0 < n) (hp : t % n = p) (s : BitVec 6) (b : Bool) :
    (wayMetric m (tableOffset (y (3 * p)) (y (3 * p + 1)) (y (3 * p + 2))) s b : Int) =
      bestMetric y n t (previous s b) - c + branchMetric y n t s b := by
  rw [wayMetric, Nat.cast_add, h.metric, toNat_branchTable hy hn hp]

def Traces (y : Nat → BitVec 8) (n t : Nat) (tb : StateBytes) : Prop :=
  ∀ s : BitVec 6, tb.byte s.toNat = 0 ↔ choice previous (fun _ => 0) (branchMetric y n) t s = false

theorem Tracks.step {y : Nat → BitVec 8} {n t p : Nat} {m : StateBytes} {c : Int} (h : Tracks y n t m c)
    (hy : Quantised y n) (hn : 0 < n) (hp : t % n = p) :
    (∃ c', Tracks y n (t + 1)
      (viterbiSelect (y (3 * p)) (y (3 * p + 1)) (y (3 * p + 2)) m).1.rescaled c') ∧
        Traces y n t (viterbiSelect (y (3 * p)) (y (3 * p + 1)) (y (3 * p + 2)) m).2 := by
  have hselect := fun s => viterbiSelect_spec (y (3 * p)) (y (3 * p + 1)) (y (3 * p + 2)) (m := m)
    (s := s) (by
      intro b
      have hbyte := h.byte_le hy hn (previous s b)
      have hmetric := h.metric (previous s b)
      have hbranch := branchMetric_bounds hy hn t s b
      have hway := h.way hy hn hp s b
      omega)
  have hway := fun s b => h.way hy hn hp s b
  generalize viterbiSelect (y (3 * p)) (y (3 * p + 1)) (y (3 * p + 2)) m = out at hselect ⊢
  generalize tableOffset (y (3 * p)) (y (3 * p + 1)) (y (3 * p + 2)) = offset at hselect hway
  have hunscaled : ∀ s : BitVec 6, ((out.1.byte s.toNat).toNat : Int) = bestMetric y n (t + 1) s - c := by
    intro s
    have hbest : bestMetric y n (t + 1) s = max
        (bestMetric y n t (previous s false) + branchMetric y n t s false)
        (bestMetric y n t (previous s true) + branchMetric y n t s true) := rfl
    rw [(hselect s).metric, hbest, Nat.cast_max, hway, hway]
    omega
  constructor
  · obtain ⟨c', hscale⟩ := rescaled_spec out.1
    refine ⟨c + c', ?_, ?_⟩
    · intro s
      have hleast := hscale.least s.toNat s.isLt
      have hbyte := hscale.byte s.toNat s.isLt
      have hs := hunscaled s
      omega
    · obtain ⟨s, hs, hattained⟩ := hscale.attained
      have hbyte := hscale.byte s hs
      refine ⟨BitVec.ofNat 6 s, ?_⟩
      rw [BitVec.toNat_ofNat, Nat.mod_eq_of_lt hs]
      omega
  · intro s
    have hfalse := hway s false
    have htrue := hway s true
    have hchoice : choice previous (fun _ => 0) (branchMetric y n) t s =
        decide (bestMetric y n t (previous s false) + branchMetric y n t s false ≤
          bestMetric y n t (previous s true) + branchMetric y n t s true) := rfl
    rw [(hselect s).traceback, hchoice, decide_eq_false_iff_not]
    omega

structure PassedTo (y : Nat → BitVec 8) (n t p : Nat) (st : ViterbiState) : Prop where
  metrics : ∃ c, Tracks y n (t + p) st.metrics c
  traces : ∀ q < p, Traces y n (t + q) (st.TB q)

theorem PassedTo.step {y : Nat → BitVec 8} {n t p : Nat} {st : ViterbiState} (h : PassedTo y n t p st)
    (hy : Quantised y n) (hp : p < n) (ht : t % n = 0) :
    PassedTo y n t (p + 1) (viterbiPosition y st p) := by
  obtain ⟨c, htracks⟩ := h.metrics
  have hplace : (t + p) % n = p := by
    rw [Nat.add_mod, ht, Nat.zero_add, Nat.mod_mod, Nat.mod_eq_of_lt hp]
  obtain ⟨hmetrics, htrace⟩ := htracks.step hy (by omega) hplace
  refine ⟨hmetrics, ?_⟩
  intro q hq
  rcases Nat.lt_succ_iff_lt_or_eq.mp hq with hlt | rfl
  · have hother : (viterbiPosition y st p).TB q = st.TB q := Function.update_of_ne (by omega) _ _
    rw [hother]
    exact h.traces q hlt
  · have hself : (viterbiPosition y st q).TB q =
        (viterbiSelect (y (3 * q)) (y (3 * q + 1)) (y (3 * q + 2)) st.metrics).2 :=
      Function.update_self _ _ _
    rw [hself]
    exact htrace

theorem viterbiPass_spec {y : Nat → BitVec 8} {n t : Nat} (hy : Quantised y n) (ht : t % n = 0)
    {st : ViterbiState} (h : ∃ c, Tracks y n t st.metrics c) :
    PassedTo y n t n (viterbiPass y n st) := by
  have hrun : ∀ p ≤ n, PassedTo y n t p ((List.range p).foldl (viterbiPosition y) st) := by
    intro p hp
    induction p with
    | zero => exact ⟨h, fun q hq => absurd hq (Nat.not_lt_zero q)⟩
    | succ p ih =>
      rw [List.range_succ, List.foldl_append, List.foldl_cons, List.foldl_nil]
      exact (ih (by omega)).step hy hp ht
  exact hrun n le_rfl

/-! ## The way back -/

theorem viterbiEnd_spec (m : StateBytes) : viterbiEnd m < 64 ∧
    ∀ s < 64, (m.byte s).toNat ≤ (m.byte (viterbiEnd m)).toNat := by
  have hrun : ∀ k ≤ 64, ∀ st, st = (List.range k).foldl (fun (st : Nat × Nat) s =>
      if st.2 < (m.byte s).toNat then (s, (m.byte s).toNat) else st) (0, 0) →
        st.1 < 64 ∧ st.2 ≤ (m.byte st.1).toNat ∧ ∀ s < k, (m.byte s).toNat ≤ st.2 := by
    intro k
    induction k with
    | zero =>
      rintro - st rfl
      exact ⟨Nat.zero_lt_succ 63, Nat.zero_le _, fun s hs => absurd hs (Nat.not_lt_zero s)⟩
    | succ k ih =>
      rintro hk st rfl
      obtain ⟨hlt, hle, hall⟩ := ih (by omega) _ rfl
      rw [List.range_succ, List.foldl_append, List.foldl_cons, List.foldl_nil]
      generalize (List.range k).foldl (fun (st : Nat × Nat) s =>
        if st.2 < (m.byte s).toNat then (s, (m.byte s).toNat) else st) (0, 0) = st at hlt hle hall ⊢
      split
      · rename_i hgreater
        refine ⟨by omega, le_rfl, ?_⟩
        intro s hs
        rcases Nat.lt_succ_iff_lt_or_eq.mp hs with hearlier | rfl
        · exact (hall s hearlier).trans hgreater.le
        · exact le_rfl
      · rename_i hnot
        refine ⟨hlt, hle, ?_⟩
        intro s hs
        rcases Nat.lt_succ_iff_lt_or_eq.mp hs with hearlier | rfl
        · exact hall s hearlier
        · omega
  obtain ⟨hlt, hle, hall⟩ := hrun 64 le_rfl _ rfl
  exact ⟨hlt, fun s hs => (hall s hs).trans hle⟩

theorem getLsbD_add_bit {x : BitVec 8} {i : Nat} (hi : i < 8) (hx : x.getLsbD i = false) (c j : Nat) :
    (x + (BitVec.ofNat 8 (c % 2) <<< i)).getLsbD j = if j = i then decide (c % 2 = 1) else x.getLsbD j := by
  rcases Nat.mod_two_eq_zero_or_one c with hc | hc
  · have hzero : (BitVec.ofNat 8 (c % 2) <<< i) = 0#8 := by
      rw [hc]
      exact BitVec.zero_shiftLeft i
    rw [hzero, BitVec.add_zero]
    split
    · rename_i heq
      rw [heq, hx, hc]
      rfl
    · rfl
  · have hpow : (BitVec.ofNat 8 (c % 2) <<< i) = BitVec.twoPow 8 i := by
      rw [hc]
      exact (BitVec.twoPow_eq 8 i).symm
    have hdisjoint : x &&& BitVec.twoPow 8 i = 0#8 := by
      rw [BitVec.and_twoPow, hx]
      rfl
    rw [hpow, BitVec.add_eq_or_of_and_eq_zero _ _ hdisjoint, BitVec.getLsbD_or, BitVec.getLsbD_twoPow]
    by_cases heq : j = i
    · rw [if_pos heq, heq, hx, hc, decide_eq_true hi]
      simp
    · rw [if_neg heq, decide_eq_false (Ne.symm heq), Bool.and_false, Bool.or_false]

theorem bitAt_addBit {out : Nat → BitVec 8} {p : Nat} (hp : bitAt out p = false) (c q : Nat) :
    bitAt (Function.update out (p / 8) (out (p / 8) + (BitVec.ofNat 8 (c % 2) <<< (7 - p % 8)))) q =
      if q = p then decide (c % 2 = 1) else bitAt out q := by
  have hbit : ∀ (out : Nat → BitVec 8) (q : Nat), bitAt out q = (out (q / 8)).getLsbD (7 - q % 8) := by
    intro out q
    rw [bitAt, BitVec.getMsbD, decide_eq_true (Nat.mod_lt q (by omega)), Bool.true_and]
  rw [hbit] at hp ⊢
  rw [hbit out q]
  by_cases hoctet : q / 8 = p / 8
  · rw [hoctet, Function.update_self, getLsbD_add_bit (by omega) hp]
    have hsame : 7 - q % 8 = 7 - p % 8 ↔ q = p := by omega
    exact if_congr hsame rfl rfl
  · have hne : q ≠ p := fun heq => hoctet (heq ▸ rfl)
    rw [Function.update_of_ne hoctet, if_neg hne]

structure TracedBack (y : Nat → BitVec 8) (n : Nat) (s : BitVec 6) (decoded : Nat → BitVec 8) (k : Nat)
    (st : Nat × (Nat → BitVec 8)) : Prop where
  state : st.1 = (trace previous (fun _ => 0) (branchMetric y n) (n + n) s k).toNat
  bits : ∀ p, bitAt st.2 p = if n ≤ p + k ∧ p < n then
    (trace previous (fun _ => 0) (branchMetric y n) (n + n) s (n - 1 - p)).getLsbD 0 else bitAt decoded p

theorem TracedBack.step {y : Nat → BitVec 8} {n : Nat} {s : BitVec 6} {decoded : Nat → BitVec 8} {k : Nat}
    {st : Nat × (Nat → BitVec 8)} (h : TracedBack y n s decoded k st) (hk : k < n)
    {TB : Nat → StateBytes} (hTB : ∀ q < n, Traces y n (n + q) (TB q))
    (hclear : ∀ p < n, bitAt decoded p = false) :
    TracedBack y n s decoded (k + 1) (tracebackStep TB n st k) := by
  have htime : n + (n - 1 - k) = n + n - (k + 1) := by omega
  have hchoice := hTB (n - 1 - k) (by omega)
    (trace previous (fun _ => 0) (branchMetric y n) (n + n) s k)
  have hprev := toNat_previous (trace previous (fun _ => 0) (branchMetric y n) (n + n) s k)
    (choice previous (fun _ => 0) (branchMetric y n) (n + n - (k + 1))
      (trace previous (fun _ => 0) (branchMetric y n) (n + n) s k))
  have hbefore : bitAt st.2 (n - 1 - k) = false := by
    rw [h.bits, if_neg (by omega)]
    exact hclear _ (by omega)
  have hlowest : ∀ x : BitVec 6, decide (x.toNat % 2 = 1) = x.getLsbD 0 := by
    decide
  rw [htime, ← h.state] at hchoice
  constructor
  · rw [trace, hprev, ← h.state]
    simp only [tracebackStep]
    by_cases hbit : (TB (n - 1 - k)).byte st.1 = 0
    · rw [if_pos hbit, hchoice.mp hbit]
      rfl
    · have htrue := Bool.eq_true_of_not_eq_false fun hfalse => hbit (hchoice.mpr hfalse)
      rw [if_neg hbit, htrue, Nat.add_comm]
      rfl
  · intro p
    have hstored := bitAt_addBit hbefore st.1 p
    rw [h.bits] at hstored
    refine hstored.trans ?_
    by_cases hp : p = n - 1 - k
    · have hindex : n - 1 - p = k := by omega
      rw [if_pos hp, if_pos (by omega), hindex, h.state, hlowest]
    · rw [if_neg hp]
      have hiff : (n ≤ p + k ∧ p < n) ↔ (n ≤ p + (k + 1) ∧ p < n) := by omega
      exact if_congr hiff rfl rfl

theorem traceback_spec {y : Nat → BitVec 8} {n : Nat} (s : BitVec 6) {decoded : Nat → BitVec 8}
    {TB : Nat → StateBytes} (hTB : ∀ q < n, Traces y n (n + q) (TB q))
    (hclear : ∀ p < n, bitAt decoded p = false) :
    TracedBack y n s decoded n ((List.range n).foldl (tracebackStep TB n) (s.toNat, decoded)) := by
  have hrun : ∀ k ≤ n, TracedBack y n s decoded k
      ((List.range k).foldl (tracebackStep TB n) (s.toNat, decoded)) := by
    intro k hk
    induction k with
    | zero => exact ⟨rfl, fun p => (if_neg (by omega)).symm⟩
    | succ k ih =>
      rw [List.range_succ, List.foldl_append, List.foldl_cons, List.foldl_nil]
      exact (ih (by omega)).step hk hTB hclear
  exact hrun n le_rfl

theorem viterbiPasses_spec {y : Nat → BitVec 8} {n : Nat} (hy : Quantised y n) (TB : Nat → StateBytes) :
    PassedTo y n n n (viterbiPasses y n TB) := by
  have hzero : ∀ s : BitVec 6, ((⟨fun _ => 0, fun _ => 0, fun _ => 0, fun _ => 0⟩ : StateBytes).byte
      s.toNat).toNat = 0 := by
    intro s
    rw [StateBytes.byte]
    split_ifs <;> rfl
  have hstart : ∃ c, Tracks y n 0 ⟨fun _ => 0, fun _ => 0, fun _ => 0, fun _ => 0⟩ c := by
    refine ⟨0, fun s => ?_, 0, hzero 0⟩
    rw [hzero]
    rfl
  have hfirst := (@viterbiPass_spec y n 0 hy (Nat.zero_mod n) ⟨_, TB⟩ hstart).metrics
  rw [Nat.zero_add] at hfirst
  exact viterbiPass_spec hy (Nat.mod_self n) hfirst

theorem viterbiDecoded_spec {y : Nat → BitVec 8} {n : Nat} (hy : Quantised y n)
    {decoded : Nat → BitVec 8} (hclear : ∀ p < n, bitAt decoded p = false) (TB : Nat → StateBytes) :
    ∃ s : BitVec 6, (∀ s', bestMetric y n (n + n) s' ≤ bestMetric y n (n + n) s) ∧
      ∀ p, bitAt (viterbiDecoded y decoded n TB) p = if p < n then
        (trace previous (fun _ => 0) (branchMetric y n) (n + n) s (n - 1 - p)).getLsbD 0
          else bitAt decoded p := by
  have hpasses := viterbiPasses_spec hy TB
  rw [viterbiDecoded]
  generalize viterbiPasses y n TB = st at hpasses
  obtain ⟨c, htracks⟩ := hpasses.metrics
  obtain ⟨hlt, hgreatest⟩ := viterbiEnd_spec st.metrics
  have htoNat : (BitVec.ofNat 6 (viterbiEnd st.metrics)).toNat = viterbiEnd st.metrics := by
    rw [BitVec.toNat_ofNat, Nat.mod_eq_of_lt hlt]
  have htraced := traceback_spec (BitVec.ofNat 6 (viterbiEnd st.metrics)) hpasses.traces hclear
  rw [htoNat] at htraced
  refine ⟨BitVec.ofNat 6 (viterbiEnd st.metrics), ?_, ?_⟩
  · intro s'
    have hend := htracks.metric (BitVec.ofNat 6 (viterbiEnd st.metrics))
    have hother := htracks.metric s'
    have hle := hgreatest s'.toNat s'.isLt
    rw [htoNat] at hend
    omega
  · intro p
    refine (htraced.bits p).trans (if_congr ?_ rfl rfl)
    omega

/-! ## The sequences of bits -/

/-- The state before the bit `u (t + 6)`: the six bits before it, the newest in the lowest place. -/
def stateAt (u : Nat → Bool) (t : Nat) : BitVec 6 :=
  ((((((BitVec.nil.concat (u t)).concat (u (t + 1))).concat (u (t + 2))).concat (u (t + 3))).concat
    (u (t + 4))).concat (u (t + 5)))

theorem getLsbD_stateAt (u : Nat → Bool) (t : Nat) {k : Nat} (hk : k < 6) :
    (stateAt u t).getLsbD k = u (t + 5 - k) := by
  interval_cases k <;> simp [stateAt]

theorem window_stateAt (u : Nat → Bool) (t : Nat) {k : Nat} (hk : k < 7) :
    window (stateAt u (t + 1)) (u t) k = u (t + 6 - k) := by
  rw [window]
  split
  · rename_i hlt
    exact getLsbD_stateAt u (t + 1) hlt
  · rename_i hge
    have hindex : t + 6 - k = t := by omega
    rw [hindex]

theorem previous_stateAt (u : Nat → Bool) (t : Nat) :
    previous (stateAt u (t + 1)) (u t) = stateAt u t := by
  apply BitVec.eq_of_getLsbD_eq
  intro k hk
  have hindex : t + 6 - (k + 1) = t + 5 - k := by omega
  have hwindow := window_stateAt u t (k := k + 1) (by omega)
  rw [getLsbD_previous _ _ ⟨k, hk⟩, getLsbD_stateAt u t hk, ← hindex]
  exact hwindow

theorem exists_bits {N : Nat} {σ : Nat → BitVec 6} {c : Nat → Bool} (h : Path previous N σ c) :
    ∃ u : Nat → Bool, (∀ t ≤ N, σ t = stateAt u t) ∧ ∀ t < N, c t = u t := by
  have hstates : ∀ t ≤ N, σ t = stateAt
      (fun i => if i < 6 then (σ 0).getLsbD (5 - i) else (σ (i - 5)).getLsbD 0) t := by
    intro t ht
    induction t with
    | zero =>
      apply BitVec.eq_of_getLsbD_eq
      intro k hk
      have hindex : 5 - (0 + 5 - k) = k := by omega
      rw [getLsbD_stateAt _ _ hk, if_pos (by omega), hindex]
    | succ t ih =>
      apply BitVec.eq_of_getLsbD_eq
      intro k hk
      rw [getLsbD_stateAt _ _ hk]
      rcases Nat.eq_zero_or_pos k with rfl | hpos
      · have hindex : t + 1 + 5 - 0 - 5 = t + 1 := by omega
        rw [if_neg (by omega), hindex]
      · have hbefore := getLsbD_stateAt
          (fun i => if i < 6 then (σ 0).getLsbD (5 - i) else (σ (i - 5)).getLsbD 0) t
          (k := k - 1) (by omega)
        have hindex : t + 5 - (k - 1) = t + 1 + 5 - k := by omega
        have hplace : k - 1 + 1 = k := by omega
        have hwindow := getLsbD_previous (σ (t + 1)) (c t) ⟨k - 1, by omega⟩
        simp only [hplace] at hwindow
        rw [← ih (by omega), h t (by omega), hwindow, window, if_pos hk, hindex] at hbefore
        exact hbefore
  refine ⟨_, hstates, ?_⟩
  intro t ht
  have hlost := getLsbD_previous (σ (t + 1)) (c t) ⟨5, by omega⟩
  rw [← h t ht, hstates t ht.le] at hlost
  have hwindow : window (σ (t + 1)) (c t) (5 + 1) = c t := if_neg (by omega)
  rw [← hwindow, ← hlost, getLsbD_stateAt _ t (by omega), Nat.add_sub_cancel]

/-- How well the code of the bits `u`, twice over the block, agrees with the inputs. -/
def correlation (y : Nat → BitVec 8) (n : Nat) (u : Nat → Bool) : Int :=
  ∑ t ∈ Finset.range (n + n), ∑ j ∈ Finset.range 3,
    codeSign (codeBit j fun k => u (t + 6 - k)) * (y (3 * (t % n) + j)).toInt

theorem value_stateAt (y : Nat → BitVec 8) (n : Nat) (u : Nat → Bool) :
    value (fun _ => 0) (branchMetric y n) (n + n) (stateAt u) u =
      24 * (n + n : Nat) + correlation y n u := by
  have hbranch : ∀ t, branchMetric y n t (stateAt u (t + 1)) (u t) = 24 + ∑ j ∈ Finset.range 3,
      codeSign (codeBit j fun k => u (t + 6 - k)) * (y (3 * (t % n) + j)).toInt := by
    intro t
    rw [branchMetric]
    congr 1
    apply Finset.sum_congr rfl
    intro j _
    rw [codeBit_congr j fun k hk => window_stateAt u t hk]
  rw [Trellis.value, Finset.sum_congr rfl fun t _ => hbranch t, Finset.sum_add_distrib, Finset.sum_const,
    Finset.card_range, correlation, nsmul_eq_mul, mul_comm]
  omega

theorem correlation_le_bestMetric (y : Nat → BitVec 8) (n : Nat) (v : Nat → Bool) :
    24 * (n + n : Nat) + correlation y n v ≤ bestMetric y n (n + n) (stateAt v (n + n)) := by
  have hv : Path previous (n + n) (stateAt v) v := fun t _ => (previous_stateAt v t).symm
  rw [← value_stateAt]
  exact value_le_best hv

theorem viterbiDecoded_bits {y : Nat → BitVec 8} {n : Nat} (hy : Quantised y n)
    {decoded : Nat → BitVec 8} (hclear : ∀ p < n, bitAt decoded p = false) (TB : Nat → StateBytes) :
    ∃ u : Nat → Bool, (∀ p, bitAt (viterbiDecoded y decoded n TB) p =
        if p < n then u (n + p + 6) else bitAt decoded p) ∧
      ∀ s, bestMetric y n (n + n) s ≤ 24 * (n + n : Nat) + correlation y n u := by
  obtain ⟨s, hgreatest, hdecoded⟩ := viterbiDecoded_spec hy hclear TB
  have hpath : Path previous (n + n) (traced previous (fun _ => 0) (branchMetric y n) (n + n) s)
      (tracedChoice previous (fun _ => 0) (branchMetric y n) (n + n) s) := traced_path (n + n) s
  obtain ⟨u, hstates, hchoices⟩ := exists_bits hpath
  refine ⟨u, ?_, ?_⟩
  · intro p
    rw [hdecoded]
    by_cases hp : p < n
    · have hindex : n + n - (n + p + 1) = n - 1 - p := by omega
      have hbit : n + p + 1 + 5 - 0 = n + p + 6 := by omega
      have hstate := hstates (n + p + 1) (by omega)
      rw [traced, hindex] at hstate
      rw [if_pos hp, if_pos hp, hstate, getLsbD_stateAt u _ (by omega), hbit]
    · rw [if_neg hp, if_neg hp]
  · intro s'
    have hvalue : Trellis.value (fun _ => 0) (branchMetric y n) (n + n)
        (traced previous (fun _ => 0) (branchMetric y n) (n + n) s)
        (tracedChoice previous (fun _ => 0) (branchMetric y n) (n + n) s) =
          Trellis.value (fun _ => 0) (branchMetric y n) (n + n) (stateAt u) u := by
      rw [Trellis.value, Trellis.value]
      congr 1
      apply Finset.sum_congr rfl
      intro t ht
      have hlt := Finset.mem_range.mp ht
      rw [hstates (t + 1) hlt, hchoices t hlt]
    rw [← value_stateAt, ← hvalue, value_traced]
    exact hgreatest s'

/-- The block is decoded to the second round of bits whose code agrees best with the inputs, twice
over the block. -/
theorem phyViterbiLteSse2_best {y : Nat → BitVec 8} {n : Nat} (hn : n ≤ 8192) (hy : Quantised y n)
    {decoded : Nat → BitVec 8} (hclear : ∀ p < n, bitAt decoded p = false) (TB : Nat → StateBytes) :
    ∃ (out : Nat → BitVec 8) (u : Nat → Bool), phyViterbiLteSse2 y decoded n TB = some out ∧
      (∀ p, bitAt out p = if p < n then u (n + p + 6) else bitAt decoded p) ∧
      ∀ v : Nat → Bool, correlation y n v ≤ correlation y n u := by
  obtain ⟨u, hdecoded, hgreatest⟩ := viterbiDecoded_bits hy hclear TB
  refine ⟨_, u, if_pos hn, hdecoded, ?_⟩
  intro v
  have hle := (correlation_le_bestMetric y n v).trans (hgreatest _)
  omega

theorem phyViterbiLteSse2_best_eight_bits : Quantised (fun i => if i % 2 = 0 then 7 else -8) 8 ∧
    (∀ p < 8, bitAt (fun _ => 0) p = false) ∧ ∃ (out : Nat → BitVec 8) (u : Nat → Bool),
      phyViterbiLteSse2 (fun i => if i % 2 = 0 then 7 else -8) (fun _ => 0) 8
        (fun _ => ⟨fun _ => 0, fun _ => 0, fun _ => 0, fun _ => 0⟩) = some out ∧
      (∀ p, bitAt out p = if p < 8 then u (8 + p + 6) else bitAt (fun _ => 0) p) ∧
      ∀ v : Nat → Bool, correlation (fun i => if i % 2 = 0 then 7 else -8) 8 v ≤
        correlation (fun i => if i % 2 = 0 then 7 else -8) 8 u :=
  have hy : Quantised (fun i => if i % 2 = 0 then 7 else -8) 8 := by
    intro i _
    simp only
    split <;> decide
  have hclear : ∀ p < 8, bitAt (fun _ => 0) p = false := by decide
  ⟨hy, hclear, phyViterbiLteSse2_best (by decide) hy hclear _⟩

/-! ## Blocks without errors -/

/-- Three steps that the code does not show can only be taken from the zero state. -/
theorem silent_start : ∀ (s : BitVec 6) (b₀ b₁ b₂ : Bool),
    (∀ j : Fin 3, codeBit j (window s b₂) = false) →
    (∀ j : Fin 3, codeBit j (window (previous s b₂) b₁) = false) →
    (∀ j : Fin 3, codeBit j (window (previous (previous s b₂) b₁) b₀) = false) → s = 0 := by
  decide +kernel

/-- The zero state is not left without the code showing it. -/
theorem silent_step : ∀ (s : BitVec 6) (b : Bool), previous s b = 0 →
    (∀ j : Fin 3, codeBit j (window s b) = false) → s = 0 := by
  decide +kernel

theorem stateAt_congr {u v : Nat → Bool} {N : Nat} (h : ∀ t < N, ∀ j < 3,
    codeBit j (fun k => u (t + 6 - k)) = codeBit j (fun k => v (t + 6 - k))) {t : Nat} (ht : 3 ≤ t)
    (htN : t ≤ N) : stateAt u t = stateAt v t := by
  have hprev : ∀ t, previous (stateAt u (t + 1) ^^^ stateAt v (t + 1)) (u t ^^ v t) =
      stateAt u t ^^^ stateAt v t := by
    intro t
    rw [previous_xor, previous_stateAt, previous_stateAt]
  have hsilent : ∀ t < N, ∀ j : Fin 3,
      codeBit j (window (stateAt u (t + 1) ^^^ stateAt v (t + 1)) (u t ^^ v t)) = false := by
    intro t hlt j
    have hwindow : codeBit j (window (stateAt u (t + 1) ^^^ stateAt v (t + 1)) (u t ^^ v t)) =
        codeBit j (fun k => u (t + 6 - k) ^^ v (t + 6 - k)) := by
      apply codeBit_congr
      intro k hk
      rw [window_xor, window_stateAt u t hk, window_stateAt v t hk]
    rw [hwindow, codeBit_xor, h t hlt j j.isLt, Bool.xor_self]
  have hzero : stateAt u t ^^^ stateAt v t = 0 := by
    induction t, ht using Nat.le_induction with
    | base =>
      have h₁ := hsilent 1 (by omega)
      have h₀ := hsilent 0 (by omega)
      rw [← hprev 2] at h₁
      rw [← hprev 1, ← hprev 2] at h₀
      exact silent_start _ _ _ _ (hsilent 2 (by omega)) h₁ h₀
    | succ t ht ih =>
      exact silent_step _ _ ((hprev t).trans (ih (by omega))) (hsilent t (by omega))
  exact BitVec.xor_eq_zero_iff.mp hzero

/-- The bits of a ring, twice over, with the six bits that come before them. -/
def unrolled (u : Nat → Bool) (n i : Nat) : Bool := u ((i + n - 6) % n)

theorem codeBit_unrolled {u : Nat → Bool} {n : Nat} (hn : 6 ≤ n) (t j : Nat) :
    codeBit j (fun k => unrolled u n (t + 6 - k)) = ringCode u n (t % n) j := by
  apply codeBit_congr
  intro k hk
  have hindex : t + 6 - k + n - 6 = t + (n - k) := by omega
  have hring : t % n + n - k = t % n + (n - k) := by omega
  rw [unrolled, hindex, hring, Nat.mod_add_mod]

theorem codeSign_not (c : Bool) : codeSign (!c) = -codeSign c := by
  cases c <;> rfl

/-- A term that has the sign of its input is the greater one of two. -/
theorem codeSign_mul_unique {c : Bool} {x : Int} (hx : 0 < codeSign c * x) (c' : Bool) :
    codeSign c' * x ≤ codeSign c * x ∧ (codeSign c' * x = codeSign c * x → c' = c) := by
  by_cases heq : c' = c
  · rw [heq]
    exact ⟨le_rfl, fun _ => rfl⟩
  · have hnot : c' = !c := Bool.eq_not.mpr heq
    rw [hnot, codeSign_not, neg_mul]
    exact ⟨by omega, fun h => absurd h (by omega)⟩

/-- Inputs that all have the sign of the code of a ring of bits are decoded to these. -/
theorem viterbiDecoded_ringCode {u : Nat → Bool} {y : Nat → BitVec 8} {n : Nat} (hn : 6 ≤ n)
    (hy : Quantised y n)
    (hsign : ∀ t < n, ∀ j < 3, 0 < codeSign (ringCode u n t j) * (y (3 * t + j)).toInt)
    {decoded : Nat → BitVec 8} (hclear : ∀ p < n, bitAt decoded p = false) (TB : Nat → StateBytes)
    (p : Nat) : bitAt (viterbiDecoded y decoded n TB) p = if p < n then u p else bitAt decoded p := by
  obtain ⟨v, hdecoded, hgreatest⟩ := viterbiDecoded_bits hy hclear TB
  have hterm : ∀ t, ∀ j < 3, codeSign (codeBit j fun k => v (t + 6 - k)) * (y (3 * (t % n) + j)).toInt ≤
      codeSign (codeBit j fun k => unrolled u n (t + 6 - k)) * (y (3 * (t % n) + j)).toInt ∧
        (codeSign (codeBit j fun k => v (t + 6 - k)) * (y (3 * (t % n) + j)).toInt =
          codeSign (codeBit j fun k => unrolled u n (t + 6 - k)) * (y (3 * (t % n) + j)).toInt →
            (codeBit j fun k => v (t + 6 - k)) = codeBit j fun k => unrolled u n (t + 6 - k)) := by
    intro t j hj
    have hpos := hsign (t % n) (Nat.mod_lt t (by omega)) j hj
    rw [codeBit_unrolled hn]
    exact codeSign_mul_unique hpos _
  have hsame : ∀ t < n + n, ∀ j < 3, (codeBit j fun k => v (t + 6 - k)) =
      codeBit j fun k => unrolled u n (t + 6 - k) := by
    have hle : correlation y n (unrolled u n) ≤ correlation y n v := by
      have hmetric := (correlation_le_bestMetric y n (unrolled u n)).trans (hgreatest _)
      omega
    rw [correlation, correlation] at hle
    have houter := (Finset.sum_eq_sum_iff_of_le fun t _ => Finset.sum_le_sum fun j hj =>
      (hterm t j (Finset.mem_range.mp hj)).1).mp (le_antisymm (Finset.sum_le_sum fun t _ =>
        Finset.sum_le_sum fun j hj => (hterm t j (Finset.mem_range.mp hj)).1) hle)
    intro t ht j hj
    have hinner := (Finset.sum_eq_sum_iff_of_le fun j hj => (hterm t j (Finset.mem_range.mp hj)).1).mp
      (houter t (Finset.mem_range.mpr ht))
    exact (hterm t j hj).2 (hinner j (Finset.mem_range.mpr hj))
  rw [hdecoded]
  by_cases hp : p < n
  · have hstate := stateAt_congr hsame (t := n + p + 1) (by omega) (by omega)
    have hbit := congrArg (fun s : BitVec 6 => s.getLsbD 0) hstate
    simp only [getLsbD_stateAt _ _ (by omega : 0 < 6)] at hbit
    have hindex : n + p + 1 + 5 - 0 + n - 6 = n + (n + p) := by omega
    have hplace : n + p + 1 + 5 - 0 = n + p + 6 := by omega
    rw [unrolled, hindex, hplace, Nat.add_mod_left, Nat.add_mod_left, Nat.mod_eq_of_lt hp] at hbit
    rw [if_pos hp, if_pos hp, hbit]
  · rw [if_neg hp, if_neg hp]

theorem getLsbD_octet (c : Bool) : (octet c).getLsbD 0 = c := by
  cases c <;> rfl

/-- What the encoder puts out is decoded to the message and its checksum, for inputs of every size
that have the right signs. -/
theorem viterbi_roundTrip {numbits : Nat} {add_crc : AddCrc} (h : add_crc.Tailed numbits)
    (hroom : numbits + add_crc.bits ≤ 8192) (inPtr outPtr : Nat → BitVec 8) (rnti : BitVec 16) :
    ∃ output, ccodelteEncode numbits add_crc inPtr outPtr rnti = some output ∧
      ∀ (y decoded : Nat → BitVec 8) (TB : Nat → StateBytes), Quantised y (numbits + add_crc.bits) →
        (∀ i < 3 * (numbits + add_crc.bits), 0 < codeSign ((output i).getLsbD 0) * (y i).toInt) →
        (∀ p < numbits + add_crc.bits, bitAt decoded p = false) →
        ∃ out, phyViterbiLteSse2 y decoded (numbits + add_crc.bits) TB = some out ∧
          ∀ p, bitAt out p = if p < numbits + add_crc.bits then
            codedBits numbits inPtr (codedCrc numbits add_crc inPtr rnti) p else bitAt decoded p := by
  obtain ⟨st, hst, hrun⟩ := ccodelteEncode_run h inPtr outPtr rnti
  refine ⟨st.output, hst, ?_⟩
  intro y decoded TB hy hsign hclear
  refine ⟨_, if_pos hroom, ?_⟩
  apply viterbiDecoded_ringCode h.six_le hy _ hclear
  intro t ht j hj
  have hcell := hsign (3 * t + j) (by omega)
  rw [hrun.coded t ht j hj, getLsbD_octet] at hcell
  exact hcell

theorem viterbi_roundTrip_nine_bits : ∃ output out,
    ccodelteEncode 9 .uci (fun _ => 0xa5) (fun _ => 0) 0 = some output ∧
      phyViterbiLteSse2 (fun i => if (output i).getLsbD 0 then 7 else -3) (fun _ => 0) (9 + 8)
        (fun _ => ⟨fun _ => 0, fun _ => 0, fun _ => 0, fun _ => 0⟩) = some out ∧
      ∀ p < 9, bitAt out p = bitAt (fun _ => 0xa5) p := by
  have h : AddCrc.uci.Tailed 9 := ⟨by decide, fun h => absurd h (by decide)⟩
  obtain ⟨output, hrun, hdecoded⟩ := viterbi_roundTrip h (by decide) (fun _ => 0xa5) (fun _ => 0) 0
  obtain ⟨out, hout, hbits⟩ := hdecoded (fun i => if (output i).getLsbD 0 then 7 else -3) (fun _ => 0)
    (fun _ => ⟨fun _ => 0, fun _ => 0, fun _ => 0, fun _ => 0⟩)
    (by
      intro i _
      simp only
      split <;> decide)
    (by
      intro i _
      cases (output i).getLsbD 0 <;> decide)
    (by decide)
  refine ⟨output, out, hrun, hout, ?_⟩
  intro p hp
  rw [hbits p, if_pos (by simp only [AddCrc.bits]; omega), codedBits, if_pos hp]

end PdmaXen.Lte
