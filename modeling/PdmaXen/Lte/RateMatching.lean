import PdmaXen.Lte.Scrambling
import PdmaXen.Lte.SubBlock
import PdmaXen.Selection
import Mathlib.Algebra.BigOperators.Group.Finset.Sigma
import Mathlib.Order.Interval.Finset.Nat

/-!
# Rate matching

`lte_rate_matching.cpp` takes as many coded bits as a transmission has room for from the
ring of the sub-block interleaver, passing over the `LTE_NULL` cells, and the receiver adds
the soft values of every transmission of a segment in a ring of its own.
-/

namespace PdmaXen.Lte
set_option autoImplicit false
open Turbo Scatter Selection

/-! ## The source -/

structure RateMatching where
  RTC : Nat
  G : Nat
  C : Nat
  Nsoft : Nat
  Mdlharq : Nat
  Kmimo : Nat
  rvidx : Nat
  Qm : Nat
  Nl : Nat
  r : Nat

namespace RateMatching
variable (p : RateMatching)

def Ncb : Nat := min (p.Nsoft / p.Kmimo / min 8 p.Mdlharq / p.C) (3 * (p.RTC * 32))

def E : Nat :=
  let Gp := p.G / p.Nl / p.Qm
  let GpmodC := Gp % p.C
  if p.r < p.C - GpmodC then p.Nl * p.Qm * (Gp / p.C)
  else p.Nl * p.Qm * ((if GpmodC = 0 then 0 else 1) + Gp / p.C)

def ind : Nat :=
  p.RTC * (2 + p.rvidx * ((if p.Ncb % (p.RTC * 8) = 0 then 0 else 1) + p.Ncb / (p.RTC * 8)) * 2)

/-- `e2 - e` and `soft_input2 - soft_input`. -/
def offset : Nat := p.r * p.E % 4294967296

end RateMatching

/-- The loop over the bits of a transmission with the loop that passes over `LTE_NULL`. -/
def matchLoop {σ : Type} (marks : Nat → BitVec 8) (N : Nat) (body : Nat → Nat → σ → σ) (ind : Nat)
    (s : σ) (E : Nat) : Option σ :=
  (walk (fun i => marks i == LTE_NULL) N body ind s E).map Prod.snd

/-- The number of bits and `e` afterwards. Nothing is returned where the code divides by zero or
looks for a coded bit for ever. -/
def lteRateMatchingTurbo (p : RateMatching) (w e : Nat → BitVec 8) : Option (Nat × (Nat → BitVec 8)) :=
  if p.Kmimo = 0 ∨ p.Mdlharq = 0 ∨ p.C = 0 then none
  else if p.Ncb < 3 * (p.RTC * 32) then some (0, e)
  else if p.Nl = 0 ∨ p.Qm = 0 ∨ p.RTC = 0 then none
  else (matchLoop w p.Ncb (fun k ind e => Function.update e (p.offset + k) (w ind)) p.ind e p.E).map
    fun e => (p.E, e)

/-- What is stored for a cell and a soft value. -/
def combineSoft (w soft_input : BitVec 16) : BitVec 16 :=
  let w_tmp := w.toInt + soft_input.toInt
  if w_tmp > 32768 then BitVec.ofInt 16 32768
  else if w_tmp < -32768 then BitVec.ofInt 16 (-32768)
  else w + soft_input

/-- The result, `w` afterwards and what is stored in `*E_out`. -/
def lteRateMatchingTurboRx (p : RateMatching) (w : Nat → BitVec 16) (dummy_w : Nat → BitVec 8)
    (soft_input : Nat → BitVec 16) (clear : Nat) : Option (Int × (Nat → BitVec 16) × Option Nat) :=
  if p.Kmimo = 0 ∨ p.Mdlharq = 0 ∨ p.C = 0 ∨ p.Qm = 0 ∨ p.Nl = 0 then some (-1, w, none)
  else if p.RTC = 0 then none
  else
    let w : Nat → BitVec 16 := if clear = 1 then fun i => if i < p.Ncb then 0 else w i else w
    (matchLoop dummy_w p.Ncb (fun k ind w =>
      Function.update w ind (combineSoft (w ind) (soft_input (p.offset + k)))) p.ind w p.E).map
      fun w => (0, w, some p.E)

/-- `Kw`, an `u16`. -/
def circularSizeCc (RCC : Nat) : Nat := 3 * (RCC * 32) % 65536

def lteRateMatchingCc (RCC : Nat) (E : BitVec 16) (w e : Nat → BitVec 8) :
    Option (Nat × (Nat → BitVec 8)) :=
  (matchLoop w (circularSizeCc RCC) (fun k ind e => Function.update e k (w ind)) 0 e E.toNat).map
    fun e => (E.toNat, e)

def rescale (w16 : BitVec 16) : BitVec 8 :=
  if w16.toInt > 7 then 7 else if w16.toInt < -8 then -8 else w16.setWidth 8

def lteRateMatchingCcRx (RCC : Nat) (E : BitVec 16) (w dummy_w soft_input : Nat → BitVec 8) :
    Option (Nat → BitVec 8) :=
  (matchLoop dummy_w (circularSizeCc RCC) (fun k ind w16 =>
    Function.update w16 ind (w16 ind + (soft_input k).signExtend 16)) 0
      (fun _ => (0 : BitVec 16)) E.toNat).map
    fun w16 i => if i < circularSizeCc RCC then rescale (w16 i) else w i

/-! ## The ring -/

def isNull (marks : Nat → BitVec 8) (i : Nat) : Bool := marks i == LTE_NULL

theorem isNull_iff {marks : Nat → BitVec 8} {i : Nat} : isNull marks i = true ↔ marks i = LTE_NULL :=
  beq_iff_eq

theorem isNull_eq_false {marks : Nat → BitVec 8} {i : Nat} :
    isNull marks i = false ↔ marks i ≠ LTE_NULL := beq_eq_false_iff_ne

/-- The cell of the ring that bit `k` of a transmission is taken from. -/
noncomputable def bitCell (marks : Nat → BitVec 8) (N start k : Nat) : Nat := pick (isNull marks) N start k

/-- The bits of a transmission that are taken from cell `j`. -/
noncomputable def bitsOfCell (marks : Nat → BitVec 8) (N start E j : Nat) : List Nat :=
  visits (bitCell marks N start) E j

theorem matchLoop_eq {σ : Type} {marks : Nat → BitVec 8} {N start : Nat}
    (hlive : ∃ i < N, marks i ≠ LTE_NULL) (hstart : start < N) (body : Nat → Nat → σ → σ) (s : σ)
    (E : Nat) : matchLoop marks N body start s E =
      some ((List.range E).foldl (fun s k => body k (bitCell marks N start k) s) s) := by
  have hblank : ∃ i < N, isNull marks i = false := by
    obtain ⟨i, hi, hne⟩ := hlive
    exact ⟨i, hi, isNull_eq_false.mpr hne⟩
  rw [matchLoop]
  exact congrArg (Option.map Prod.snd) (walk_eq hblank hstart body s E)

/-- The parameters make sense: there is nothing to divide by zero, the soft buffer has room for the
whole ring of `RTC` rows, and the redundancy version has two bits. -/
structure RateMatching.Ready (p : RateMatching) (RTC : Nat) : Prop where
  RTC_eq : p.RTC = RTC
  RTC_pos : 0 < RTC
  C_pos : 0 < p.C
  Kmimo_pos : 0 < p.Kmimo
  Mdlharq_pos : 0 < p.Mdlharq
  Qm_pos : 0 < p.Qm
  Nl_pos : 0 < p.Nl
  fits : 3 * (RTC * 32) ≤ p.Nsoft / p.Kmimo / min 8 p.Mdlharq / p.C
  rvidx_lt : p.rvidx < 4

section Ready
variable {p : RateMatching} {RTC : Nat}

theorem RateMatching.Ready.Ncb_eq (h : p.Ready RTC) : p.Ncb = 3 * (RTC * 32) := by
  rw [Ncb, h.RTC_eq]
  exact Nat.min_eq_right h.fits

theorem RateMatching.Ready.ind_eq (h : p.Ready RTC) : p.ind = RTC * (2 + 24 * p.rvidx) := by
  have hpos := h.RTC_pos
  have hNcb : p.Ncb = RTC * 8 * 12 := by
    rw [h.Ncb_eq]
    omega
  rw [ind, h.RTC_eq, hNcb, Nat.mul_mod_right, if_pos rfl, Nat.mul_div_cancel_left 12 (by omega)]
  congr 1
  omega

theorem RateMatching.Ready.ind_lt (h : p.Ready RTC) : p.ind < 3 * (RTC * 32) := by
  have hrv := h.rvidx_lt
  have hpos := h.RTC_pos
  have hmul : RTC * (2 + 24 * p.rvidx) ≤ RTC * 74 := Nat.mul_le_mul_left _ (by omega)
  rw [h.ind_eq]
  omega

theorem lteRateMatchingTurbo_eq (h : p.Ready RTC) {w : Nat → BitVec 8}
    (hlive : ∃ i < 3 * (RTC * 32), w i ≠ LTE_NULL) (e : Nat → BitVec 8) :
    lteRateMatchingTurbo p w e = some (p.E, fun i =>
      if p.offset ≤ i ∧ i < p.offset + p.E then w (bitCell w (3 * (RTC * 32)) p.ind (i - p.offset))
      else e i) := by
  have h1 := h.C_pos
  have h2 := h.Kmimo_pos
  have h3 := h.Mdlharq_pos
  have h4 := h.Qm_pos
  have h5 := h.Nl_pos
  have h6 := h.RTC_pos
  have hRTC := h.RTC_eq
  rw [lteRateMatchingTurbo, h.Ncb_eq, hRTC, if_neg (by omega), if_neg (by omega), if_neg (by omega),
    matchLoop_eq hlive h.ind_lt, Option.map_some]
  congr 2
  funext i
  exact foldl_update_stretch p.offset (fun k => w (bitCell w (3 * (RTC * 32)) p.ind k)) e p.E i

theorem lteRateMatchingTurboRx_eq (h : p.Ready RTC) {marks : Nat → BitVec 8}
    (hlive : ∃ i < 3 * (RTC * 32), marks i ≠ LTE_NULL) (w soft_input : Nat → BitVec 16)
    (clear : Nat) : ∃ w', lteRateMatchingTurboRx p w marks soft_input clear = some (0, w', some p.E) ∧
      ∀ j < 3 * (RTC * 32), w' j =
        (bitsOfCell marks (3 * (RTC * 32)) p.ind p.E j).foldl
          (fun a k => combineSoft a (soft_input (p.offset + k))) (if clear = 1 then 0 else w j) := by
  have h1 := h.C_pos
  have h2 := h.Kmimo_pos
  have h3 := h.Mdlharq_pos
  have h4 := h.Qm_pos
  have h5 := h.Nl_pos
  have h6 := h.RTC_pos
  have hRTC := h.RTC_eq
  rw [lteRateMatchingTurboRx, h.Ncb_eq, hRTC, if_neg (by omega), if_neg (by omega)]
  simp only [matchLoop_eq hlive h.ind_lt, Option.map_some, Option.some.injEq, Prod.mk.injEq,
    true_and, and_true, exists_eq_left']
  intro j hj
  rw [foldl_update_visits _ fun a k => combineSoft a (soft_input (p.offset + k))]
  split
  · simp only [if_pos hj]
    rfl
  · rfl

end Ready

/-! ## How many bits there are -/

def Coding.firstPlace (v : Coding) (D F o : Nat) : Nat :=
  match v with
  | turbo => if o < 2 then dummyCount D + F else dummyCount D - 1
  | cc => dummyCount D

theorem nullTurn_iff (v : Coding) {D F k o : Nat} :
    NullTurn v D F k o ↔ v.order D k < v.firstPlace D F o := by
  cases v with
  | turbo =>
    simp only [NullTurn, Coding.firstPlace]
    split <;> omega
  | cc => exact Iff.rfl

theorem turn_order (v : Coding) {D k : Nat} (hk : k < cellCount D) : v.turn D (v.order D k) = k :=
  v.order_inj (v.turn_lt (v.order_lt hk)) hk (v.order_turn (v.order_lt hk))

/-- The cells of the ring that hold a bit are those of the three streams from their first places on. -/
theorem liveCount_ring (v : Coding) {D F : Nat} {w : Nat → BitVec 8}
    (hnull : ∀ k < cellCount D, ∀ o < 3, w (v.out (cellCount D) k o) = LTE_NULL ↔ NullTurn v D F k o) :
    liveCount (isNull w) (3 * cellCount D) =
      ∑ o ∈ Finset.range 3, (cellCount D - v.firstPlace D F o) := by
  have hcard : liveCount (isNull w) (3 * cellCount D) =
      ((Finset.range 3).sigma fun o => Finset.Ico (v.firstPlace D F o) (cellCount D)).card := by
    rw [liveCount, Nat.count_eq_card_filter_range]
    symm
    apply Finset.card_nbij fun x => v.out (cellCount D) (v.turn D x.2) x.1
    · rintro ⟨o, m⟩ hx
      simp only [Finset.coe_sigma, Set.mem_sigma_iff, Finset.coe_range, Set.mem_Iio, Finset.coe_Ico,
        Set.mem_Ico] at hx
      obtain ⟨ho, hge, hm⟩ := hx
      have hlive : ¬ NullTurn v D F (v.turn D m) o := by
        rw [nullTurn_iff, v.order_turn hm]
        omega
      rw [← hnull _ (v.turn_lt hm) o ho] at hlive
      simp only [Finset.coe_filter, Finset.mem_range, Set.mem_ofPred_eq]
      exact ⟨v.out_lt (v.turn_lt hm) ho, isNull_eq_false.mpr hlive⟩
    · rintro ⟨o, m⟩ hx ⟨o', m'⟩ hx' hsame
      simp only [Finset.coe_sigma, Set.mem_sigma_iff, Finset.coe_range, Set.mem_Iio, Finset.coe_Ico,
        Set.mem_Ico] at hx hx'
      obtain ⟨hturn, rfl⟩ := v.out_distinct D _ (v.turn_lt hx.2.2) _ hx.1 _ (v.turn_lt hx'.2.2) _ hx'.1
        hsame
      have horder := congrArg (v.order D) hturn
      rw [v.order_turn hx.2.2, v.order_turn hx'.2.2] at horder
      rw [horder]
    · intro j hj
      simp only [Finset.coe_filter, Finset.mem_range, Set.mem_ofPred_eq, isNull_eq_false] at hj
      obtain ⟨k, hk, o, ho, rfl⟩ := v.exists_out hj.1
      have hlive : ¬ NullTurn v D F k o := fun h => hj.2 ((hnull k hk o ho).mpr h)
      rw [nullTurn_iff] at hlive
      refine ⟨⟨o, v.order D k⟩, ?_, ?_⟩
      · simp only [Finset.coe_sigma, Set.mem_sigma_iff, Finset.coe_range, Set.mem_Iio, Finset.coe_Ico,
          Set.mem_Ico]
        exact ⟨ho, by omega, v.order_lt hk⟩
      · simp only [turn_order v hk]
  rw [hcard, Finset.card_sigma]
  simp only [Nat.card_Ico]

/-! ## Adding up soft values -/

/-- A sum in the range of the cell is kept, any other leaves the most negative value. -/
theorem combineSoft_toInt (w s : BitVec 16) : (combineSoft w s).toInt =
    if -32768 ≤ w.toInt + s.toInt ∧ w.toInt + s.toInt ≤ 32767 then w.toInt + s.toInt else -32768 := by
  have hw := w.toInt_lt
  have hw' := w.le_toInt
  have hs := s.toInt_lt
  have hs' := s.le_toInt
  have hadd := BitVec.toInt_add w s
  rw [Int.bmod_def] at hadd
  simp only [combineSoft]
  split_ifs with h1 h2 h3 h4 h5
  · omega
  · rfl
  · omega
  · rfl
  · omega
  · omega

/-- Sums of 16 bits are exact as long as the absolute values are small enough together. -/
theorem softSum_toInt {n : Nat} {add : BitVec 16 → BitVec n → BitVec 16}
    (hadd : ∀ a s, a.toInt.natAbs + s.toInt.natAbs ≤ 32767 → (add a s).toInt = a.toInt + s.toInt)
    (s : Nat → BitVec n) (ks : List Nat) (a : BitVec 16)
    (h : a.toInt.natAbs + (ks.map fun k => (s k).toInt.natAbs).sum ≤ 32767) :
    (ks.foldl (fun a k => add a (s k)) a).toInt = a.toInt + (ks.map fun k => (s k).toInt).sum := by
  induction ks generalizing a with
  | nil => simp
  | cons k ks ih =>
    rw [List.map_cons, List.sum_cons] at h
    have hstep : (add a (s k)).toInt = a.toInt + (s k).toInt := hadd a (s k) (by omega)
    rw [List.foldl_cons, ih _ (by omega), hstep, List.map_cons, List.sum_cons, Int.add_assoc]

theorem combineSoft_of_le (w s : BitVec 16) (h : w.toInt.natAbs + s.toInt.natAbs ≤ 32767) :
    (combineSoft w s).toInt = w.toInt + s.toInt := by
  rw [combineSoft_toInt, if_pos (by omega)]

theorem accumulate_of_le (w : BitVec 16) (s : BitVec 8)
    (h : w.toInt.natAbs + s.toInt.natAbs ≤ 32767) :
    (w + s.signExtend 16).toInt = w.toInt + s.toInt := by
  have hs : (s.signExtend 16).toInt = s.toInt := BitVec.toInt_signExtend_of_le (by omega)
  have hadd := BitVec.toInt_add w (s.signExtend 16)
  rw [hs, Int.bmod_def] at hadd
  omega

theorem rescale_toInt (v : BitVec 16) : (rescale v).toInt = max (-8) (min 7 v.toInt) := by
  unfold rescale
  split_ifs with h1 h2
  · have h7 : (7 : BitVec 8).toInt = 7 := rfl
    omega
  · have h8 : (-8 : BitVec 8).toInt = -8 := rfl
    omega
  · have hset : (v.setWidth 8).toInt = (v.toNat : Int).bmod (2 ^ 8) := BitVec.toInt_setWidth v
    have hv := v.toInt_eq_toNat_cond
    rw [Int.bmod_def] at hset
    omega

/-! ## Transmissions of a segment -/

/-- A bit that arrives with a gain, after unscrambling. -/
def arrive {n : Nat} (gain : BitVec n) (e : BitVec 8) : BitVec n := if e.getLsbD 0 then gain else -gain

structure Transmission where
  p : RateMatching
  e : Nat → BitVec 8
  gain : Nat → BitVec 16

def deliver (tx dummy_w : Nat → BitVec 8) (clear : Nat) (w : Nat → BitVec 16) (t : Transmission) :
    Option (Nat → BitVec 16) := do
  let (_, e) ← lteRateMatchingTurbo t.p tx t.e
  let (_, w, _) ← lteRateMatchingTurboRx t.p w dummy_w (fun i => arrive (t.gain i) (e i)) clear
  return w

/-- The transmissions of a HARQ process; `Ndi` is one for the first of them. -/
def deliverAll (tx dummy_w : Nat → BitVec 8) (w : Nat → BitVec 16) (t : Transmission)
    (ts : List Transmission) : Option (Nat → BitVec 16) := do
  let w ← deliver tx dummy_w 1 w t
  ts.foldlM (deliver tx dummy_w 0) w

/-- The gains of the bits of a transmission that were taken from cell `j`. -/
noncomputable def gainsOfOne (marks : Nat → BitVec 8) (N : Nat) (t : Transmission) (j : Nat) : List Int :=
  (bitsOfCell marks N t.p.ind t.p.E j).map fun k => (t.gain (t.p.offset + k)).toInt

noncomputable def gainsOfCell (marks : Nat → BitVec 8) (N : Nat) (ts : List Transmission) (j : Nat) :
    List Int := ts.flatMap fun t => gainsOfOne marks N t j

/-- `1` for a one, `-1` for a zero. -/
def bitSign (v : BitVec 8) : Int := if v.getLsbD 0 then 1 else -1

theorem arrive_toInt {n : Nat} {gain : BitVec n} (v : BitVec 8) (h : gain ≠ BitVec.intMin n) :
    (arrive gain v).toInt = bitSign v * gain.toInt := by
  unfold arrive bitSign
  split
  · rw [Int.one_mul]
  · rw [BitVec.toInt_neg_of_ne_intMin h, Int.neg_mul, Int.one_mul]

theorem natAbs_bitSign_mul (v : BitVec 8) (x : Int) : (bitSign v * x).natAbs = x.natAbs := by
  unfold bitSign
  split <;> omega

theorem natAbs_sum_le (l : List Int) : l.sum.natAbs ≤ (l.map Int.natAbs).sum := by
  induction l with
  | nil => exact le_rfl
  | cons a l ih =>
    have hadd := Int.natAbs_add_le a l.sum
    rw [List.sum_cons, List.map_cons, List.sum_cons]
    omega

theorem natAbs_add_gains_le (v : BitVec 8) (x : Int) (l : List Int) :
    (x + bitSign v * l.sum).natAbs ≤ x.natAbs + (l.map Int.natAbs).sum := by
  have hadd := Int.natAbs_add_le x (bitSign v * l.sum)
  have hsum := natAbs_sum_le l
  rw [natAbs_bitSign_mul] at hadd
  omega

theorem arrive_map {n : Nat} (gain : Nat → BitVec n) (v : BitVec 8) {ks : List Nat}
    (h : ∀ k ∈ ks, gain k ≠ BitVec.intMin n) :
    ks.map (fun k => (arrive (gain k) v).toInt) = ks.map (fun k => bitSign v * (gain k).toInt) :=
  List.map_congr_left fun k hk => arrive_toInt v (h k hk)

theorem natAbs_arrive_map {n : Nat} (gain : Nat → BitVec n) (v : BitVec 8) {ks : List Nat}
    (h : ∀ k ∈ ks, gain k ≠ BitVec.intMin n) :
    ks.map (fun k => (arrive (gain k) v).toInt.natAbs) = ks.map (fun k => (gain k).toInt.natAbs) :=
  List.map_congr_left fun k hk => by rw [arrive_toInt v (h k hk), natAbs_bitSign_mul]

theorem mem_bitsOfCell {marks : Nat → BitVec 8} {N start E j k : Nat} :
    k ∈ bitsOfCell marks N start E j ↔ k < E ∧ bitCell marks N start k = j := by
  simp [bitsOfCell, visits]

section Deliver
variable {tx marks : Nat → BitVec 8} {RTC : Nat}

theorem deliver_eq {t : Transmission} (hready : t.p.Ready RTC)
    (hlive : ∃ i < 3 * (RTC * 32), tx i ≠ LTE_NULL)
    (hmarks : ∀ j < 3 * (RTC * 32), marks j = LTE_NULL ↔ tx j = LTE_NULL) (w : Nat → BitVec 16)
    (clear : Nat) : ∃ w', deliver tx marks clear w t = some w' ∧ ∀ j < 3 * (RTC * 32), w' j =
      (bitsOfCell tx (3 * (RTC * 32)) t.p.ind t.p.E j).foldl
        (fun a k => combineSoft a (arrive (t.gain (t.p.offset + k)) (tx j)))
        (if clear = 1 then 0 else w j) := by
  have hN : 0 < 3 * (RTC * 32) := by
    have hpos := hready.RTC_pos
    omega
  have hlive' : ∃ i < 3 * (RTC * 32), marks i ≠ LTE_NULL := by
    obtain ⟨i, hi, hne⟩ := hlive
    exact ⟨i, hi, fun h => hne ((hmarks i hi).mp h)⟩
  have hsame : ∀ start, bitCell marks (3 * (RTC * 32)) start = bitCell tx (3 * (RTC * 32)) start := by
    intro start
    apply pick_congr hN
    intro i hi
    rw [Bool.eq_iff_iff, isNull_iff, isNull_iff]
    exact hmarks i hi
  obtain ⟨w', hrx, hcells⟩ := lteRateMatchingTurboRx_eq hready hlive' w
    (fun i => arrive (t.gain i) (if t.p.offset ≤ i ∧ i < t.p.offset + t.p.E then
      tx (bitCell tx (3 * (RTC * 32)) t.p.ind (i - t.p.offset)) else t.e i)) clear
  refine ⟨w', ?_, ?_⟩
  · simp only [deliver, lteRateMatchingTurbo_eq hready hlive, Option.bind_eq_bind, Option.bind_some,
      hrx, Option.pure_def]
  · intro j hj
    have hvisits : bitsOfCell marks (3 * (RTC * 32)) t.p.ind t.p.E j =
        bitsOfCell tx (3 * (RTC * 32)) t.p.ind t.p.E j := by
      rw [bitsOfCell, hsame]
      rfl
    rw [hcells j hj, hvisits]
    apply List.foldl_ext
    intro a k hk
    obtain ⟨hkE, hcell⟩ := mem_bitsOfCell.mp hk
    rw [if_pos (by omega), Nat.add_sub_cancel_left, hcell]

theorem deliver_toInt {t : Transmission} (hready : t.p.Ready RTC)
    (hlive : ∃ i < 3 * (RTC * 32), tx i ≠ LTE_NULL)
    (hmarks : ∀ j < 3 * (RTC * 32), marks j = LTE_NULL ↔ tx j = LTE_NULL) (w : Nat → BitVec 16)
    (clear : Nat) : ∃ w', deliver tx marks clear w t = some w' ∧ ∀ j < 3 * (RTC * 32),
      (if clear = 1 then 0 else w j).toInt.natAbs +
        ((gainsOfOne tx (3 * (RTC * 32)) t j).map Int.natAbs).sum ≤ 32767 →
      (w' j).toInt = (if clear = 1 then 0 else w j).toInt +
        bitSign (tx j) * (gainsOfOne tx (3 * (RTC * 32)) t j).sum := by
  obtain ⟨w', hrun, hcells⟩ := deliver_eq hready hlive hmarks w clear
  refine ⟨w', hrun, ?_⟩
  intro j hj hsum
  rw [gainsOfOne, List.map_map] at hsum
  have hgain : ∀ k ∈ bitsOfCell tx (3 * (RTC * 32)) t.p.ind t.p.E j,
      t.gain (t.p.offset + k) ≠ BitVec.intMin 16 := by
    intro k hk h
    have hle := List.single_le_sum (fun _ _ => Nat.zero_le _) _ (List.mem_map_of_mem
      (f := Int.natAbs ∘ fun k => (t.gain (t.p.offset + k)).toInt) hk)
    have hmin : (BitVec.intMin 16).toInt.natAbs = 32768 := rfl
    rw [Function.comp_apply, h, hmin] at hle
    omega
  have hsum' := natAbs_arrive_map (fun k => t.gain (t.p.offset + k)) (tx j) hgain
  rw [hcells j hj, softSum_toInt combineSoft_of_le _ _ _ (by rw [hsum']; exact hsum),
    arrive_map (fun k => t.gain (t.p.offset + k)) (tx j) hgain, List.sum_map_mul_left, gainsOfOne]

theorem deliverRest_toInt {ts : List Transmission} (hready : ∀ t ∈ ts, t.p.Ready RTC)
    (hlive : ∃ i < 3 * (RTC * 32), tx i ≠ LTE_NULL)
    (hmarks : ∀ j < 3 * (RTC * 32), marks j = LTE_NULL ↔ tx j = LTE_NULL) (w : Nat → BitVec 16)
    (hsum : ∀ j < 3 * (RTC * 32), (w j).toInt.natAbs +
      ((gainsOfCell tx (3 * (RTC * 32)) ts j).map Int.natAbs).sum ≤ 32767) :
    ∃ w', ts.foldlM (deliver tx marks 0) w = some w' ∧ ∀ j < 3 * (RTC * 32),
      (w' j).toInt = (w j).toInt + bitSign (tx j) * (gainsOfCell tx (3 * (RTC * 32)) ts j).sum := by
  induction ts generalizing w with
  | nil => exact ⟨w, rfl, fun j _ => by simp [gainsOfCell]⟩
  | cons t ts ih =>
    have hcons : ∀ j, gainsOfCell tx (3 * (RTC * 32)) (t :: ts) j =
        gainsOfOne tx (3 * (RTC * 32)) t j ++ gainsOfCell tx (3 * (RTC * 32)) ts j := fun _ => rfl
    simp only [hcons, List.map_append, List.sum_append] at hsum
    obtain ⟨w1, hrun, hcell⟩ := deliver_toInt (hready t List.mem_cons_self) hlive hmarks w 0
    simp only [if_neg (by omega : ¬ 0 = 1)] at hcell
    have hw1 : ∀ j < 3 * (RTC * 32), (w1 j).toInt = (w j).toInt +
        bitSign (tx j) * (gainsOfOne tx (3 * (RTC * 32)) t j).sum := by
      intro j hj
      have hj' := hsum j hj
      exact hcell j hj (by omega)
    obtain ⟨w2, hrest, hcells⟩ := ih (fun t' ht' => hready t' (List.mem_cons_of_mem t ht')) w1 (by
      intro j hj
      have hj' := hsum j hj
      have habs := natAbs_add_gains_le (tx j) (w j).toInt (gainsOfOne tx (3 * (RTC * 32)) t j)
      rw [hw1 j hj]
      omega)
    refine ⟨w2, ?_, ?_⟩
    · rw [List.foldlM_cons, hrun]
      exact hrest
    · intro j hj
      rw [hcells j hj, hw1 j hj, hcons, List.sum_append, Int.mul_add, Int.add_assoc]

/-- All the transmissions together: every cell holds the sum of the gains of the bits that were taken
from it, with the sign of its bit, when the sums stay in range. -/
theorem deliverAll_toInt {t : Transmission} {ts : List Transmission}
    (hready : ∀ t' ∈ t :: ts, t'.p.Ready RTC) (hlive : ∃ i < 3 * (RTC * 32), tx i ≠ LTE_NULL)
    (hmarks : ∀ j < 3 * (RTC * 32), marks j = LTE_NULL ↔ tx j = LTE_NULL) (w : Nat → BitVec 16)
    (hsum : ∀ j < 3 * (RTC * 32),
      ((gainsOfCell tx (3 * (RTC * 32)) (t :: ts) j).map Int.natAbs).sum ≤ 32767) :
    ∃ w', deliverAll tx marks w t ts = some w' ∧ ∀ j < 3 * (RTC * 32), (w' j).toInt =
      bitSign (tx j) * (gainsOfCell tx (3 * (RTC * 32)) (t :: ts) j).sum := by
  have hcons : ∀ j, gainsOfCell tx (3 * (RTC * 32)) (t :: ts) j =
      gainsOfOne tx (3 * (RTC * 32)) t j ++ gainsOfCell tx (3 * (RTC * 32)) ts j := fun _ => rfl
  simp only [hcons, List.map_append, List.sum_append] at hsum
  obtain ⟨w1, hrun, hcell⟩ := deliver_toInt (hready t List.mem_cons_self) hlive hmarks w 1
  have hzero : (0 : BitVec 16).toInt = 0 := rfl
  simp only [if_true, hzero, Int.natAbs_zero, Nat.zero_add, Int.zero_add] at hcell
  have hw1 : ∀ j < 3 * (RTC * 32), (w1 j).toInt =
      bitSign (tx j) * (gainsOfOne tx (3 * (RTC * 32)) t j).sum := by
    intro j hj
    have hj' := hsum j hj
    exact hcell j hj (by omega)
  obtain ⟨w2, hrest, hcells⟩ := deliverRest_toInt
    (fun t' ht' => hready t' (List.mem_cons_of_mem t ht')) hlive hmarks w1 (by
      intro j hj
      have hj' := hsum j hj
      have habs := natAbs_add_gains_le (tx j) 0 (gainsOfOne tx (3 * (RTC * 32)) t j)
      rw [hw1 j hj]
      omega)
  refine ⟨w2, ?_, ?_⟩
  · rw [deliverAll, hrun]
    exact hrest
  · intro j hj
    rw [hcells j hj, hw1 j hj, hcons, List.sum_append, Int.mul_add]

end Deliver

/-! ## Both sides of the ring -/

/-- What the receiver's marks and the transmitter's ring have in common. -/
structure RingAgrees (D bits : Nat) (marks w : Nat → BitVec 8) : Prop where
  marks : MarksAgree D marks w
  bits : liveCount (isNull w) (3 * cellCount D) = bits

theorem ringSize (D : Nat) : 3 * (rowCount D * 32) = 3 * cellCount D := rfl

theorem RingAgrees.live {D bits : Nat} {marks w : Nat → BitVec 8} (h : RingAgrees D bits marks w)
    (hbits : 0 < bits) : ∃ i < 3 * cellCount D, w i ≠ LTE_NULL := by
  have hpos : liveCount (isNull w) (3 * cellCount D) ≠ 0 := by
    rw [h.bits]
    omega
  obtain ⟨i, hi, hlive⟩ := Nat.count_ne_iff_exists.mp hpos
  exact ⟨i, hi, isNull_eq_false.mp hlive⟩

theorem ringAgrees_turbo {d : Nat → BitVec 8} {D F : Nat} (hd : NullsAt d D F) (hFD : F ≤ D)
    (hrows : dummyCount D + F ≤ 96) (hND : 0 < dummyCount D) (w : Nat → BitVec 8) :
    RingAgrees D (3 * D + 1 - 2 * F) (generateDummyW D (fun _ => 0) F).2
      (subBlockInterleavingTurbo D (codedBlock d) w).2.2 := by
  have hadd := dummyCount_add D
  have hlt := dummyCount_lt D
  have hD : 0 < D := by
    apply Nat.pos_of_ne_zero
    rintro rfl
    simp [dummyCount, cellCount, rowCount] at hND
  refine ⟨marksAgree_turbo hd hD hFD hrows w, ?_⟩
  rw [liveCount_ring .turbo (F := F)]
  · simp only [Finset.sum_range_succ, Finset.sum_range_zero, Coding.firstPlace]
    rw [if_pos (by omega), if_pos (by omega), if_neg (by omega)]
    omega
  · intro k hk o ho
    rw [← null_turbo hd hD hk ho, subBlockInterleavingTurbo_eq]
    simp only
    rw [stores_cell (Coding.turbo.out_distinct D) hk ho]

theorem zero_ne_null : (0 : BitVec 8) ≠ LTE_NULL := by
  decide

theorem ringAgrees_cc {d : Nat → BitVec 8} {D : Nat} (hd : NullsAt d D 0) {clear : Nat → BitVec 8}
    (hclear : ∀ j < 3 * cellCount D, clear j ≠ LTE_NULL) (w : Nat → BitVec 8) :
    RingAgrees D (3 * D) (generateDummyWCc D clear).2
      (subBlockInterleavingCc D (codedBlock d) w).2 := by
  have hadd := dummyCount_add D
  refine ⟨marksAgree_cc hd hclear w, ?_⟩
  rw [liveCount_ring .cc (F := 0)]
  · simp only [Finset.sum_range_succ, Finset.sum_range_zero, Coding.firstPlace]
    omega
  · intro k hk o ho
    rw [← null_cc hd hk ho, subBlockInterleavingCc_eq]
    simp only
    rw [stores_cell (Coding.cc.out_distinct D) hk ho]

theorem dummyCount_segment (K_byte : Nat) :
    4 ≤ dummyCount (8 * K_byte + 4) ∧ dummyCount (8 * K_byte + 4) ≤ 28 := by
  unfold dummyCount cellCount rowCount
  split <;> omega

theorem nullsAt_turboEncoder {K_byte F : Nat} (hlegal : Legal K_byte) (hoctet : F < 64)
    (hF : F ≤ 8 * K_byte) (input output : Nat → BitVec 8) : ∃ f1 f2, f1f2matRow K_byte = some (f1, f2) ∧
      NullsAt (threegpplteTurboEncoder input K_byte output (BitVec.ofNat 8 F) f1 f2).1 (8 * K_byte + 4) F := by
  obtain ⟨f1, f2, hrow, hf1, hf2, hcoprime, hdvd⟩ := f1f2matRow_of_legal hlegal
  have hcoded := turboEncoded_of_row input (BitVec.ofNat 8 F) output hlegal hf1 hf2 hcoprime hdvd
  rw [BitVec.toNat_ofNat, Nat.mod_eq_of_lt (by omega)] at hcoded
  exact ⟨f1, f2, hrow, hcoded.nullsAt hF⟩

/-- The marks of `generate_dummy_w` and `generate_dummy_w_cc` fall on the cells that hold no coded bit
in the transmitter, for every size of a segment and every number of fillers that segmentation leaves,
and for every block of the convolutional code. -/
theorem ring_agrees {K_byte F : Nat} (hlegal : Legal K_byte) (hF : F < 64) (hroom : F ≤ 8 * K_byte)
    (input output w : Nat → BitVec 8) {d : Nat → BitVec 8} {D : Nat} (hd : NullsAt d D 0) :
    (∃ f1 f2, f1f2matRow K_byte = some (f1, f2) ∧
      RingAgrees (8 * K_byte + 4) (3 * (8 * K_byte + 4) + 1 - 2 * F)
        (generateDummyW (8 * K_byte + 4) (fun _ => 0) F).2
        (subBlockInterleavingTurbo (8 * K_byte + 4)
          (codedBlock (threegpplteTurboEncoder input K_byte output (BitVec.ofNat 8 F) f1 f2).1) w).2.2) ∧
      RingAgrees D (3 * D) (generateDummyWCc D (fun _ => 0)).2
        (subBlockInterleavingCc D (codedBlock d) w).2 := by
  obtain ⟨f1, f2, hrow, hnulls⟩ := nullsAt_turboEncoder hlegal hF hroom input output
  have hND := dummyCount_segment K_byte
  exact ⟨⟨f1, f2, hrow, ringAgrees_turbo hnulls (by omega) (by omega) (by omega) w⟩,
    ringAgrees_cc hd (fun _ _ => zero_ne_null) w⟩

theorem ring_agrees_forty_bits :
    (∃ f1 f2, f1f2matRow 5 = some (f1, f2) ∧
      RingAgrees (8 * 5 + 4) (3 * (8 * 5 + 4) + 1 - 2 * 16) (generateDummyW (8 * 5 + 4) (fun _ => 0) 16).2
        (subBlockInterleavingTurbo (8 * 5 + 4)
          (codedBlock (threegpplteTurboEncoder (fun _ => 0xa5) 5 (fun _ => 0) 16 f1 f2).1) fun _ => 0).2.2) ∧
      RingAgrees 43 (3 * 43) (generateDummyWCc 43 (fun _ => 0)).2
        (subBlockInterleavingCc 43 (codedBlock fun _ => 1) fun _ => 0).2 :=
  ring_agrees (by decide) (by decide) (by decide) (fun _ => 0xa5) (fun _ => 0) (fun _ => 0)
    fun n _ o _ => ⟨fun h => absurd h (by decide), fun h => absurd h.2 (Nat.not_lt_zero n)⟩

/-! ## HARQ -/

structure Combined (D bits : Nat) (d : Int → BitVec 8) (marks : Nat → BitVec 8)
    (ts : List Transmission) (restored : Int → BitVec 16) : Prop where
  /-- A bit arrives with the sum of the gains of all its copies. -/
  coded : ∀ n < D, ∀ o : Nat, o < 3 → d (3 * n + o) ≠ LTE_NULL → (restored (3 * n + o)).toInt =
    bitSign (d (3 * n + o)) * (gainsOfCell marks (3 * cellCount D) ts (Coding.turbo.bufferCell D n o)).sum
  fillers : ∀ n < D, ∀ o : Nat, o < 3 → d (3 * n + o) = LTE_NULL → restored (3 * n + o) = 0
  /-- Every transmission has its share of copies of it, or one more. -/
  copies : ∀ n < D, ∀ o : Nat, o < 3 → d (3 * n + o) ≠ LTE_NULL → ∀ t ∈ ts, ∃ v < bits,
    (bitsOfCell marks (3 * cellCount D) t.p.ind t.p.E (Coding.turbo.bufferCell D n o)).length =
      t.p.E / bits + if v < t.p.E % bits then 1 else 0

theorem bitCell_congr {D bits : Nat} {marks w : Nat → BitVec 8} (h : RingAgrees D bits marks w)
    (hN : 0 < 3 * cellCount D) (start : Nat) :
    bitCell marks (3 * cellCount D) start = bitCell w (3 * cellCount D) start := by
  apply pick_congr hN
  intro i hi
  rw [Bool.eq_iff_iff, isNull_iff, isNull_iff]
  exact h.marks i hi

theorem gainsOfCell_congr {D bits : Nat} {marks w : Nat → BitVec 8} (h : RingAgrees D bits marks w)
    (hN : 0 < 3 * cellCount D) :
    gainsOfCell marks (3 * cellCount D) = gainsOfCell w (3 * cellCount D) := by
  funext ts j
  simp only [gainsOfCell, gainsOfOne, bitsOfCell, bitCell_congr h hN]

theorem gainsOfCell_null {marks : Nat → BitVec 8} {N j : Nat} (hlive : ∃ i < N, marks i ≠ LTE_NULL)
    (hnull : marks j = LTE_NULL) (ts : List Transmission) : gainsOfCell marks N ts j = [] := by
  have hlive' : ∃ i < N, isNull marks i = false := by
    obtain ⟨i, hi, hne⟩ := hlive
    exact ⟨i, hi, isNull_eq_false.mpr hne⟩
  apply List.flatMap_eq_nil_iff.mpr
  intro t _
  rw [gainsOfOne, List.map_eq_nil_iff, List.eq_nil_iff_forall_not_mem]
  intro k hk
  obtain ⟨-, hcell⟩ := mem_bitsOfCell.mp hk
  have hblank := blank_pick t.p.ind hlive' k
  rw [bitCell] at hcell
  rw [hcell, isNull_eq_false] at hblank
  exact hblank hnull

theorem gainsOfCell_le {marks : Nat → BitVec 8} {N b : Nat} {ts : List Transmission}
    (h : ∀ t ∈ ts, ∀ i, (t.gain i).toInt.natAbs ≤ b) (j : Nat) :
    ((gainsOfCell marks N ts j).map Int.natAbs).sum ≤ (ts.map fun t => t.p.E).sum * b := by
  induction ts with
  | nil => exact Nat.zero_le _
  | cons t ts ih =>
    have hrest := ih fun t' ht' => h t' (List.mem_cons_of_mem t ht')
    have hone : ((gainsOfOne marks N t j).map Int.natAbs).sum ≤
        ((gainsOfOne marks N t j).map Int.natAbs).length • b := by
      apply List.sum_le_card_nsmul
      intro x hx
      simp only [gainsOfOne, List.mem_map] at hx
      obtain ⟨-, ⟨k, -, rfl⟩, rfl⟩ := hx
      exact h t List.mem_cons_self _
    have hlength : ((gainsOfOne marks N t j).map Int.natAbs).length ≤ t.p.E := by
      rw [gainsOfOne, List.length_map, List.length_map, bitsOfCell, visits]
      exact (List.length_filter_le _ _).trans (List.length_range).le
    have hmul := Nat.mul_le_mul_right b hlength
    rw [smul_eq_mul] at hone
    rw [gainsOfCell, List.flatMap_cons, List.map_append, List.sum_append, List.map_cons,
      List.sum_cons, Nat.add_mul]
    exact Nat.add_le_add (hone.trans hmul) hrest

theorem bufferCell_lt (v : Coding) {D n o : Nat} (hn : n < D) (ho : o < 3) :
    v.bufferCell D n o < 3 * cellCount D := v.out_lt (v.turn_lt (placeOf_lt v hn o)) ho

/-- The transmissions of a segment, whatever their redundancy versions and sizes: the deinterleaver
hands the decoder, for every bit that the encoder wrote, the sum of the gains of all its copies with
the sign of the bit, and zero for every filler, as long as the sums stay in range. -/
theorem harq_roundTrip {K_byte F f1 f2 : Nat} (hlegal : Legal K_byte)
    (hrow : f1f2matRow K_byte = some (f1, f2)) (hF : F < 64) (hroom : F ≤ 8 * K_byte)
    (input output w : Nat → BitVec 8) (soft : Nat → BitVec 16) (r : Int → BitVec 16)
    {t : Transmission} {ts : List Transmission}
    (hready : ∀ t' ∈ t :: ts, t'.p.Ready (rowCount (8 * K_byte + 4)))
    (hgain : ∀ j < 3 * cellCount (8 * K_byte + 4), ((gainsOfCell
      (generateDummyW (8 * K_byte + 4) (fun _ => 0) F).2 (3 * cellCount (8 * K_byte + 4))
        (t :: ts) j).map Int.natAbs).sum ≤ 32767) :
    let D := 8 * K_byte + 4
    let d := codedBlock (threegpplteTurboEncoder input K_byte output (BitVec.ofNat 8 F) f1 f2).1
    let marks := (generateDummyW D (fun _ => 0) F).2
    ∃ soft', deliverAll (subBlockInterleavingTurbo D d w).2.2 marks soft t ts = some soft' ∧
      Combined D (3 * D + 1 - 2 * F) d marks (t :: ts) (subBlockDeinterleavingTurbo D r soft') := by
  have hND := dummyCount_segment K_byte
  have hnulls : NullsAt (threegpplteTurboEncoder input K_byte output (BitVec.ofNat 8 F) f1 f2).1 (8 * K_byte + 4) F := by
    obtain ⟨f1', f2', hrow', hnulls⟩ := nullsAt_turboEncoder hlegal hF hroom input output
    rw [hrow, Option.some.injEq, Prod.mk.injEq] at hrow'
    obtain ⟨rfl, rfl⟩ := hrow'
    exact hnulls
  simp only
  generalize threegpplteTurboEncoder input K_byte output (BitVec.ofNat 8 F) f1 f2 = enc at hnulls ⊢
  generalize hD : 8 * K_byte + 4 = D at *
  have hring := ringAgrees_turbo hnulls (by omega) (by omega) (by omega) w
  have hmarks := hring.marks
  have hlive := hring.live (by omega)
  have hN : 0 < 3 * cellCount D := by
    have hadd := dummyCount_add D
    omega
  generalize (generateDummyW D (fun _ => 0) F).2 = marks at *
  have hcell := fun n o => subBlockInterleavingTurbo_cell (codedBlock enc.1) w (D := D) (n := n) (o := o)
  generalize (subBlockInterleavingTurbo D (codedBlock enc.1) w).2.2 = tx at *
  rw [gainsOfCell_congr hring hN] at hgain
  obtain ⟨soft', hrun, hcells⟩ := deliverAll_toInt hready hlive hmarks soft hgain
  refine ⟨soft', hrun, ?_, ?_, ?_⟩
  · intro n hn o ho _
    have hbuffer := bufferCell_lt .turbo hn ho
    rw [subBlockDeinterleavingTurbo_cell r _ hn ho, hcells _ hbuffer, hcell n o hn ho,
      gainsOfCell_congr hring hN]
    rfl
  · intro n hn o ho hnull
    have hbuffer := bufferCell_lt .turbo hn ho
    rw [← hcell n o hn ho] at hnull
    have hzero := hcells _ hbuffer
    rw [ringSize, gainsOfCell_null hlive hnull, List.sum_nil, Int.mul_zero] at hzero
    rw [subBlockDeinterleavingTurbo_cell r _ hn ho]
    exact BitVec.eq_of_toInt_eq hzero
  · intro n hn o ho hcoded t' _
    have hbuffer := bufferCell_lt .turbo hn ho
    rw [← hcell n o hn ho] at hcoded
    have hlive' : ∃ i < 3 * cellCount D, isNull tx i = false := by
      obtain ⟨i, hi, hne⟩ := hlive
      exact ⟨i, hi, isNull_eq_false.mpr hne⟩
    obtain ⟨v, hv, hlen⟩ := visits_length t'.p.ind hlive' hbuffer
      (isNull_eq_false.mpr hcoded) t'.p.E
    rw [hring.bits] at hv hlen
    refine ⟨v, hv, ?_⟩
    rw [bitsOfCell, bitCell_congr hring hN]
    exact hlen

theorem harq_roundTrip_two_transmissions :
    let t (rvidx : Nat) : Transmission := ⟨⟨2, 200, 1, 1827072, 8, 1, rvidx, 2, 1, 0⟩, fun _ => 0, fun _ => 50⟩
    let d := codedBlock (threegpplteTurboEncoder (fun _ => 0xa5) 5 (fun _ => 0) 0 3 10).1
    let marks := (generateDummyW 44 (fun _ => 0) 0).2
    ∃ soft', deliverAll (subBlockInterleavingTurbo 44 d fun _ => 0).2.2 marks (fun _ => 7) (t 0) [t 2] =
        some soft' ∧
      Combined 44 (3 * 44 + 1 - 2 * 0) d marks [t 0, t 2]
        (subBlockDeinterleavingTurbo 44 (fun _ => 0) soft') := by
  intro t d marks
  have hready : ∀ t' ∈ [t 0, t 2], t'.p.Ready (rowCount (8 * 5 + 4)) := by
    intro t' ht'
    rcases List.mem_pair.mp ht' with rfl | rfl
    · exact ⟨rfl, by decide, by decide, by decide, by decide, by decide, by decide, by decide, by decide⟩
    · exact ⟨rfl, by decide, by decide, by decide, by decide, by decide, by decide, by decide, by decide⟩
  have hbound : ∀ t' ∈ [t 0, t 2], ∀ i, (t'.gain i).toInt.natAbs ≤ 50 := by
    intro t' ht' i
    rcases List.mem_pair.mp ht' with rfl | rfl
    · exact le_of_eq (by rfl)
    · exact le_of_eq (by rfl)
  exact harq_roundTrip (by decide : Legal 5) (by decide) (by decide : 0 < 64) (by decide) (fun _ => 0xa5) (fun _ => 0) (fun _ => 0) (fun _ => 7) (fun _ => 0) hready
    (fun j _ => (gainsOfCell_le hbound j).trans (by decide))

/-! ## The convolutional code -/

noncomputable def gainsOfCellCc (marks : Nat → BitVec 8) (N E : Nat) (gain : Nat → BitVec 8) (j : Nat) :
    List Int := (bitsOfCell marks N 0 E j).map fun k => (gain k).toInt

structure SentCc (D E : Nat) (d : Nat → BitVec 8) (marks e e' gain : Nat → BitVec 8)
    (restored : Int → BitVec 8) : Prop where
  bits : ∀ k < E, ∃ n < D, ∃ o < 3, e' k = d (3 * n + o)
  frame : ∀ k, E ≤ k → e' k = e k
  /-- A bit arrives with the sum of the gains of its copies, cut off at four bits. -/
  restored : ∀ n < D, ∀ o : Nat, o < 3 → (restored (3 * n + o)).toInt = max (-8) (min 7
    (bitSign (d (3 * n + o)) * (gainsOfCellCc marks (3 * cellCount D) E gain (Coding.cc.bufferCell D n o)).sum))

theorem exists_of_live_cc {d w : Nat → BitVec 8} {D j : Nat} (hj : j < 3 * cellCount D)
    (hlive : (subBlockInterleavingCc D (codedBlock d) w).2 j ≠ LTE_NULL) :
    ∃ n < D, ∃ o < 3, (subBlockInterleavingCc D (codedBlock d) w).2 j = d (3 * n + o) := by
  have hadd := dummyCount_add D
  obtain ⟨k, hk, o, ho, rfl⟩ := Coding.cc.exists_out hj
  have horder := Coding.cc.order_lt hk
  have hshift : Coding.cc.shift o = o := by
    rcases (by omega : o = 0 ∨ o = 1 ∨ o = 2) with rfl | rfl | rfl <;> rfl
  rw [subBlockInterleavingCc_eq] at hlive ⊢
  simp only at hlive ⊢
  rw [stores_cell (Coding.cc.out_distinct D) hk ho, Coding.source, hshift] at hlive ⊢
  rcases Nat.lt_or_ge (Coding.cc.order D k) (dummyCount D) with hlt | hge
  · exact absurd (codedBlock_neg d (by omega)) hlive
  · have hplace : (3 * (Coding.cc.order D k : Int) - 3 * dummyCount D + o) =
        3 * (Coding.cc.order D k - dummyCount D : Nat) + o := by omega
    rw [hplace, codedBlock_cell]
    exact ⟨_, by omega, o, ho, rfl⟩

theorem lteRateMatchingCc_eq {RCC : Nat} (hsize : 3 * (RCC * 32) < 65536) {w : Nat → BitVec 8}
    (hlive : ∃ i < 3 * (RCC * 32), w i ≠ LTE_NULL) (E : BitVec 16) (e : Nat → BitVec 8) :
    lteRateMatchingCc RCC E w e = some (E.toNat, fun k =>
      if k < E.toNat then w (bitCell w (3 * (RCC * 32)) 0 k) else e k) := by
  have hKw : circularSizeCc RCC = 3 * (RCC * 32) := Nat.mod_eq_of_lt hsize
  have hN : 0 < 3 * (RCC * 32) := by
    obtain ⟨i, hi, -⟩ := hlive
    omega
  rw [lteRateMatchingCc, hKw, matchLoop_eq hlive hN, Option.map_some]
  congr 2
  funext k
  have hstretch := foldl_update_stretch 0 (fun k => w (bitCell w (3 * (RCC * 32)) 0 k)) e E.toNat k
  simp only [Nat.zero_add, Nat.zero_le, true_and, Nat.sub_zero] at hstretch
  exact hstretch

theorem lteRateMatchingCcRx_eq {RCC : Nat} (hsize : 3 * (RCC * 32) < 65536) {marks : Nat → BitVec 8}
    (hlive : ∃ i < 3 * (RCC * 32), marks i ≠ LTE_NULL) (E : BitVec 16) (w soft_input : Nat → BitVec 8) :
    ∃ w', lteRateMatchingCcRx RCC E w marks soft_input = some w' ∧ ∀ j < 3 * (RCC * 32), w' j =
      rescale ((bitsOfCell marks (3 * (RCC * 32)) 0 E.toNat j).foldl
        (fun a k => a + (soft_input k).signExtend 16) 0) := by
  have hKw : circularSizeCc RCC = 3 * (RCC * 32) := Nat.mod_eq_of_lt hsize
  have hN : 0 < 3 * (RCC * 32) := by
    obtain ⟨i, hi, -⟩ := hlive
    omega
  rw [lteRateMatchingCcRx, hKw, matchLoop_eq hlive hN, Option.map_some]
  refine ⟨_, rfl, ?_⟩
  intro j hj
  simp only [if_pos hj]
  rw [foldl_update_visits _ fun a k => a + (soft_input k).signExtend 16]
  rfl

structure MatchedCc (D E : Nat) (d marks e e' : Nat → BitVec 8) : Prop where
  bits : ∀ k < E, ∃ n < D, ∃ o < 3, e' k = d (3 * n + o)
  frame : ∀ k, E ≤ k → e' k = e k
  copies : ∀ n < D, ∀ o : Nat, o < 3 →
    ∀ k ∈ bitsOfCell marks (3 * cellCount D) 0 E (Coding.cc.bufferCell D n o), e' k = d (3 * n + o)

theorem lteRateMatchingCc_matched {d : Nat → BitVec 8} {D : Nat} {marks w : Nat → BitVec 8} (hD : 0 < D)
    (hsize : 3 * cellCount D < 65536)
    (hring : RingAgrees D (3 * D) marks (subBlockInterleavingCc D (codedBlock d) w).2)
    (E : BitVec 16) (e : Nat → BitVec 8) :
    ∃ e', lteRateMatchingCc (rowCount D) E (subBlockInterleavingCc D (codedBlock d) w).2 e =
      some (E.toNat, e') ∧ MatchedCc D E.toNat d marks e e' := by
  have hlive := hring.live (by omega)
  have hN : 0 < 3 * cellCount D := by
    have hadd := dummyCount_add D
    omega
  have hcell := fun n o => subBlockInterleavingCc_cell (codedBlock d) w (D := D) (n := n) (o := o)
  have hexists := fun j => exists_of_live_cc (d := d) (w := w) (D := D) (j := j)
  generalize (subBlockInterleavingCc D (codedBlock d) w).2 = tx at *
  refine ⟨_, lteRateMatchingCc_eq hsize hlive E e, ?_, ?_, ?_⟩
  · intro k hk
    have hblank : ∃ i < 3 * cellCount D, isNull tx i = false := by
      obtain ⟨i, hi, hne⟩ := hlive
      exact ⟨i, hi, isNull_eq_false.mpr hne⟩
    obtain ⟨n, hn, o, ho, hbit⟩ := hexists (bitCell tx (3 * cellCount D) 0 k) (pick_lt hN k)
      (isNull_eq_false.mp (blank_pick 0 hblank k))
    exact ⟨n, hn, o, ho, (if_pos hk).trans hbit⟩
  · intro k hk
    exact if_neg (by omega)
  · intro n hn o ho k hk
    have hvalue := hcell n o hn ho
    rw [codedBlock_cell] at hvalue
    obtain ⟨hkE, hat⟩ := mem_bitsOfCell.mp hk
    rw [bitCell_congr hring hN] at hat
    rw [if_pos hkE, ringSize, hat, hvalue]

theorem lteRateMatchingCcRx_cells {D : Nat} {marks : Nat → BitVec 8} (hsize : 3 * cellCount D < 65536)
    (hlive : ∃ i < 3 * cellCount D, marks i ≠ LTE_NULL) (E : BitVec 16) (wRx soft : Nat → BitVec 8)
    (r : Int → BitVec 8) : ∃ w', lteRateMatchingCcRx (rowCount D) E wRx marks soft = some w' ∧
      ∀ n < D, ∀ o : Nat, o < 3 → subBlockDeinterleavingCc D r w' (3 * n + o) = rescale
        ((bitsOfCell marks (3 * cellCount D) 0 E.toNat (Coding.cc.bufferCell D n o)).foldl
          (fun a k => a + (soft k).signExtend 16) 0) := by
  obtain ⟨w', hrx, hcells⟩ := lteRateMatchingCcRx_eq hsize hlive E wRx soft
  refine ⟨w', hrx, ?_⟩
  intro n hn o ho
  rw [subBlockDeinterleavingCc_cell r _ hn ho, hcells _ (bufferCell_lt .cc hn ho), ringSize]

theorem RingAgrees.marks_live {D bits : Nat} {marks w : Nat → BitVec 8} (h : RingAgrees D bits marks w)
    (hbits : 0 < bits) : ∃ i < 3 * cellCount D, marks i ≠ LTE_NULL := by
  obtain ⟨i, hi, hne⟩ := h.live hbits
  exact ⟨i, hi, fun hnull => hne ((h.marks i hi).mp hnull)⟩

/-- The rate matching of the control and broadcast channels and its inverse, for every block and every
number of bits that it is sent in. -/
theorem rateMatchingCc_roundTrip {d : Nat → BitVec 8} {D : Nat} (hd : NullsAt d D 0) (hD : 0 < D)
    (hsize : 3 * cellCount D < 65536) (E : BitVec 16) (w e wRx gain : Nat → BitVec 8)
    (r : Int → BitVec 8) (hmin : ∀ k < E.toNat, gain k ≠ BitVec.intMin 8)
    (hsum : ∀ j < 3 * cellCount D, ((gainsOfCellCc (generateDummyWCc D (fun _ => 0)).2
      (3 * cellCount D) E.toNat gain j).map Int.natAbs).sum ≤ 32767) :
    let marks := (generateDummyWCc D (fun _ => 0)).2
    ∃ e', lteRateMatchingCc (rowCount D) E (subBlockInterleavingCc D (codedBlock d) w).2 e =
        some (E.toNat, e') ∧
      ∃ w', lteRateMatchingCcRx (rowCount D) E wRx marks (fun k => arrive (gain k) (e' k)) = some w' ∧
        SentCc D E.toNat d marks e e' gain (subBlockDeinterleavingCc D r w') := by
  simp only
  have hring := ringAgrees_cc hd (fun _ _ => zero_ne_null) w
  obtain ⟨e', htx, hmatched⟩ := lteRateMatchingCc_matched hD hsize hring E e
  obtain ⟨w', hrx, hcells⟩ := lteRateMatchingCcRx_cells hsize (hring.marks_live (by omega)) E wRx
    (fun k => arrive (gain k) (e' k)) r
  refine ⟨e', htx, w', hrx, hmatched.bits, hmatched.frame, ?_⟩
  intro n hn o ho
  have hcopies := hmatched.copies n hn o ho
  have hsum' := hsum _ (bufferCell_lt .cc hn ho)
  rw [hcells n hn o ho, rescale_toInt]
  have hfold : (bitsOfCell (generateDummyWCc D fun _ => 0).2 (3 * cellCount D) 0 E.toNat
      (Coding.cc.bufferCell D n o)).foldl
        (fun (a : BitVec 16) k => a + (arrive (gain k) (e' k)).signExtend 16) 0 =
      (bitsOfCell (generateDummyWCc D fun _ => 0).2 (3 * cellCount D) 0 E.toNat
        (Coding.cc.bufferCell D n o)).foldl
          (fun (a : BitVec 16) k => a + (arrive (gain k) (d (3 * n + o))).signExtend 16) 0 := by
    apply List.foldl_ext
    intro a k hk
    rw [hcopies k hk]
  have hgain : ∀ k ∈ bitsOfCell (generateDummyWCc D fun _ => 0).2 (3 * cellCount D) 0 E.toNat
      (Coding.cc.bufferCell D n o), gain k ≠ BitVec.intMin 8 :=
    fun k hk => hmin k (mem_bitsOfCell.mp hk).1
  rw [gainsOfCellCc, List.map_map] at hsum'
  have hzero : (0 : BitVec 16).toInt = 0 := rfl
  rw [hfold, softSum_toInt accumulate_of_le (fun k => arrive (gain k) (d (3 * n + o))),
    arrive_map gain _ hgain, List.sum_map_mul_left, gainsOfCellCc]
  · rw [hzero, Int.zero_add]
  · rw [hzero, Int.natAbs_zero, Nat.zero_add]
    exact (congrArg List.sum (natAbs_arrive_map gain _ hgain)).trans_le hsum'

theorem rateMatchingCc_roundTrip_72_bits :
    let d : Nat → BitVec 8 := fun i => if i % 5 = 0 then 1 else 0
    let marks := (generateDummyWCc 44 (fun _ => 0)).2
    ∃ e', lteRateMatchingCc 2 72 (subBlockInterleavingCc 44 (codedBlock d) fun _ => 0).2 (fun _ => 9) =
        some (72, e') ∧
      ∃ w', lteRateMatchingCcRx 2 72 (fun _ => 9) marks (fun k => arrive 7 (e' k)) = some w' ∧
        SentCc 44 72 d marks (fun _ => 9) e' (fun _ => 7) (subBlockDeinterleavingCc 44 (fun _ => 0) w') := by
  have hd : NullsAt (fun i => if i % 5 = 0 then 1 else 0) 44 0 := by
    intro n hn o ho
    refine ⟨fun h => ?_, fun h => absurd h.2 (Nat.not_lt_zero n)⟩
    simp only at h
    split at h <;> exact absurd h (by decide)
  refine rateMatchingCc_roundTrip hd (by decide) (by decide) 72 (fun _ => 0) (fun _ => 9) (fun _ => 9)
    (fun _ => 7) (fun _ => 0) (fun _ _ => by decide) (fun j _ => ?_)
  have hseven : ∀ x ∈ (gainsOfCellCc (generateDummyWCc 44 (fun _ => 0)).2 (3 * cellCount 44)
      (72 : BitVec 16).toNat (fun _ => 7) j).map Int.natAbs, x ≤ 7 := by
    intro x hx
    simp only [gainsOfCellCc, List.map_map, List.mem_map] at hx
    obtain ⟨k, -, rfl⟩ := hx
    exact le_of_eq rfl
  have hlength : ((gainsOfCellCc (generateDummyWCc 44 (fun _ => 0)).2 (3 * cellCount 44)
      (72 : BitVec 16).toNat (fun _ => 7) j).map Int.natAbs).length ≤ 72 := by
    rw [gainsOfCellCc, List.length_map, List.length_map, bitsOfCell, visits]
    exact (List.length_filter_le _ _).trans (List.length_range).le
  have hsum := List.sum_le_card_nsmul _ 7 hseven
  rw [smul_eq_mul] at hsum
  omega

end PdmaXen.Lte
