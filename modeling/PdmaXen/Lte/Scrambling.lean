import PdmaXen.Lte.Gold
import Mathlib.Logic.Function.Basic

/-!
# Scrambling

The scramblers of the shared, the control and the broadcast channel add the sequence to the
coded bits; the unscramblers negate soft values.
-/

namespace PdmaXen.Lte
set_option autoImplicit false

/-! ## The source -/

/-- `x1`, `x2`, `s` and `reset` in the loops. -/
structure Generator where
  x1 : BitVec 32
  x2 : BitVec 32
  s : BitVec 32
  reset : Bool

def Generator.next (g : Generator) (i : Nat) : Generator :=
  if i % 32 = 0 then
    let r := lteGoldGeneric g.x1 g.x2 g.reset
    ⟨r.2.1, r.2.2, r.1, false⟩
  else g

/-- The loop over the first cells: `body i c` is applied to cell `i`, with `c` the bit of `s`. -/
def goldLoop {α : Type} (body : Nat → BitVec 32 → α → α) (x1 x2 : BitVec 32) (e : Nat → α) :
    Nat → Generator × (Nat → α)
  | 0 => (⟨x1, x2, 0, true⟩, e)
  | i + 1 =>
    let r := goldLoop body x1 x2 e i
    let g := r.1.next i
    (g, Function.update r.2 i (body i ((g.s >>> (i % 32)) &&& 1) (r.2 i)))

def scrambleBit (c : BitVec 32) (e : BitVec 8) : BitVec 8 := ((e &&& 1).setWidth 32 ^^^ c).setWidth 8

/-- `if (c == 0) llr[i] = -llr[i]`. -/
def unscrambleSoft {w : Nat} (c : BitVec 32) (llr : BitVec w) : BitVec w := if c = 0 then -llr else llr

def dlschInit (frame_parms : FrameParms) (rnti : BitVec 16) (q Ns : BitVec 8) : BitVec 32 :=
  (rnti.setWidth 32 <<< 14) + (q.setWidth 32 <<< 13) + ((Ns >>> 1).setWidth 32 <<< 9) +
    frame_parms.Nid_cell.setWidth 32

def dlschScrambling (frame_parms : FrameParms) (rnti G : BitVec 16) (q Ns : BitVec 8)
    (x1 : BitVec 32) (e : Nat → BitVec 8) : Nat → BitVec 8 :=
  (goldLoop (fun _ => scrambleBit) x1 (dlschInit frame_parms rnti q Ns) e G.toNat).2

def dlschUnscrambling (frame_parms : FrameParms) (rnti G : BitVec 16) (q Ns : BitVec 8)
    (x1 : BitVec 32) (llr : Nat → BitVec 16) : Nat → BitVec 16 :=
  (goldLoop (fun _ => unscrambleSoft) x1 (dlschInit frame_parms rnti q Ns) llr G.toNat).2

def pdcchInit (frame_parms : FrameParms) (subframe : BitVec 8) : BitVec 32 :=
  (subframe.setWidth 32 <<< 9) + frame_parms.Nid_cell.setWidth 32

def pdcchScrambling (frame_parms : FrameParms) (subframe : BitVec 8) (length : Nat) (x1 : BitVec 32)
    (e : Nat → BitVec 8) : Nat → BitVec 8 :=
  (goldLoop (fun _ => scrambleBit) x1 (pdcchInit frame_parms subframe) e length).2

def pdcchUnscrambling (frame_parms : FrameParms) (subframe : BitVec 8) (length : Nat)
    (x1 : BitVec 32) (llr : Nat → BitVec 8) : Nat → BitVec 8 :=
  (goldLoop (fun _ => unscrambleSoft) x1 (pdcchInit frame_parms subframe) llr length).2

def pbchScrambling (frame_parms : FrameParms) (length : Nat) (x1 : BitVec 32)
    (pbch_e : Nat → BitVec 8) : Nat → BitVec 8 :=
  (goldLoop (fun _ => scrambleBit) x1 (frame_parms.Nid_cell.setWidth 32) pbch_e length).2

/-- The cells of the quarter that the frame carries. -/
def inQuarter (length : Nat) (frame_mod4 : BitVec 8) (i : Nat) : Prop :=
  frame_mod4.toNat * (length / 4) ≤ i ∧ i < (1 + frame_mod4.toNat) * (length / 4)

instance (length : Nat) (frame_mod4 : BitVec 8) (i : Nat) :
    Decidable (inQuarter length frame_mod4 i) :=
  inferInstanceAs (Decidable (_ ∧ _))

def pbchUnscrambling (frame_parms : FrameParms) (length : Nat) (frame_mod4 : BitVec 8)
    (x1 : BitVec 32) (llr : Nat → BitVec 8) : Nat → BitVec 8 :=
  (goldLoop (fun i c llr => if inQuarter length frame_mod4 i then unscrambleSoft c llr else llr)
    x1 (frame_parms.Nid_cell.setWidth 32) llr length).2

/-! ## The loops follow the sequence -/

/-- The word that is in use for the cells `32 * k` to `32 * k + 31`. -/
structure Feeds (c_init : BitVec 31) (i : Nat) (g : Generator) : Prop where
  reset : g.reset = decide (i = 0)
  registers : 0 < i → Registers c_init (32 * ((i - 1) / 32) + 1600) g.x1 g.x2
  word : 0 < i → ∀ j < 32, g.s.getLsbD j = gold c_init (32 * ((i - 1) / 32) + j)

theorem Feeds.next {x2 : BitVec 32} (hmsb : x2.getLsbD 31 = false) {i : Nat} {g : Generator}
    (h : Feeds (x2.setWidth 31) i g) (hstart : i = 0 → g.x2 = x2) :
    Feeds (x2.setWidth 31) (i + 1) (g.next i) := by
  rcases Nat.eq_zero_or_pos i with rfl | hpos
  · have hfirst := lteGoldGeneric_first g.x1 hmsb
    rw [← hstart rfl] at hfirst ⊢
    have hnext : g.next 0 = ⟨(lteGoldGeneric g.x1 g.x2 true).2.1, (lteGoldGeneric g.x1 g.x2 true).2.2,
        (lteGoldGeneric g.x1 g.x2 true).1, false⟩ := by
      rw [Generator.next, if_pos (Nat.zero_mod 32), h.reset, decide_eq_true rfl]
    rw [hnext]
    exact ⟨by simp, fun _ => hfirst.registers, fun _ => hfirst.word⟩
  · by_cases hword : i % 32 = 0
    · have hreset : g.reset = false := by rw [h.reset, decide_eq_false (by omega)]
      have hplace : 32 * ((i - 1) / 32) + 32 = 32 * ((i + 1 - 1) / 32) := by omega
      have hstep := lteGoldGeneric_next (h.registers hpos)
      rw [hplace] at hstep
      have hnext : g.next i = ⟨(lteGoldGeneric g.x1 g.x2 false).2.1,
          (lteGoldGeneric g.x1 g.x2 false).2.2, (lteGoldGeneric g.x1 g.x2 false).1, false⟩ := by
        rw [Generator.next, if_pos hword, hreset]
      rw [hnext]
      exact ⟨by simp, fun _ => hstep.registers, fun _ => hstep.word⟩
    · have hsame : (i - 1) / 32 = (i + 1 - 1) / 32 := by omega
      have hreset : decide (i = 0) = decide (i + 1 = 0) := by simp [hpos.ne']
      rw [Generator.next, if_neg hword]
      exact ⟨h.reset.trans hreset, fun _ => hsame ▸ h.registers hpos, fun _ => hsame ▸ h.word hpos⟩

section Loop
variable {α : Type} (body : Nat → BitVec 32 → α → α) (x1 x2 : BitVec 32) (e : Nat → α)

theorem goldLoop_feeds (hmsb : x2.getLsbD 31 = false) (n : Nat) :
    Feeds (x2.setWidth 31) n (goldLoop body x1 x2 e n).1 ∧
      (n = 0 → (goldLoop body x1 x2 e n).1.x2 = x2) := by
  induction n with
  | zero => exact ⟨⟨rfl, fun h => absurd h (lt_irrefl 0), fun h => absurd h (lt_irrefl 0)⟩, fun _ => rfl⟩
  | succ n ih => exact ⟨ih.1.next hmsb ih.2, fun h => absurd h n.succ_ne_zero⟩

theorem goldLoop_bit (hmsb : x2.getLsbD 31 = false) (n : Nat) :
    ((goldLoop body x1 x2 e (n + 1)).1.s >>> (n % 32)) &&& 1 =
      (BitVec.ofBool (gold (x2.setWidth 31) n)).setWidth 32 := by
  have hword := (goldLoop_feeds body x1 x2 e hmsb (n + 1)).1.word n.succ_pos (n % 32)
    (Nat.mod_lt n (by omega))
  have hplace : 32 * ((n + 1 - 1) / 32) + n % 32 = n := by omega
  rw [hplace] at hword
  apply BitVec.eq_of_getLsbD_eq
  intro j hj
  rw [BitVec.getLsbD_and, BitVec.getLsbD_ushiftRight, BitVec.getLsbD_setWidth, BitVec.getLsbD_ofBool,
    BitVec.ofNat_eq_ofNat, BitVec.getLsbD_one]
  rcases Nat.eq_zero_or_pos j with rfl | hpos
  · simp [hword]
  · simp [hpos.ne']

/-- Every cell the loop has passed was changed once, with its own bit of the sequence. -/
theorem goldLoop_cell (hmsb : x2.getLsbD 31 = false) (n i : Nat) :
    (goldLoop body x1 x2 e n).2 i =
      if i < n then body i ((BitVec.ofBool (gold (x2.setWidth 31) i)).setWidth 32) (e i) else e i := by
  induction n with
  | zero => rfl
  | succ n ih =>
    have hcell : (goldLoop body x1 x2 e (n + 1)).2 = Function.update (goldLoop body x1 x2 e n).2 n
        (body n (((goldLoop body x1 x2 e (n + 1)).1.s >>> (n % 32)) &&& 1)
          ((goldLoop body x1 x2 e n).2 n)) := rfl
    rw [hcell, goldLoop_bit body x1 x2 e hmsb]
    rcases Nat.lt_trichotomy i n with hlt | rfl | hgt
    · rw [Function.update_of_ne hlt.ne, ih, if_pos hlt, if_pos (hlt.trans n.lt_succ_self)]
    · rw [Function.update_self, ih, if_neg (lt_irrefl i), if_pos i.lt_succ_self]
    · rw [Function.update_of_ne hgt.ne', ih, if_neg hgt.not_gt, if_neg (by omega)]

end Loop

/-! ## Initial values -/

theorem getLsbD_31_of_lt {x : BitVec 32} (h : x.toNat < 2147483648) : x.getLsbD 31 = false := by
  rw [← BitVec.testBit_toNat]
  exact Nat.testBit_lt_two_pow h

theorem dlschInit_toNat (frame_parms : FrameParms) (rnti : BitVec 16) (q Ns : BitVec 8) :
    (dlschInit frame_parms rnti q Ns).toNat =
      rnti.toNat * 16384 + q.toNat * 8192 + Ns.toNat / 2 * 512 + frame_parms.Nid_cell.toNat := by
  have h1 := rnti.isLt
  have h2 := q.isLt
  have h3 := Ns.isLt
  have h4 := frame_parms.Nid_cell.isLt
  simp only [dlschInit, BitVec.toNat_add, BitVec.toNat_shiftLeft, BitVec.toNat_setWidth,
    BitVec.toNat_ushiftRight, Nat.shiftLeft_eq, Nat.shiftRight_eq_div_pow]
  omega

theorem pdcchInit_toNat (frame_parms : FrameParms) (subframe : BitVec 8) :
    (pdcchInit frame_parms subframe).toNat = subframe.toNat * 512 + frame_parms.Nid_cell.toNat := by
  have h1 := subframe.isLt
  have h2 := frame_parms.Nid_cell.isLt
  simp only [pdcchInit, BitVec.toNat_add, BitVec.toNat_shiftLeft, BitVec.toNat_setWidth,
    Nat.shiftLeft_eq]
  omega

theorem pbchInit_toNat (frame_parms : FrameParms) :
    (frame_parms.Nid_cell.setWidth 32).toNat = frame_parms.Nid_cell.toNat := by
  have h1 := frame_parms.Nid_cell.isLt
  rw [BitVec.toNat_setWidth]
  omega

/-! ## Round trips -/

def soft {w : Nat} (gain : BitVec w) (output : BitVec 8) : BitVec w :=
  if output = 1 then -gain else gain

theorem scrambleBit_ofBool (c : Bool) (e : BitVec 8) :
    scrambleBit ((BitVec.ofBool c).setWidth 32) e =
      (BitVec.ofBool (e.getLsbD 0 ^^ c)).setWidth 8 := by
  apply BitVec.eq_of_getLsbD_eq
  intro j hj
  rw [scrambleBit, BitVec.getLsbD_setWidth, BitVec.getLsbD_xor, BitVec.getLsbD_setWidth,
    BitVec.getLsbD_and, BitVec.getLsbD_setWidth, BitVec.getLsbD_setWidth, BitVec.getLsbD_ofBool,
    BitVec.getLsbD_ofBool, BitVec.ofNat_eq_ofNat, BitVec.getLsbD_one]
  rcases Nat.eq_zero_or_pos j with rfl | hpos
  · simp
  · simp [hpos.ne']

/-- Unscrambling what a scrambled bit is sent as gives the gain for a one and minus the gain for a
zero. -/
theorem unscrambleSoft_soft {w : Nat} (c : Bool) (e : BitVec 8) (gain : BitVec w) :
    unscrambleSoft ((BitVec.ofBool c).setWidth 32)
        (soft gain ((BitVec.ofBool (e.getLsbD 0 ^^ c)).setWidth 8)) =
      if e.getLsbD 0 then gain else -gain := by
  cases c <;> cases e.getLsbD 0 <;> simp [unscrambleSoft, soft]

/-- What a loop over `n` cells leaves on the way out and on the way back: the sequence of `c_init`
is added to the bits of the cells, and taken off the soft values of those that `here` picks. -/
structure RoundTrip {w : Nat} (c_init n : Nat) (here : Nat → Prop) (e : Nat → BitVec 8)
    (gain : Nat → BitVec w) (sent : Nat → BitVec 8) (received : Nat → BitVec w) : Prop where
  sent_cell : ∀ i < n, sent i = (BitVec.ofBool ((e i).getLsbD 0 ^^ gold (BitVec.ofNat 31 c_init) i)).setWidth 8
  sent_beyond : ∀ i, n ≤ i → sent i = e i
  received_cell : ∀ i < n, here i → received i = if (e i).getLsbD 0 then gain i else -gain i
  received_elsewhere : ∀ i, ¬ (i < n ∧ here i) → received i = soft (gain i) (sent i)

theorem goldLoop_roundTrip {w : Nat} {x2 : BitVec 32} {c_init : Nat} (hinit : x2.toNat = c_init)
    (hsmall : c_init < 2147483648) (n : Nat) (here : Nat → Prop) [DecidablePred here]
    (x1 x1' : BitVec 32) (e : Nat → BitVec 8) (gain : Nat → BitVec w) :
    RoundTrip c_init n here e gain (goldLoop (fun _ => scrambleBit) x1 x2 e n).2
      (goldLoop (fun i c llr => if here i then unscrambleSoft c llr else llr) x1' x2
        (fun i => soft (gain i) ((goldLoop (fun _ => scrambleBit) x1 x2 e n).2 i)) n).2 := by
  have hmsb : x2.getLsbD 31 = false := getLsbD_31_of_lt (hinit ▸ hsmall)
  have hseed : x2.setWidth 31 = BitVec.ofNat 31 c_init := by
    rw [← hinit]
    rfl
  have hsent : ∀ i < n, (goldLoop (fun _ => scrambleBit) x1 x2 e n).2 i =
      (BitVec.ofBool ((e i).getLsbD 0 ^^ gold (BitVec.ofNat 31 c_init) i)).setWidth 8 := by
    intro i hi
    rw [goldLoop_cell _ _ _ _ hmsb, if_pos hi, hseed, scrambleBit_ofBool]
  constructor
  · exact hsent
  · intro i hi
    rw [goldLoop_cell _ _ _ _ hmsb, if_neg (Nat.not_lt.mpr hi)]
  · intro i hi hhere
    rw [goldLoop_cell _ _ _ _ hmsb, if_pos hi, if_pos hhere, hsent i hi, hseed]
    exact unscrambleSoft_soft _ _ _
  · intro i hi
    rw [goldLoop_cell _ _ _ _ hmsb]
    by_cases hlt : i < n
    · rw [if_pos hlt, if_neg fun hhere => hi ⟨hlt, hhere⟩]
    · rw [if_neg hlt]

theorem goldLoop_congr {α : Type} {body : Nat → BitVec 32 → α → α} (body' : Nat → BitVec 32 → α → α)
    (h : ∀ i c a, body i c a = body' i c a) : goldLoop body = goldLoop body' := by
  have hbody : body = body' := funext fun i => funext fun c => funext fun a => h i c a
  rw [hbody]

/-- The shared, the control and the broadcast channel: what is sent is the bits with the sequence of
36.211 for the channel's initial value added, and the unscrambler turns it back. On the broadcast
channel it does so in the quarter of the frame, and leaves the other soft values as they came. -/
theorem scrambling_roundTrip (frame_parms : FrameParms) (x1 x1' : BitVec 32) (e : Nat → BitVec 8) :
    (∀ (rnti G : BitVec 16) (q Ns : BitVec 8) (gain : Nat → BitVec 16),
      let sent := dlschScrambling frame_parms rnti G q Ns x1 e
      RoundTrip (rnti.toNat * 16384 + q.toNat * 8192 + Ns.toNat / 2 * 512 +
          frame_parms.Nid_cell.toNat) G.toNat (fun _ => True) e gain sent
        (dlschUnscrambling frame_parms rnti G q Ns x1' fun i => soft (gain i) (sent i))) ∧
    (∀ (subframe : BitVec 8) (length : Nat) (gain : Nat → BitVec 8),
      let sent := pdcchScrambling frame_parms subframe length x1 e
      RoundTrip (subframe.toNat * 512 + frame_parms.Nid_cell.toNat) length (fun _ => True) e gain
        sent (pdcchUnscrambling frame_parms subframe length x1' fun i => soft (gain i) (sent i))) ∧
    ∀ (length : Nat) (frame_mod4 : BitVec 8) (gain : Nat → BitVec 8),
      let sent := pbchScrambling frame_parms length x1 e
      RoundTrip frame_parms.Nid_cell.toNat length (inQuarter length frame_mod4) e gain sent
        (pbchUnscrambling frame_parms length frame_mod4 x1' fun i => soft (gain i) (sent i)) := by
  have hcell := frame_parms.Nid_cell.isLt
  refine ⟨?shared, ?control, ?broadcast⟩
  case shared =>
    intro rnti G q Ns gain
    have h1 := rnti.isLt
    have h2 := q.isLt
    have h3 := Ns.isLt
    have htrip := goldLoop_roundTrip (dlschInit_toNat frame_parms rnti q Ns) (by omega) G.toNat
      (fun _ => True) x1 x1' e gain
    rwa [goldLoop_congr (fun _ => unscrambleSoft) fun i c a => if_pos trivial] at htrip
  case control =>
    intro subframe length gain
    have h1 := subframe.isLt
    have htrip := goldLoop_roundTrip (pdcchInit_toNat frame_parms subframe) (by omega) length
      (fun _ => True) x1 x1' e gain
    rwa [goldLoop_congr (fun _ => unscrambleSoft) fun i c a => if_pos trivial] at htrip
  case broadcast =>
    intro length frame_mod4 gain
    exact goldLoop_roundTrip (pbchInit_toNat frame_parms) (by omega) length
      (inQuarter length frame_mod4) x1 x1' e gain

end PdmaXen.Lte
