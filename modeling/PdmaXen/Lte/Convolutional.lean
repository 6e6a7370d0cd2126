import PdmaXen.Lte.TurboEncoder

/-!
# The convolutional code

`ccoding_byte_lte.cpp`: the tables of the code, and the encoder, which puts a checksum after
the message and starts in the state in which it ends.
-/

namespace PdmaXen.Lte
set_option autoImplicit false

/-! ## The source -/

def glte : List Nat := [0o133, 0o171, 0o165]

def glte_rev : List Nat := [0o155, 0o117, 0o127]

def codeTable (g : List Nat) (i : Nat) : BitVec 8 :=
  (List.range 3).foldl (fun table j =>
    let sum := (List.range 7).foldl
      (fun sum k => if (i &&& g.getD j 0) &&& (1 <<< k) ≠ 0 then sum + 1 else sum) 0
    table ||| (BitVec.ofNat 8 (sum &&& 1) <<< j)) 0

def ccodelteTable (i : Nat) : BitVec 8 := codeTable glte i

def ccodelteTableRev (i : Nat) : BitVec 8 := codeTable glte_rev i

/-- `add_crc`: none, the 8 bits of control information or the 16 bits of a DCI. -/
inductive AddCrc where
  | none
  | uci
  | dci
  deriving DecidableEq, Repr

/-- The checksum in the highest bits of `crc`; that of a DCI is scrambled with the RNTI. -/
def codedCrc (numbits : Nat) (add_crc : AddCrc) (inPtr : Nat → BitVec 8) (rnti : BitVec 16) : BitVec 32 :=
  match add_crc with
  | .none => 0
  | .uci => crc8 inPtr numbits
  | .dci => crc16 inPtr numbits ^^^ (rnti.setWidth 32 <<< 16)

def nextLastByte (numbits : Nat) : Nat := numbits / 8 % 65536

def startOctet (numbits : Nat) (add_crc : AddCrc) (inPtr : Nat → BitVec 8) (crc : BitVec 32) :
    Option (BitVec 8 × Nat) :=
  match add_crc with
  | .none =>
    if nextLastByte numbits = 0 then none
    else some (inPtr (nextLastByte numbits - 1), (numbits + 2) % 8)
  | .uci => some ((crc >>> 24).setWidth 8, 2)
  | .dci => some ((crc >>> 16).setWidth 8, 2)

def shiftedBits (c : BitVec 8) (first_bit n : Nat) : BitVec 32 :=
  (List.range n).foldl (fun (state : BitVec 32) shiftbit =>
    if c &&& (1#8 <<< (7 - first_bit - shiftbit)) ≠ 0 then state ||| (1#32 <<< shiftbit) else state) 0

/-- The loops over `shiftbit` that set the state from the end of the message. Nothing is returned
when they would read before the message. -/
def initialState (numbits : Nat) (add_crc : AddCrc) (inPtr : Nat → BitVec 8) (crc : BitVec 32) :
    Option (BitVec 32) := do
  let (c, first_bit) ← startOctet numbits add_crc inPtr crc
  let state := shiftedBits c first_bit (8 - first_bit)
  let state := if add_crc = .none ∧ 0 < numbits % 8 then
      (List.range (numbits % 8)).foldl (fun (state : BitVec 32) i =>
        let state := state >>> 1
        if inPtr (nextLastByte numbits) &&& (1#8 <<< (numbits % 8 - 1 - i)) ≠ 0 then state ||| 64 else state) state
    else state
  return (state &&& 0x3f) <<< 1

structure EncoderState where
  state : BitVec 32
  output : Nat → BitVec 8
  outPtr : Nat

def encodeBit (st : EncoderState) (c : Bool) : EncoderState :=
  let state := st.state >>> 1
  let state := if c then state ||| 64 else state
  let out := ccodelteTable state.toNat
  ⟨state, Function.update (Function.update (Function.update st.output st.outPtr (out &&& 1))
    (st.outPtr + 1) ((out >>> 1) &&& 1)) (st.outPtr + 2) ((out >>> 2) &&& 1), st.outPtr + 3⟩

def AddCrc.bits : AddCrc → Nat
  | .none => 0
  | .uci => 8
  | .dci => 16

/-- The message is read from the highest bit of every octet on, and so is the checksum. -/
def ccodelteEncode (numbits : Nat) (add_crc : AddCrc) (inPtr outPtr : Nat → BitVec 8)
    (rnti : BitVec 16) : Option (Nat → BitVec 8) := do
  let crc := codedCrc numbits add_crc inPtr rnti
  let state ← initialState numbits add_crc inPtr crc
  let st := (List.range numbits).foldl (fun st t =>
    encodeBit st (inPtr (t / 8) &&& (1#8 <<< (7 - t % 8)) ≠ 0)) ⟨state, outPtr, 0⟩
  let c := (crc >>> (32 - add_crc.bits)).setWidth 16
  let st := (List.range add_crc.bits).foldl (fun st i =>
    encodeBit st (c &&& (1#16 <<< (add_crc.bits - 1 - i)) ≠ 0)) st
  return st.output

/-! ## The code -/

/-- Bit `j` of the code for the bits `x`, the newest first. -/
def codeBit (j : Nat) (x : Nat → Bool) : Bool :=
  (List.range 7).foldl (fun p k => p ^^ ((glte_rev.getD j 0).testBit k && x k)) false

theorem getLsbD_ccodelteTable : ∀ i < 128, ∀ j < 3,
    (ccodelteTable i).getLsbD j = codeBit j (fun k => i.testBit (6 - k)) := by
  decide +kernel

theorem getLsbD_ccodelteTableRev : ∀ i < 128, ∀ j < 3,
    (ccodelteTableRev i).getLsbD j = codeBit j (fun k => i.testBit k) := by
  decide +kernel

theorem codeBit_xor (j : Nat) (x y : Nat → Bool) :
    codeBit j (fun k => x k ^^ y k) = (codeBit j x ^^ codeBit j y) := by
  have hfold : ∀ (l : List Nat) (p q : Bool),
      l.foldl (fun p k => p ^^ ((glte_rev.getD j 0).testBit k && (x k ^^ y k))) (p ^^ q) =
        (l.foldl (fun p k => p ^^ ((glte_rev.getD j 0).testBit k && x k)) p ^^
          l.foldl (fun p k => p ^^ ((glte_rev.getD j 0).testBit k && y k)) q) := by
    intro l
    induction l with
    | nil => exact fun p q => rfl
    | cons k l ih =>
      intro p q
      have hstep : ((p ^^ q) ^^ ((glte_rev.getD j 0).testBit k && (x k ^^ y k))) =
          ((p ^^ ((glte_rev.getD j 0).testBit k && x k)) ^^
            (q ^^ ((glte_rev.getD j 0).testBit k && y k))) := by
        cases p <;> cases q <;> cases (glte_rev.getD j 0).testBit k <;> cases x k <;> cases y k <;> rfl
      rw [List.foldl_cons, List.foldl_cons, List.foldl_cons, hstep, ih]
  exact hfold (List.range 7) false false

theorem codeBit_congr (j : Nat) {x y : Nat → Bool} (h : ∀ k < 7, x k = y k) :
    codeBit j x = codeBit j y := by
  apply List.foldl_ext
  intro p k hk
  rw [h k (List.mem_range.mp hk)]

/-! ## The encoder -/

theorem and_shift_ne_zero {n : Nat} (c : BitVec n) {i : Nat} (hi : i < n) :
    c &&& (1#n <<< i) ≠ 0 ↔ c.getLsbD i = true := by
  have hpow : (1#n <<< i) = BitVec.twoPow n i := (BitVec.twoPow_eq n i).symm
  have hne : BitVec.twoPow n i ≠ 0#n := by
    intro h
    have hbit := congrArg (fun x => BitVec.getLsbD x i) h
    simp [hi] at hbit
  rw [hpow, BitVec.and_twoPow]
  split
  · rename_i h
    exact ⟨fun _ => h, fun _ => hne⟩
  · rename_i h
    exact ⟨fun h0 => absurd rfl h0, fun h1 => absurd h1 h⟩

def codedBits (numbits : Nat) (inPtr : Nat → BitVec 8) (crc : BitVec 32) (t : Nat) : Bool :=
  if t < numbits then bitAt inPtr t else crc.getMsbD (t - numbits)

/-- Bit `j` of the code at time `t` of `N` bits in a ring. -/
def ringCode (u : Nat → Bool) (N t j : Nat) : Bool := codeBit j fun k => u ((t + N - k) % N)

/-- The state after the bits before time `t`: the last six of them, the newest in the highest place. -/
structure HoldsState (u : Nat → Bool) (N t : Nat) (state : BitVec 32) : Prop where
  bits : ∀ k < 6, state.getLsbD (6 - k) = u ((t + N - (k + 1)) % N)
  high : ∀ i, 7 ≤ i → state.getLsbD i = false

structure EncodedTo (u : Nat → Bool) (N : Nat) (outPtr : Nat → BitVec 8) (t : Nat) (st : EncoderState) :
    Prop where
  state : HoldsState u N t st.state
  place : st.outPtr = 3 * t
  coded : ∀ s < t, ∀ j < 3, st.output (3 * s + j) = octet (ringCode u N s j)
  frame : ∀ i, 3 * t ≤ i → st.output i = outPtr i

theorem and_one_eq_octet (x : BitVec 8) (j : Nat) : (x >>> j) &&& 1 = octet (x.getLsbD j) := by
  apply BitVec.eq_of_getLsbD_eq
  intro i hi
  rw [BitVec.getLsbD_and, BitVec.getLsbD_ushiftRight, BitVec.ofNat_eq_ofNat, BitVec.getLsbD_one]
  unfold octet
  rcases Nat.eq_zero_or_pos i with rfl | hpos
  · cases x.getLsbD j <;> simp
  · split <;> simp [hpos.ne']

theorem getLsbD_encodeBit {u : Nat → Bool} {N t : Nat} {st : EncoderState} (ht : t < N)
    (h : HoldsState u N t st.state) :
    (∀ k < 7, (encodeBit st (u t)).state.getLsbD (6 - k) = u ((t + N - k) % N)) ∧
      ∀ i, 7 ≤ i → (encodeBit st (u t)).state.getLsbD i = false := by
  have hstate : ∀ i, (encodeBit st (u t)).state.getLsbD i =
      (st.state.getLsbD (i + 1) || (decide (i = 6) && u t)) := by
    intro i
    have h64 : (64 : BitVec 32).getLsbD i = decide (i = 6) := by
      have hpow : (64 : BitVec 32) = BitVec.twoPow 32 6 := rfl
      rw [hpow, BitVec.getLsbD_twoPow]
      simp [eq_comm]
    simp only [encodeBit]
    cases u t
    · simp [Nat.add_comm]
    · rw [if_pos rfl, BitVec.getLsbD_or, h64, BitVec.getLsbD_ushiftRight, Nat.add_comm 1 i, Bool.and_true]
  constructor
  · intro k hk
    rw [hstate]
    rcases Nat.eq_zero_or_pos k with rfl | hpos
    · have hnow : (t + N - 0) % N = t := by
        rw [Nat.sub_zero, Nat.add_mod_right, Nat.mod_eq_of_lt ht]
      rw [h.high 7 le_rfl, hnow]
      simp
    · have hindex : 6 - k + 1 = 6 - (k - 1) := by omega
      have htime : t + N - (k - 1 + 1) = t + N - k := by omega
      rw [hindex, h.bits (k - 1) (by omega), htime, decide_eq_false (by omega), Bool.false_and,
        Bool.or_false]
  · intro i hi
    rw [hstate, h.high (i + 1) (by omega), decide_eq_false (by omega), Bool.false_and, Bool.or_false]

theorem ccodelteTable_eq {x : Nat → Bool} {state : BitVec 32} (hbits : ∀ k < 7, state.getLsbD (6 - k) = x k)
    (hhigh : ∀ i, 7 ≤ i → state.getLsbD i = false) {j : Nat} (hj : j < 3) :
    (ccodelteTable state.toNat).getLsbD j = codeBit j x := by
  have hlt : state.toNat < 2 ^ 7 := by
    apply Nat.lt_pow_two_of_testBit
    intro i hi
    rw [BitVec.testBit_toNat]
    exact hhigh i hi
  rw [getLsbD_ccodelteTable _ hlt j hj]
  apply codeBit_congr
  intro k hk
  rw [BitVec.testBit_toNat, hbits k hk]

theorem EncodedTo.step {u : Nat → Bool} {N : Nat} {outPtr : Nat → BitVec 8} {t : Nat} {st : EncoderState}
    (h : EncodedTo u N outPtr t st) (ht : t < N) :
    EncodedTo u N outPtr (t + 1) (encodeBit st (u t)) := by
  obtain ⟨hbits, hhigh⟩ := getLsbD_encodeBit ht h.state
  have hcell : ∀ j < 3, (ccodelteTable (encodeBit st (u t)).state.toNat >>> j) &&& 1 =
      octet (ringCode u N t j) := by
    intro j hj
    rw [and_one_eq_octet, ccodelteTable_eq hbits hhigh hj]
    rfl
  have houtput : (encodeBit st (u t)).output = Function.update (Function.update (Function.update st.output
      (3 * t) (octet (ringCode u N t 0))) (3 * t + 1) (octet (ringCode u N t 1))) (3 * t + 2)
        (octet (ringCode u N t 2)) := by
    rw [← hcell 0 (by omega), ← hcell 1 (by omega), ← hcell 2 (by omega), ← h.place,
      BitVec.ushiftRight_zero]
    rfl
  refine ⟨⟨?_, hhigh⟩, ?_, ?_, ?_⟩
  · intro k hk
    have htime : t + 1 + N - (k + 1) = t + N - k := by omega
    rw [htime]
    exact hbits k (by omega)
  · exact congrArg (· + 3) h.place
  · intro s hs j hj
    rw [houtput]
    rcases Nat.lt_succ_iff_lt_or_eq.mp hs with hlt | rfl
    · rw [Function.update_of_ne (by omega), Function.update_of_ne (by omega),
        Function.update_of_ne (by omega), h.coded s hlt j hj]
    · rcases (by omega : j = 0 ∨ j = 1 ∨ j = 2) with rfl | rfl | rfl
      · rw [Function.update_of_ne (by omega), Function.update_of_ne (by omega)]
        exact Function.update_self _ _ _
      · rw [Function.update_of_ne (by omega), Function.update_self]
      · rw [Function.update_self]
  · intro i hi
    rw [houtput, Function.update_of_ne (by omega), Function.update_of_ne (by omega),
      Function.update_of_ne (by omega), h.frame i (by omega)]

/-! ## The initial state -/

theorem getLsbD_shiftedBits (c : BitVec 8) {n : Nat} (hn : n ≤ 6) (i : Nat) :
    (shiftedBits c 2 n).getLsbD i = (decide (i < n) && c.getLsbD (5 - i)) := by
  induction n with
  | zero => simp [shiftedBits]
  | succ n ih =>
    have hpow : (1#32 <<< n) = BitVec.twoPow 32 n := (BitVec.twoPow_eq 32 n).symm
    rw [shiftedBits] at ih ⊢
    rw [List.range_succ, List.foldl_append, List.foldl_cons, List.foldl_nil,
      if_congr (and_shift_ne_zero c (by omega)) rfl rfl, hpow]
    have hplace : 7 - 2 - n = 5 - n := by omega
    rw [hplace]
    rcases (by omega : i < n ∨ i = n ∨ n < i) with hlt | rfl | hgt
    · have hbit : (BitVec.twoPow 32 n).getLsbD i = false := by
        rw [BitVec.getLsbD_twoPow, decide_eq_false (by omega : ¬ n = i), Bool.and_false]
      rw [decide_eq_true (by omega : i < n + 1), Bool.true_and]
      split
      · rw [BitVec.getLsbD_or, ih (by omega), hbit, decide_eq_true hlt, Bool.true_and, Bool.or_false]
      · rw [ih (by omega), decide_eq_true hlt, Bool.true_and]
    · have hbit : (BitVec.twoPow 32 i).getLsbD i = true := by
        rw [BitVec.getLsbD_twoPow, decide_eq_true (by omega : i < 32), decide_eq_true rfl, Bool.and_true]
      rw [decide_eq_true (Nat.lt_succ_self i), Bool.true_and]
      split
      · rename_i hc
        rw [BitVec.getLsbD_or, hbit, Bool.or_true, hc]
      · rename_i hc
        rw [ih (by omega), decide_eq_false (lt_irrefl i), Bool.false_and]
        simpa using hc
    · have hbit : (BitVec.twoPow 32 n).getLsbD i = false := by
        rw [BitVec.getLsbD_twoPow, decide_eq_false (by omega : ¬ n = i), Bool.and_false]
      rw [decide_eq_false (by omega : ¬ i < n + 1), Bool.false_and]
      split
      · rw [BitVec.getLsbD_or, ih (by omega), hbit, decide_eq_false (by omega : ¬ i < n), Bool.false_and,
          Bool.or_false]
      · rw [ih (by omega), decide_eq_false (by omega : ¬ i < n), Bool.false_and]

/-- The length is one that `int` holds. Without a checksum the message ends with an octet, which
`next_last_byte` can count: the start state is taken from it. -/
structure AddCrc.Tailed (add_crc : AddCrc) (numbits : Nat) : Prop where
  short : numbits < 2147483648
  octets : add_crc = .none → 0 < numbits ∧ 8 ∣ numbits ∧ numbits < 524288

theorem AddCrc.Tailed.six_le {numbits : Nat} {add_crc : AddCrc} (h : add_crc.Tailed numbits) :
    6 ≤ numbits + add_crc.bits := by
  cases add_crc with
  | none =>
    obtain ⟨hpos, hoctets, -⟩ := h.octets rfl
    simp only [AddCrc.bits]
    omega
  | uci =>
    simp only [AddCrc.bits]
    omega
  | dci =>
    simp only [AddCrc.bits]
    omega

/-- The octet that the state is set from ends with the last six bits. -/
theorem startOctet_eq {numbits : Nat} {add_crc : AddCrc} (h : add_crc.Tailed numbits)
    (inPtr : Nat → BitVec 8) (crc : BitVec 32) :
    ∃ c, startOctet numbits add_crc inPtr crc = some (c, 2) ∧ ∀ k < 6, c.getLsbD k =
      codedBits numbits inPtr crc (numbits + add_crc.bits - (k + 1)) := by
  cases add_crc with
  | none =>
    obtain ⟨hpos, hoctets, hshort⟩ := h.octets rfl
    refine ⟨inPtr (numbits / 8 - 1), ?_, ?_⟩
    · have hbit : (numbits + 2) % 8 = 2 := by omega
      have hbyte : nextLastByte numbits = numbits / 8 := Nat.mod_eq_of_lt (by omega)
      simp only [startOctet, hbit, hbyte]
      rw [if_neg (by omega)]
    · intro k hk
      have hdiv : (numbits + 0 - (k + 1)) / 8 = numbits / 8 - 1 := by omega
      have hmod : (numbits + 0 - (k + 1)) % 8 = 7 - k := by omega
      have hplace : 8 - 1 - (7 - k) = k := by omega
      have hbits : AddCrc.none.bits = 0 := rfl
      rw [hbits, codedBits, if_pos (by omega), bitAt, hdiv, hmod, BitVec.getMsbD,
        decide_eq_true (by omega), Bool.true_and, hplace]
  | uci =>
    refine ⟨(crc >>> 24).setWidth 8, rfl, ?_⟩
    intro k hk
    have hindex : 32 - 1 - (numbits + 8 - (k + 1) - numbits) = 24 + k := by omega
    have hbits : AddCrc.uci.bits = 8 := rfl
    rw [hbits, codedBits, if_neg (by omega), BitVec.getLsbD_setWidth, BitVec.getLsbD_ushiftRight, BitVec.getMsbD, hindex,
      decide_eq_true (by omega), decide_eq_true (by omega)]
  | dci =>
    refine ⟨(crc >>> 16).setWidth 8, rfl, ?_⟩
    intro k hk
    have hindex : 32 - 1 - (numbits + 16 - (k + 1) - numbits) = 16 + k := by omega
    have hbits : AddCrc.dci.bits = 16 := rfl
    rw [hbits, codedBits, if_neg (by omega), BitVec.getLsbD_setWidth, BitVec.getLsbD_ushiftRight, BitVec.getMsbD, hindex,
      decide_eq_true (by omega), decide_eq_true (by omega)]

theorem initialState_eq {numbits : Nat} {add_crc : AddCrc} (h : add_crc.Tailed numbits)
    (inPtr : Nat → BitVec 8) (crc : BitVec 32) :
    ∃ state, initialState numbits add_crc inPtr crc = some state ∧
      HoldsState (codedBits numbits inPtr crc) (numbits + add_crc.bits) 0 state := by
  obtain ⟨c, hstart, hc⟩ := startOctet_eq h inPtr crc
  have hnone : ¬ (add_crc = .none ∧ 0 < numbits % 8) := by
    rintro ⟨rfl, hpos⟩
    have hoctets := (h.octets rfl).2.1
    omega
  have hlong := h.six_le
  refine ⟨(shiftedBits c 2 6 &&& 0x3f) <<< 1, ?_, ?_⟩
  · rw [initialState, hstart]
    exact congrArg (fun state : BitVec 32 => some ((state &&& 0x3f) <<< 1)) (if_neg hnone)
  have hmask : ∀ i, (0x3f : BitVec 32).getLsbD i = decide (i < 6) := by
    intro i
    rcases Nat.lt_or_ge i 32 with hlt | hge
    · revert i
      decide
    · exact (BitVec.getLsbD_of_ge _ _ hge).trans (decide_eq_false (by omega : ¬ i < 6)).symm
  have hbits : ∀ i, ((shiftedBits c 2 6 &&& 0x3f) <<< 1).getLsbD i =
      (decide (1 ≤ i ∧ i < 7) && c.getLsbD (6 - i)) := by
    intro i
    rw [BitVec.getLsbD_shiftLeft, BitVec.getLsbD_and, getLsbD_shiftedBits c le_rfl, hmask]
    by_cases hi : 1 ≤ i ∧ i < 7
    · have hindex : 5 - (i - 1) = 6 - i := by omega
      rw [hindex, decide_eq_true hi, decide_eq_true (by omega : i < 32), decide_eq_false (by omega : ¬ i < 1),
        decide_eq_true (by omega : i - 1 < 6)]
      simp
    · rw [decide_eq_false hi]
      rcases (by omega : i < 1 ∨ 7 ≤ i) with h1 | h7
      · rw [decide_eq_true h1]
        simp
      · rw [decide_eq_false (by omega : ¬ i - 1 < 6)]
        simp
  constructor
  · intro k hk
    have hindex : 6 - (6 - k) = k := by omega
    have htime : 0 + (numbits + add_crc.bits) - (k + 1) = numbits + add_crc.bits - (k + 1) := by omega
    rw [hbits, decide_eq_true (by omega : 1 ≤ 6 - k ∧ 6 - k < 7), Bool.true_and, hindex, hc k hk, htime,
      Nat.mod_eq_of_lt (by omega)]
  · intro i hi
    rw [hbits, decide_eq_false (by omega : ¬ (1 ≤ i ∧ i < 7)), Bool.false_and]

/-! ## The whole encoder -/

theorem EncodedTo.run {u : Nat → Bool} {N : Nat} {outPtr : Nat → BitVec 8} {s : Nat} {st : EncoderState}
    (h : EncodedTo u N outPtr s st) {n : Nat} (hn : s + n ≤ N) {c : Nat → Bool}
    (hc : ∀ i < n, c i = u (s + i)) :
    EncodedTo u N outPtr (s + n) ((List.range n).foldl (fun st i => encodeBit st (c i)) st) := by
  induction n with
  | zero => exact h
  | succ n ih =>
    have hrun := ih (by omega) fun i hi => hc i (Nat.lt_succ_of_lt hi)
    rw [List.range_succ, List.foldl_append, List.foldl_cons, List.foldl_nil, hc n n.lt_succ_self]
    exact hrun.step (by omega)

theorem messageBit_eq (inPtr : Nat → BitVec 8) (t : Nat) :
    decide (inPtr (t / 8) &&& (1#8 <<< (7 - t % 8)) ≠ 0) = bitAt inPtr t := by
  have hlt : t % 8 < 8 := Nat.mod_lt _ (by omega)
  have hbit : bitAt inPtr t = (inPtr (t / 8)).getLsbD (7 - t % 8) := by
    rw [bitAt, BitVec.getMsbD, decide_eq_true hlt, Bool.true_and]
  rw [hbit, Bool.eq_iff_iff, decide_eq_true_iff]
  exact and_shift_ne_zero _ (by omega)

theorem crcBit_eq {n : Nat} (hn : n ≤ 16) (crc : BitVec 32) {i : Nat} (hi : i < n) :
    decide ((crc >>> (32 - n)).setWidth 16 &&& (1#16 <<< (n - 1 - i)) ≠ 0) = crc.getMsbD i := by
  have hindex : 32 - n + (n - 1 - i) = 32 - 1 - i := by omega
  rw [Bool.eq_iff_iff, decide_eq_true_iff, and_shift_ne_zero _ (by omega), BitVec.getLsbD_setWidth,
    BitVec.getLsbD_ushiftRight, hindex, BitVec.getMsbD, decide_eq_true (by omega : n - 1 - i < 16),
    decide_eq_true (by omega : i < 32)]

theorem ccodelteEncode_run {numbits : Nat} {add_crc : AddCrc} (h : add_crc.Tailed numbits)
    (inPtr outPtr : Nat → BitVec 8) (rnti : BitVec 16) :
    ∃ st, ccodelteEncode numbits add_crc inPtr outPtr rnti = some st.output ∧
      EncodedTo (codedBits numbits inPtr (codedCrc numbits add_crc inPtr rnti))
        (numbits + add_crc.bits) outPtr (numbits + add_crc.bits) st := by
  obtain ⟨state, hstate, hholds⟩ := initialState_eq h inPtr (codedCrc numbits add_crc inPtr rnti)
  have hbits : add_crc.bits ≤ 16 := by
    cases add_crc <;> simp [AddCrc.bits]
  have hstart : EncodedTo (codedBits numbits inPtr (codedCrc numbits add_crc inPtr rnti))
      (numbits + add_crc.bits) outPtr 0 ⟨state, outPtr, 0⟩ :=
    ⟨hholds, rfl, fun s hs => absurd hs (Nat.not_lt_zero s), fun i _ => rfl⟩
  have hmessage := hstart.run (n := numbits) (by omega)
    (c := fun t => decide (inPtr (t / 8) &&& (1#8 <<< (7 - t % 8)) ≠ 0)) (by
      intro t ht
      rw [messageBit_eq, Nat.zero_add, codedBits, if_pos ht])
  rw [Nat.zero_add] at hmessage
  have hcrc := hmessage.run (n := add_crc.bits) le_rfl
    (c := fun i => decide (((codedCrc numbits add_crc inPtr rnti) >>> (32 - add_crc.bits)).setWidth 16 &&&
      (1#16 <<< (add_crc.bits - 1 - i)) ≠ 0)) (by
      intro i hi
      rw [crcBit_eq hbits _ hi, codedBits, if_neg (by omega), Nat.add_sub_cancel_left])
  refine ⟨_, ?_, hcrc⟩
  simp only [ccodelteEncode, hstate, Option.bind_eq_bind, Option.bind_some, Option.pure_def]

/-- The encoder puts out the three bits of the code for every bit of the message and of its
checksum, as if these stood in a ring: it starts in the state in which it ends. -/
theorem ccodelteEncode_eq {numbits : Nat} {add_crc : AddCrc} (h : add_crc.Tailed numbits)
    (inPtr outPtr : Nat → BitVec 8) (rnti : BitVec 16) :
    ∃ output, ccodelteEncode numbits add_crc inPtr outPtr rnti = some output ∧
      (∀ t < numbits + add_crc.bits, ∀ j < 3, output (3 * t + j) =
        octet (ringCode (codedBits numbits inPtr (codedCrc numbits add_crc inPtr rnti))
          (numbits + add_crc.bits) t j)) ∧
      ∀ i, 3 * (numbits + add_crc.bits) ≤ i → output i = outPtr i := by
  obtain ⟨st, hst, hrun⟩ := ccodelteEncode_run h inPtr outPtr rnti
  exact ⟨st.output, hst, hrun.coded, hrun.frame⟩

theorem ccodelteEncode_eq_nine_bits : AddCrc.uci.Tailed 9 ∧
    ∃ output, ccodelteEncode 9 .uci (fun _ => 0xa5) (fun _ => 0) 0 = some output ∧
      (∀ t < 9 + 8, ∀ j < 3, output (3 * t + j) = octet (ringCode (codedBits 9 (fun _ => 0xa5)
        (codedCrc 9 .uci (fun _ => 0xa5) 0)) (9 + 8) t j)) ∧
      ∀ i, 3 * (9 + 8) ≤ i → output i = 0 :=
  have h : AddCrc.uci.Tailed 9 := ⟨by decide, fun h => absurd h (by decide)⟩
  ⟨h, ccodelteEncode_eq h (fun _ => 0xa5) (fun _ => 0) 0⟩

end PdmaXen.Lte
