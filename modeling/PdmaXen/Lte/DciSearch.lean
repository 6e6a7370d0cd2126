import PdmaXen.CInt
import PdmaXen.Lte.Pdcch

/-!
# The search for the downlink control information

`dci.cpp`: the terminal tries the places where a DCI may be and reports those that show one of its
RNTIs.
-/

namespace PdmaXen.Lte
set_option autoImplicit false

/-! ## The source -/

structure SearchParms where
  si_rnti : BitVec 16
  ra_rnti : BitVec 16
  crnti : BitVec 16
  L : Nat
  format_si : DciFormat
  format_ra : DciFormat
  format_c : DciFormat
  sizeof_bits : Nat
  sizeof_bytes : Nat

structure SearchState where
  dci_alloc : Nat → DciAlloc
  dci_cnt : Nat
  format0_found : Bool
  format_c_found : Bool
  nCCE : Nat
  /-- `CCEmap0`, `CCEmap1` and `CCEmap2`. -/
  CCEmap : Nat → BitVec 32
  dci_decoded_output : Nat → BitVec 8

/-- The octets of the DCI in the order that the transmitter has them in. -/
def storePdu (sizeof_bytes : Nat) (dci_decoded_output dci_pdu : Nat → BitVec 8) (j : Nat) : BitVec 8 :=
  if sizeof_bytes ≤ 4 then
    if j ≤ 3 then dci_decoded_output (3 - j) else dci_pdu j
  else if j ≤ 7 then dci_decoded_output (7 - j) else dci_pdu j

/-- The format is set and the DCI is counted; the counter is an octet. -/
def SearchState.report (st : SearchState) (format : DciFormat) : SearchState :=
  { st with
    dci_alloc := Function.update st.dci_alloc st.dci_cnt { st.dci_alloc st.dci_cnt with format := format }
    dci_cnt := (st.dci_cnt + 1) % 256 }

def cceMask (L : Nat) : BitVec 32 :=
  match 2 ^ L with
  | 1 => 1
  | 2 => 0x03
  | 4 => 0x0f
  | 8 => 0xff
  | _ => 0

def markCce (L CCEind : Nat) (CCEmap : Nat → BitVec 32) : Nat → BitVec 32 :=
  Function.update CCEmap (CCEind / 32) (CCEmap (CCEind / 32) ||| cceMask L <<< (CCEind % 32))

namespace SearchParms
variable (p : SearchParms)

def wants (crc : BitVec 16) : Prop :=
  (1 < p.L ∧ (crc = p.si_rnti ∨ crc = p.ra_rnti)) ∨ crc = p.crnti

instance (crc : BitVec 16) : Decidable (p.wants crc) := inferInstanceAs (Decidable (_ ∨ _))

def store (crc : BitVec 16) (dci_decoded_output : Nat → BitVec 8) (dci : DciAlloc) : DciAlloc :=
  { dci with
    dci_length := p.sizeof_bits
    rnti := crc
    L := p.L
    dci_pdu := storePdu p.sizeof_bytes dci_decoded_output dci.dci_pdu }

/-- Format 0 and format 1A have the same length, and differ in the first bit. -/
def classify (crc : BitVec 16) (CCEind : Nat) (st : SearchState) : SearchState :=
  if crc = p.si_rnti then st.report p.format_si
  else if crc = p.ra_rnti then { st with nCCE := CCEind }.report p.format_ra
  else if crc = p.crnti then
    if p.format_c = .format0 ∧ st.dci_decoded_output 0 &&& 0x80 = 0 then
      if st.format0_found = false then { st with format0_found := true }.report .format0 else st
    else if p.format_c = .format0 then st.report .format1A
    else if st.format_c_found = false then
      { st with format_c_found := true, nCCE := CCEind }.report p.format_c
    else st
  else st

def decode (e_rx : Nat → BitVec 8) (CCEind : Nat) (dci_decoded_output : Nat → BitVec 8)
    (buffers : DciBuffers) : Option (Nat → BitVec 8) :=
  dciDecoding p.sizeof_bits p.L (fun i => e_rx (72 * CCEind + i)) dci_decoded_output buffers

def consider (CCEind : Nat) (out : Nat → BitVec 8) (st : SearchState) : SearchState :=
  let st := { st with dci_decoded_output := out }
  let crc := decodedRnti out p.sizeof_bits
  if p.wants crc then
    let st := p.classify crc CCEind { st with
      dci_alloc := Function.update st.dci_alloc st.dci_cnt (p.store crc out (st.dci_alloc st.dci_cnt)) }
    { st with CCEmap := markCce p.L CCEind st.CCEmap }
  else st

end SearchParms

/-- `buffers` are the static arrays of the decoder before every attempt. -/
def dciDecodingProcedure0 (p : SearchParms) (nCCE : Nat) (e_rx : Nat → BitVec 8)
    (buffers : Nat → DciBuffers) (st : SearchState) : Option SearchState :=
  CInt.forLoop ((nCCE + 2 ^ p.L - 1) / 2 ^ p.L) (fun st k => do
    let CCEind := k * 2 ^ p.L
    if CCEind + 2 ^ p.L ≤ nCCE then
      let out ← p.decode e_rx CCEind st.dci_decoded_output (buffers k)
      return p.consider CCEind out st
    else return st) st

/-! ## One place -/

namespace SearchParms
variable (p : SearchParms)

def format (crc : BitVec 16) (out : Nat → BitVec 8) : DciFormat :=
  if crc = p.si_rnti then p.format_si
  else if crc = p.ra_rnti then p.format_ra
  else if p.format_c = .format0 ∧ out 0 &&& 0x80 ≠ 0 then .format1A
  else p.format_c

/-- The DCIs of which only the first is reported. -/
def OnlyOne (rnti : BitVec 16) (format : DciFormat) : Prop :=
  rnti ≠ p.si_rnti ∧ rnti ≠ p.ra_rnti ∧ ¬ (p.format_c = .format0 ∧ format = .format1A)

instance (rnti : BitVec 16) (format : DciFormat) : Decidable (p.OnlyOne rnti format) :=
  inferInstanceAs (Decidable (_ ∧ _))

def flag (st : SearchState) : Bool :=
  if p.format_c = .format0 then st.format0_found else st.format_c_found

def otherFlag (st : SearchState) : Bool :=
  if p.format_c = .format0 then st.format_c_found else st.format0_found

structure Reports (crc : BitVec 16) (out : Nat → BitVec 8) (st st' : SearchState) : Prop where
  dci_alloc : st'.dci_alloc = Function.update st.dci_alloc st.dci_cnt
    { st.dci_alloc st.dci_cnt with format := p.format crc out }
  dci_cnt : st'.dci_cnt = (st.dci_cnt + 1) % 256
  CCEmap : st'.CCEmap = st.CCEmap
  flag : p.flag st' = (p.flag st || decide (p.OnlyOne crc (p.format crc out)))
  otherFlag : p.otherFlag st' = p.otherFlag st

variable {p} in
theorem reports_report {crc : BitVec 16} {out : Nat → BitVec 8} {st st₁ : SearchState}
    {format : DciFormat} (hformat : p.format crc out = format) (halloc : st₁.dci_alloc = st.dci_alloc)
    (hcnt : st₁.dci_cnt = st.dci_cnt) (hmap : st₁.CCEmap = st.CCEmap)
    (hflag : p.flag st₁ = (p.flag st || decide (p.OnlyOne crc format)))
    (hother : p.otherFlag st₁ = p.otherFlag st) : p.Reports crc out st (st₁.report format) := by
  subst hformat
  constructor
  · rw [SearchState.report, halloc, hcnt]
  · rw [SearchState.report, hcnt]
  · rw [SearchState.report, hmap]
  · exact hflag
  · exact hother

theorem classify_cases {crc : BitVec 16} (hwanted : p.wants crc) (CCEind : Nat) (st : SearchState) :
    (p.OnlyOne crc (p.format crc st.dci_decoded_output) ∧ p.flag st = true ∧
      p.classify crc CCEind st = st) ∨
    (¬ (p.OnlyOne crc (p.format crc st.dci_decoded_output) ∧ p.flag st = true) ∧
      p.Reports crc st.dci_decoded_output st (p.classify crc CCEind st)) := by
  by_cases hsi : crc = p.si_rnti
  · have hformat : p.format crc st.dci_decoded_output = p.format_si := if_pos hsi
    have hmany : ¬ p.OnlyOne crc p.format_si := fun h => h.1 hsi
    refine Or.inr ⟨fun h => h.1.1 hsi, ?_⟩
    rw [classify, if_pos hsi]
    exact reports_report hformat rfl rfl rfl (by rw [decide_eq_false hmany, Bool.or_false]) rfl
  by_cases hra : crc = p.ra_rnti
  · have hformat : p.format crc st.dci_decoded_output = p.format_ra := by
      rw [format, if_neg hsi, if_pos hra]
    have hmany : ¬ p.OnlyOne crc p.format_ra := fun h => h.2.1 hra
    refine Or.inr ⟨fun h => h.1.2.1 hra, ?_⟩
    rw [classify, if_neg hsi, if_pos hra]
    exact reports_report hformat rfl rfl rfl (by rw [decide_eq_false hmany, Bool.or_false]; rfl)
      rfl
  have hcrnti : crc = p.crnti := by
    rcases hwanted with ⟨-, h | h⟩ | h
    · exact absurd h hsi
    · exact absurd h hra
    · exact h
  by_cases hdownlink : p.format_c = .format0 ∧ st.dci_decoded_output 0 &&& 0x80 ≠ 0
  · have hformat : p.format crc st.dci_decoded_output = .format1A := by
      rw [format, if_neg hsi, if_neg hra, if_pos hdownlink]
    have hmany : ¬ p.OnlyOne crc .format1A := fun h => h.2.2 ⟨hdownlink.1, rfl⟩
    rw [hformat]
    refine Or.inr ⟨fun h => hmany h.1, ?_⟩
    rw [classify, if_neg hsi, if_neg hra, if_pos hcrnti, if_neg fun h => hdownlink.2 h.2,
      if_pos hdownlink.1]
    exact reports_report hformat rfl rfl rfl (by rw [decide_eq_false hmany, Bool.or_false]) rfl
  have hformat : p.format crc st.dci_decoded_output = p.format_c := by
    rw [format, if_neg hsi, if_neg hra, if_neg hdownlink]
  have hone : p.OnlyOne crc p.format_c := by
    refine ⟨hsi, hra, ?_⟩
    rintro ⟨h, h'⟩
    rw [h] at h'
    cases h'
  rw [hformat]
  by_cases hflag : p.flag st = true
  · refine Or.inl ⟨hone, hflag, ?_⟩
    rw [flag] at hflag
    by_cases hzero : p.format_c = .format0
    · rw [if_pos hzero] at hflag
      have hbit : st.dci_decoded_output 0 &&& 0x80 = 0 := by_contra fun h => hdownlink ⟨hzero, h⟩
      rw [classify, if_neg hsi, if_neg hra, if_pos hcrnti, if_pos ⟨hzero, hbit⟩, hflag,
        if_neg Bool.true_eq_false.mp]
    · rw [if_neg hzero] at hflag
      rw [classify, if_neg hsi, if_neg hra, if_pos hcrnti, if_neg fun h => hzero h.1, if_neg hzero,
        hflag, if_neg Bool.true_eq_false.mp]
  · refine Or.inr ⟨fun h => hflag h.2, ?_⟩
    rw [Bool.not_eq_true] at hflag
    by_cases hzero : p.format_c = .format0
    · have hfound : st.format0_found = false := by
        rw [flag, if_pos hzero] at hflag
        exact hflag
      have hbit : st.dci_decoded_output 0 &&& 0x80 = 0 := by_contra fun h => hdownlink ⟨hzero, h⟩
      rw [classify, if_neg hsi, if_neg hra, if_pos hcrnti, if_pos ⟨hzero, hbit⟩, if_pos hfound, ← hzero]
      apply reports_report hformat
      · rfl
      · rfl
      · rfl
      · rw [decide_eq_true hone, Bool.or_true, flag, if_pos hzero]
      · rw [otherFlag, otherFlag, if_pos hzero, if_pos hzero]
    · have hfound : st.format_c_found = false := by
        rw [flag, if_neg hzero] at hflag
        exact hflag
      rw [classify, if_neg hsi, if_neg hra, if_pos hcrnti, if_neg fun h => hzero h.1, if_neg hzero,
        if_pos hfound]
      apply reports_report hformat
      · rfl
      · rfl
      · rfl
      · rw [decide_eq_true hone, Bool.or_true, flag, if_neg hzero]
      · rw [otherFlag, otherFlag, if_neg hzero, if_neg hzero]

/-- What a wanted DCI at a place does to the state: it is written after the last one, and counted unless
it is one of which the first has been reported. -/
theorem consider_cases (CCEind : Nat) {out : Nat → BitVec 8} (st : SearchState) {crc : BitVec 16}
    (hcrc : decodedRnti out p.sizeof_bits = crc) (hwanted : p.wants crc) :
    ∃ dci, (p.consider CCEind out st).dci_alloc = Function.update st.dci_alloc st.dci_cnt dci ∧
      (p.consider CCEind out st).CCEmap = markCce p.L CCEind st.CCEmap ∧
      p.otherFlag (p.consider CCEind out st) = p.otherFlag st ∧
      (p.OnlyOne crc (p.format crc out) ∧ p.flag st = true ∧
          (p.consider CCEind out st).dci_cnt = st.dci_cnt ∧
            p.flag (p.consider CCEind out st) = p.flag st ∨
        (p.consider CCEind out st).dci_cnt = (st.dci_cnt + 1) % 256 ∧
          p.flag (p.consider CCEind out st) =
            (p.flag st || decide (p.OnlyOne crc (p.format crc out))) ∧
          ¬ (p.OnlyOne crc (p.format crc out) ∧ p.flag st = true) ∧
            dci = { p.store crc out (st.dci_alloc st.dci_cnt) with format := p.format crc out }) := by
  subst hcrc
  rw [consider, if_pos hwanted]
  have hcases := p.classify_cases hwanted CCEind
    { st with
      dci_alloc := Function.update st.dci_alloc st.dci_cnt
        (p.store (decodedRnti out p.sizeof_bits) out (st.dci_alloc st.dci_cnt))
      dci_decoded_output := out }
  rcases hcases with ⟨hone, hflag, hkept⟩ | ⟨hnot, hreports⟩
  · rw [hkept]
    exact ⟨_, rfl, rfl, rfl, Or.inl ⟨hone, hflag, rfl, rfl⟩⟩
  · refine ⟨_, ?_, ?_, hreports.otherFlag, Or.inr ⟨hreports.dci_cnt, hreports.flag, hnot, rfl⟩⟩
    · rw [hreports.dci_alloc]
      simp only [Function.update_idem, Function.update_self]
    · exact congrArg (markCce p.L CCEind) hreports.CCEmap

end SearchParms

/-! ## The marks of the places -/

theorem getLsbD_cceMask : ∀ L ≤ 3, ∀ i < 32, (cceMask L).getLsbD i = decide (i < 2 ^ L) := by
  decide

theorem getLsbD_markCce {L : Nat} (hL : L ≤ 3) (k : Nat) (CCEmap : Nat → BitVec 32) (q : Nat) :
    (markCce L (k * 2 ^ L) CCEmap (q / 32)).getLsbD (q % 32) =
      ((CCEmap (q / 32)).getLsbD (q % 32) || decide (q / 2 ^ L = k)) := by
  have hq : q % 32 < 32 := Nat.mod_lt q (by omega)
  by_cases hword : q / 32 = k * 2 ^ L / 32
  · have hmask := getLsbD_cceMask L hL (q % 32 - k * 2 ^ L % 32) (by omega)
    rw [markCce, hword, Function.update_self, BitVec.getLsbD_or, BitVec.getLsbD_shiftLeft, hmask,
      decide_eq_true hq, Bool.true_and]
    congr 1
    rw [← decide_not, ← Bool.decide_and, decide_eq_decide]
    interval_cases L <;> omega
  · have hother : ¬ q / 2 ^ L = k := by
      rintro rfl
      apply hword
      interval_cases L <;> omega
    rw [markCce, Function.update_of_ne hword, decide_eq_false hother, Bool.or_false]

/-! ## The run -/

def newDcis (st₀ st : SearchState) (n : Nat) : List DciAlloc :=
  (List.range n).map fun j => st.dci_alloc (st₀.dci_cnt + j)

theorem newDcis_succ (st₀ st : SearchState) (n : Nat) :
    newDcis st₀ st (n + 1) = newDcis st₀ st n ++ [st.dci_alloc (st₀.dci_cnt + n)] := by
  rw [newDcis, List.range_succ, List.map_append]
  rfl

theorem newDcis_update {st₀ st st' : SearchState} {dci : DciAlloc} {n : Nat}
    (hcnt : st.dci_cnt = st₀.dci_cnt + n)
    (halloc : st'.dci_alloc = Function.update st.dci_alloc st.dci_cnt dci) :
    newDcis st₀ st' n = newDcis st₀ st n := by
  apply List.map_congr_left
  intro j hj
  have hlt := List.mem_range.mp hj
  rw [halloc, Function.update_of_ne (by omega)]

namespace SearchParms
variable (p : SearchParms) (e_rx : Nat → BitVec 8)

/-- `out` is what the decoder makes of place `k`, whatever its arrays held before. -/
def Decodes (k : Nat) (out : Nat → BitVec 8) : Prop :=
  ∃ dci_decoded_output buffers, p.decode e_rx (k * 2 ^ p.L) dci_decoded_output buffers = some out

/-- A reported DCI is what the decoder makes of place `k`. -/
structure Found (k : Nat) (dci : DciAlloc) : Prop where
  wanted : p.wants dci.rnti
  length : dci.dci_length = p.sizeof_bits
  level : dci.L = p.L
  decoded : ∃ out dci_pdu, p.Decodes e_rx k out ∧ decodedRnti out p.sizeof_bits = dci.rnti ∧
    dci.dci_pdu = storePdu p.sizeof_bytes out dci_pdu ∧ dci.format = p.format dci.rnti out

/-- The search has passed `n` places: those in `hits` show a wanted RNTI, those in `found` have been
reported. -/
structure Searched (nCCE n : Nat) (st₀ st : SearchState) (hits found : List Nat) : Prop where
  increasing : hits.Pairwise (· < ·)
  inside : ∀ k ∈ hits, k < n ∧ k * 2 ^ p.L + 2 ^ p.L ≤ nCCE ∧
    ∃ out, p.Decodes e_rx k out ∧ p.wants (decodedRnti out p.sizeof_bits)
  complete : ∀ k < n, k * 2 ^ p.L + 2 ^ p.L ≤ nCCE →
    (∀ out, p.Decodes e_rx k out → p.wants (decodedRnti out p.sizeof_bits)) → k ∈ hits
  sublist : found.Sublist hits
  passed : ∀ k ∈ hits, k ∉ found → p.flag st = true ∧ ∃ out, p.Decodes e_rx k out ∧
    p.OnlyOne (decodedRnti out p.sizeof_bits) (p.format (decodedRnti out p.sizeof_bits) out)
  dci_cnt : st.dci_cnt = st₀.dci_cnt + found.length
  earlier : ∀ j < st₀.dci_cnt, st.dci_alloc j = st₀.dci_alloc j
  reported : List.Forall₂ (p.Found e_rx) found (newDcis st₀ st found.length)
  once : (newDcis st₀ st found.length).countP (fun dci => p.OnlyOne dci.rnti dci.format) +
    (p.flag st₀).toNat = (p.flag st).toNat
  otherFlag : p.otherFlag st = p.otherFlag st₀
  CCEmap : ∀ q, (st.CCEmap (q / 32)).getLsbD (q % 32) =
    ((st₀.CCEmap (q / 32)).getLsbD (q % 32) || decide (q / 2 ^ p.L ∈ hits))

variable {p e_rx}
variable {nCCE n : Nat} {st₀ st : SearchState} {hits found : List Nat}

theorem Searched.start (st : SearchState) : p.Searched e_rx nCCE 0 st st [] [] where
  increasing := List.Pairwise.nil
  inside := fun _ hk => absurd hk List.not_mem_nil
  complete := fun _ hk => absurd hk (Nat.not_lt_zero _)
  sublist := List.Sublist.refl []
  passed := fun _ hk => absurd hk List.not_mem_nil
  dci_cnt := rfl
  earlier := fun _ _ => rfl
  reported := List.Forall₂.nil
  once := Nat.zero_add _
  otherFlag := rfl
  CCEmap := fun q => by rw [decide_eq_false List.not_mem_nil, Bool.or_false]

theorem Searched.skip (h : p.Searched e_rx nCCE n st₀ st hits found) (out : Nat → BitVec 8)
    (hskip : n * 2 ^ p.L + 2 ^ p.L ≤ nCCE →
      ∃ out, p.Decodes e_rx n out ∧ ¬ p.wants (decodedRnti out p.sizeof_bits)) :
    p.Searched e_rx nCCE (n + 1) st₀ { st with dci_decoded_output := out } hits found where
  increasing := h.increasing
  inside := fun k hk => ⟨(h.inside k hk).1.trans n.lt_succ_self, (h.inside k hk).2⟩
  complete := by
    intro k hk hroom hall
    rcases Nat.lt_succ_iff_lt_or_eq.mp hk with hlt | rfl
    · exact h.complete k hlt hroom hall
    · obtain ⟨out, hout, hunwanted⟩ := hskip hroom
      exact absurd (hall out hout) hunwanted
  sublist := h.sublist
  passed := h.passed
  dci_cnt := h.dci_cnt
  earlier := h.earlier
  reported := h.reported
  once := h.once
  otherFlag := h.otherFlag
  CCEmap := h.CCEmap

theorem Searched.length_le (h : p.Searched e_rx nCCE n st₀ st hits found) {m : Nat}
    (hm : ∀ k ∈ hits, k < m) : found.length ≤ m := by
  have hnodup : hits.Nodup := h.increasing.imp fun hlt => hlt.ne
  have hsubset : hits ⊆ List.range m := fun k hk => List.mem_range.mpr (hm k hk)
  have hhits := (hnodup.subperm hsubset).length_le
  rw [List.length_range] at hhits
  exact h.sublist.length_le.trans hhits

theorem countP_last {dci : DciAlloc} {rnti : BitVec 16} {format : DciFormat} (hrnti : dci.rnti = rnti)
    (hformat : dci.format = format) :
    [dci].countP (fun dci => p.OnlyOne dci.rnti dci.format) = if p.OnlyOne rnti format then 1 else 0 := by
  subst hrnti hformat
  simp only [List.countP_singleton, decide_eq_true_eq]

theorem Searched.hit (h : p.Searched e_rx nCCE n st₀ st hits found) (hL : p.L ≤ 3)
    (hroom : n * 2 ^ p.L + 2 ^ p.L ≤ nCCE) {out : Nat → BitVec 8} (hout : p.Decodes e_rx n out)
    (hwanted : p.wants (decodedRnti out p.sizeof_bits)) (hcnt : st.dci_cnt + 1 < 256) :
    ∃ found', p.Searched e_rx nCCE (n + 1) st₀ (p.consider (n * 2 ^ p.L) out st) (hits ++ [n])
      found' := by
  obtain ⟨dci, halloc, hmap, hother, hcases⟩ := p.consider_cases (n * 2 ^ p.L) st rfl hwanted
  generalize p.consider (n * 2 ^ p.L) out st = st' at halloc hmap hother hcases
  have hnew := newDcis_update h.dci_cnt halloc
  have hfresh : n ∉ hits := fun hn => absurd (h.inside n hn).1 (lt_irrefl n)
  have hincreasing : (hits ++ [n]).Pairwise (· < ·) := by
    rw [List.pairwise_append]
    refine ⟨h.increasing, List.pairwise_singleton _ _, ?_⟩
    intro k hk m hm
    obtain rfl := List.mem_singleton.mp hm
    exact (h.inside k hk).1
  have hinside : ∀ k ∈ hits ++ [n], k < n + 1 ∧ k * 2 ^ p.L + 2 ^ p.L ≤ nCCE ∧
      ∃ out, p.Decodes e_rx k out ∧ p.wants (decodedRnti out p.sizeof_bits) := by
    intro k hk
    rcases List.mem_append.mp hk with hearlier | hlast
    · exact ⟨(h.inside k hearlier).1.trans n.lt_succ_self, (h.inside k hearlier).2⟩
    · obtain rfl := List.mem_singleton.mp hlast
      exact ⟨k.lt_succ_self, hroom, out, hout, hwanted⟩
  have hcomplete : ∀ k < n + 1, k * 2 ^ p.L + 2 ^ p.L ≤ nCCE →
      (∀ out, p.Decodes e_rx k out → p.wants (decodedRnti out p.sizeof_bits)) → k ∈ hits ++ [n] := by
    intro k hk hroom' hall
    rcases Nat.lt_succ_iff_lt_or_eq.mp hk with hlt | rfl
    · exact List.mem_append_left [n] (h.complete k hlt hroom' hall)
    · exact List.mem_append_right hits (List.mem_singleton_self k)
  have hearlier : ∀ j < st₀.dci_cnt, st'.dci_alloc j = st₀.dci_alloc j := by
    intro j hj
    have hplace := h.dci_cnt
    rw [halloc, Function.update_of_ne (by omega), h.earlier j hj]
  have hmarks : ∀ q, (st'.CCEmap (q / 32)).getLsbD (q % 32) =
      ((st₀.CCEmap (q / 32)).getLsbD (q % 32) || decide (q / 2 ^ p.L ∈ hits ++ [n])) := by
    intro q
    rw [hmap, getLsbD_markCce hL, h.CCEmap q, Bool.or_assoc, ← Bool.decide_or]
    simp only [List.mem_append, List.mem_singleton]
  rcases hcases with ⟨hone, hflag, hcnt', hflag'⟩ | ⟨hcnt', hflag', hnot, rfl⟩
  · refine ⟨found, hincreasing, hinside, hcomplete, h.sublist.trans (List.sublist_append_left hits [n]),
      ?_, hcnt'.trans h.dci_cnt, hearlier, hnew ▸ h.reported, ?_, hother.trans h.otherFlag, hmarks⟩
    · intro k hk hlost
      rw [hflag']
      rcases List.mem_append.mp hk with hk | hk
      · exact h.passed k hk hlost
      · obtain rfl := List.mem_singleton.mp hk
        exact ⟨hflag, out, hout, hone⟩
    · rw [hnew, hflag']
      exact h.once
  · obtain ⟨last, hcell, hrnti, hformat, hlast⟩ : ∃ last,
        st'.dci_alloc (st₀.dci_cnt + found.length) = last ∧ last.rnti = decodedRnti out p.sizeof_bits ∧
          last.format = p.format (decodedRnti out p.sizeof_bits) out ∧ p.Found e_rx n last := by
      rw [halloc, ← h.dci_cnt, Function.update_self]
      exact ⟨_, rfl, rfl, rfl, hwanted, rfl, rfl, out, _, hout, rfl, rfl, rfl⟩
    have hlength : (found ++ [n]).length = found.length + 1 := List.length_append
    refine ⟨found ++ [n], hincreasing, hinside, hcomplete, h.sublist.append (List.Sublist.refl [n]),
      ?_, ?_, hearlier, ?_, ?_, hother.trans h.otherFlag, hmarks⟩
    · intro k hk hlost
      rw [hflag']
      rcases List.mem_append.mp hk with hk | hk
      · obtain ⟨hflag, hone⟩ := h.passed k hk fun hk' => hlost (List.mem_append_left [n] hk')
        exact ⟨by rw [hflag, Bool.true_or], hone⟩
      · exact absurd (List.mem_append_right found hk) hlost
    · have hplace := h.dci_cnt
      rw [hlength, hcnt', Nat.mod_eq_of_lt hcnt]
      omega
    · rw [hlength, newDcis_succ, hnew, hcell]
      exact List.rel_append h.reported (List.Forall₂.cons hlast List.Forall₂.nil)
    · have honce := h.once
      rw [hlength, newDcis_succ, hnew, hcell, List.countP_append, countP_last hrnti hformat, hflag']
      by_cases hone : p.OnlyOne (decodedRnti out p.sizeof_bits)
        (p.format (decodedRnti out p.sizeof_bits) out)
      · have hflag : p.flag st = false := Bool.eq_false_iff.mpr fun hflag => hnot ⟨hone, hflag⟩
        rw [hflag, Bool.toNat_false] at honce
        rw [if_pos hone, decide_eq_true hone, Bool.or_true, Bool.toNat_true]
        omega
      · rw [if_neg hone, decide_eq_false hone, Bool.or_false]
        omega

variable (e_rx) in
theorem dciDecodingProcedure0_searched (hlegal : LegalDci p.sizeof_bits p.L)
    (hcnt : st.dci_cnt + nCCE < 256) (buffers : Nat → DciBuffers) :
    ∃ st', dciDecodingProcedure0 p nCCE e_rx buffers st = some st' ∧
      ∃ hits found, p.Searched e_rx nCCE ((nCCE + 2 ^ p.L - 1) / 2 ^ p.L) st st' hits found := by
  have hplaces : (nCCE + 2 ^ p.L - 1) / 2 ^ p.L ≤ nCCE := by
    have hL := hlegal.level
    interval_cases p.L <;> omega
  apply CInt.forLoop_induction fun n s => ∃ hits found, p.Searched e_rx nCCE n st s hits found
  · exact ⟨[], [], Searched.start st⟩
  · rintro n s hn ⟨hits, found, hsearched⟩
    by_cases hroom : n * 2 ^ p.L + 2 ^ p.L ≤ nCCE
    · obtain ⟨d_rx, hrun, -⟩ := dciDecoding_eq hlegal (fun i => e_rx (72 * (n * 2 ^ p.L) + i))
        s.dci_decoded_output (buffers n)
      generalize viterbiDecoded _ _ _ _ = out at hrun
      have hdecode : p.decode e_rx (n * 2 ^ p.L) s.dci_decoded_output (buffers n) = some out := hrun
      refine ⟨p.consider (n * 2 ^ p.L) out s, ?_, ?_⟩
      · simp only [if_pos hroom, hdecode, Option.bind_eq_bind, Option.bind_some, Option.pure_def]
      · by_cases hwanted : p.wants (decodedRnti out p.sizeof_bits)
        · have hlength := hsearched.length_le fun k hk => (hsearched.inside k hk).1
          have hplace := hsearched.dci_cnt
          exact ⟨_, hsearched.hit hlegal.level hroom ⟨_, _, hdecode⟩ hwanted (by omega)⟩
        · rw [consider, if_neg hwanted]
          exact ⟨hits, found, hsearched.skip out fun _ => ⟨out, ⟨_, _, hdecode⟩, hwanted⟩⟩
    · refine ⟨s, ?_, hits, found, hsearched.skip s.dci_decoded_output fun h => absurd h hroom⟩
      simp only [if_neg hroom, Option.pure_def]

end SearchParms

/-! ## All searches of a subframe -/

def SI_RNTI : BitVec 16 := 0xffff

inductive UeMode where
  | NOT_SYNCHED
  | PRACH
  | RA_RESPONSE
  | PUSCH
  | RESYNCH
  deriving DecidableEq, Repr

structure UeVars where
  crnti : BitVec 16
  /-- `ra_RNTI` of the resources for the random access, if there are any. -/
  prach_resources : Option (BitVec 16)
  transmission_mode : BitVec 8
  UE_mode : UeMode

/-- The bits that are sent of a format, and the octets of its record. -/
structure DciSize where
  bits : Nat
  bytes : Nat

def format1ASize (frame_type : BitVec 8) : DciSize := if frame_type = 1 then ⟨27, 4⟩ else ⟨25, 4⟩

def format0Size (frame_type : BitVec 8) : DciSize := if frame_type = 1 then ⟨27, 4⟩ else ⟨25, 4⟩

def format1Size (frame_type : BitVec 8) : DciSize := if frame_type = 1 then ⟨30, 4⟩ else ⟨27, 4⟩

/-- A search and the condition, on the states before and after, to look no further. -/
structure SearchCall where
  parms : SearchParms
  stop : SearchState → SearchState → Bool

namespace UeVars
variable (ue : UeVars) (frame_type : BitVec 8)

def ra_rnti : BitVec 16 := ue.prach_resources.getD 99

def searchParms (L : Nat) (format_c : DciFormat) (size : DciSize) : SearchParms where
  si_rnti := SI_RNTI
  ra_rnti := ue.ra_rnti
  crnti := ue.crnti
  L := L
  format_si := .format1A
  format_ra := .format1A
  format_c := format_c
  sizeof_bits := size.bits
  sizeof_bytes := size.bytes

def full (st : SearchState) : Bool :=
  decide (st.CCEmap 0 = 0xffff) || (st.format0_found && st.format_c_found)

def commonSearches : List SearchCall :=
  [⟨ue.searchParms 2 .format0 (format1ASize frame_type), fun _ st => full st⟩,
   ⟨ue.searchParms 0 .format0 (format0Size frame_type), fun _ st => full st⟩,
   ⟨ue.searchParms 1 .format0 (format0Size frame_type), fun _ st => full st⟩]

/-- The format of the transmission mode. In the first modes `old_dci_cnt` is set before every search,
in the others it stays 0. -/
def modeSearches : List SearchCall :=
  if ue.transmission_mode.toNat < 3 then
    [0, 1, 2].map fun L => ⟨ue.searchParms L .format1 (format1Size frame_type),
      fun old st => full st || decide (old.dci_cnt < st.dci_cnt)⟩
  else
    let (format, size) :=
      if ue.transmission_mode = 4 then (DciFormat.format2_2A_M10PRB, (⟨42, 8⟩ : DciSize))
      else (DciFormat.format1E_2A_M10PRB, ⟨34, 9⟩)
    [0, 1, 2].map fun L => ⟨ue.searchParms L format size,
      fun _ st => full st || decide (0 < st.dci_cnt)⟩

def searches : List SearchCall :=
  ue.commonSearches frame_type ++
    match ue.UE_mode with
    | .NOT_SYNCHED | .PRACH | .RA_RESPONSE => []
    | .PUSCH | .RESYNCH => ue.modeSearches frame_type

end UeVars

def SearchState.clear (st : SearchState) : SearchState :=
  { st with dci_cnt := 0, format0_found := false, format_c_found := false, CCEmap := fun _ => 0 }

def runSearches (nCCE : Nat) (e_rx : Nat → BitVec 8) (buffers : Nat → Nat → DciBuffers) :
    List SearchCall → SearchState → Option SearchState
  | [], st => some st
  | call :: calls, st => do
    let st' ← dciDecodingProcedure0 call.parms nCCE e_rx (buffers calls.length) st
    if call.stop st st' then return st' else runSearches nCCE e_rx buffers calls st'

/-- The number of CCEs is that of subframe 0. -/
def dciDecodingProcedure (ue : UeVars) (frame_parms : PdcchParms) (num_pdcch_symbols : Nat)
    (e_rx : Nat → BitVec 8) (buffers : Nat → Nat → DciBuffers) (st : SearchState) : Option SearchState :=
  runSearches (getNCCE num_pdcch_symbols frame_parms (getMi frame_parms 0)) e_rx buffers
    (ue.searches frame_parms.frame_type)
    st.clear

def OwnDci (ra_rnti : BitVec 16) (format : DciFormat) (dci : DciAlloc) : Prop :=
  dci.rnti ≠ SI_RNTI ∧ dci.rnti ≠ ra_rnti ∧ dci.format = format

instance (ra_rnti : BitVec 16) (format : DciFormat) (dci : DciAlloc) :
    Decidable (OwnDci ra_rnti format dci) := inferInstanceAs (Decidable (_ ∧ _))

/-- A search that the procedure may make; `format_c` is the format of the transmission mode. -/
structure Planned (ra_rnti : BitVec 16) (format_c : DciFormat) (p : SearchParms) : Prop
    extends LegalDci p.sizeof_bits p.L where
  si_rnti : p.si_rnti = SI_RNTI
  ra_rnti : p.ra_rnti = ra_rnti
  format : p.format_c = .format0 ∨ p.format_c = format_c

/-- What the searches `calls` report, from the state `st₀` to the state `st`. -/
structure Monitored (nCCE : Nat) (e_rx : Nat → BitVec 8) (ra_rnti : BitVec 16) (format_c : DciFormat)
    (calls : List SearchCall) (st₀ st : SearchState) (dcis : List DciAlloc) : Prop where
  dci_cnt : st.dci_cnt = st₀.dci_cnt + dcis.length
  size : dcis.length ≤ calls.length * nCCE
  earlier : ∀ j < st₀.dci_cnt, st.dci_alloc j = st₀.dci_alloc j
  new : newDcis st₀ st dcis.length = dcis
  reported : ∀ dci ∈ dcis, ∃ call ∈ calls, ∃ k, k * 2 ^ call.parms.L + 2 ^ call.parms.L ≤ nCCE ∧
    call.parms.Found e_rx k dci
  uplink : dcis.countP (fun dci => OwnDci ra_rnti .format0 dci) + st₀.format0_found.toNat =
    st.format0_found.toNat
  downlink : dcis.countP (fun dci => OwnDci ra_rnti format_c dci) + st₀.format_c_found.toNat =
    st.format_c_found.toNat

section Monitoring
variable {nCCE : Nat} {e_rx : Nat → BitVec 8} {ra_rnti : BitVec 16} {format_c : DciFormat}

theorem newDcis_add {st₀ st₁ st₂ : SearchState} {n : Nat} (hcnt : st₁.dci_cnt = st₀.dci_cnt + n)
    (hearlier : ∀ j < st₁.dci_cnt, st₂.dci_alloc j = st₁.dci_alloc j) (m : Nat) :
    newDcis st₀ st₂ (n + m) = newDcis st₀ st₁ n ++ newDcis st₁ st₂ m := by
  rw [newDcis, List.range_add, List.map_append, List.map_map]
  congr 1
  · apply List.map_congr_left
    intro j hj
    have hlt := List.mem_range.mp hj
    exact hearlier _ (by omega)
  · apply List.map_congr_left
    intro j _
    rw [Function.comp_apply, hcnt, Nat.add_assoc]

theorem Monitored.trans {calls calls' : List SearchCall} {st₀ st₁ st₂ : SearchState}
    {dcis dcis' : List DciAlloc} (h : Monitored nCCE e_rx ra_rnti format_c calls st₀ st₁ dcis)
    (h' : Monitored nCCE e_rx ra_rnti format_c calls' st₁ st₂ dcis') :
    Monitored nCCE e_rx ra_rnti format_c (calls ++ calls') st₀ st₂ (dcis ++ dcis') := by
  have hcnt := h.dci_cnt
  have hcnt' := h'.dci_cnt
  constructor
  · rw [hcnt', hcnt, List.length_append, Nat.add_assoc]
  · rw [List.length_append, List.length_append, Nat.add_mul]
    exact Nat.add_le_add h.size h'.size
  · intro j hj
    rw [h'.earlier j (by omega), h.earlier j hj]
  · rw [List.length_append, newDcis_add hcnt h'.earlier, h.new, h'.new]
  · intro dci hdci
    rcases List.mem_append.mp hdci with hfirst | hsecond
    · obtain ⟨call, hcall, hfound⟩ := h.reported dci hfirst
      exact ⟨call, List.mem_append_left calls' hcall, hfound⟩
    · obtain ⟨call, hcall, hfound⟩ := h'.reported dci hsecond
      exact ⟨call, List.mem_append_right calls hcall, hfound⟩
  · have hfirst := h.uplink
    have hsecond := h'.uplink
    rw [List.countP_append]
    omega
  · have hfirst := h.downlink
    have hsecond := h'.downlink
    rw [List.countP_append]
    omega

theorem Monitored.mono {calls calls' : List SearchCall} {st₀ st : SearchState} {dcis : List DciAlloc}
    (h : Monitored nCCE e_rx ra_rnti format_c calls st₀ st dcis) :
    Monitored nCCE e_rx ra_rnti format_c (calls ++ calls') st₀ st dcis where
  dci_cnt := h.dci_cnt
  size := by
    rw [List.length_append, Nat.add_mul]
    exact Nat.le_add_right_of_le h.size
  earlier := h.earlier
  new := h.new
  reported := by
    intro dci hdci
    obtain ⟨call, hcall, hfound⟩ := h.reported dci hdci
    exact ⟨call, List.mem_append_left calls' hcall, hfound⟩
  uplink := h.uplink
  downlink := h.downlink

theorem SearchParms.Found.format_eq {p : SearchParms} {k : Nat} {dci : DciAlloc}
    (h : p.Found e_rx k dci) (hsi : dci.rnti ≠ p.si_rnti) (hra : dci.rnti ≠ p.ra_rnti) :
    dci.format = p.format_c ∨ p.format_c = .format0 ∧ dci.format = .format1A := by
  obtain ⟨out, -, -, -, -, hformat⟩ := h.decoded
  rw [SearchParms.format, if_neg hsi, if_neg hra] at hformat
  split at hformat
  · rename_i hdownlink
    exact Or.inr ⟨hdownlink.1, hformat⟩
  · exact Or.inl hformat

theorem exists_mem_of_forall₂ {α β : Type} {R : α → β → Prop} {l : List α} {l' : List β}
    (h : List.Forall₂ R l l') {b : β} (hb : b ∈ l') : ∃ a ∈ l, R a b := by
  induction h with
  | nil => exact absurd hb List.not_mem_nil
  | cons hab _ ih =>
    rcases List.mem_cons.mp hb with rfl | hb
    · exact ⟨_, List.mem_cons_self, hab⟩
    · obtain ⟨a, ha, hrel⟩ := ih hb
      exact ⟨a, List.mem_cons_of_mem _ ha, hrel⟩

section One
variable {p : SearchParms} {n : Nat} {st₀ st : SearchState} {hits found : List Nat}

theorem SearchParms.Searched.found_of_mem (h : p.Searched e_rx nCCE n st₀ st hits found)
    {dci : DciAlloc} (hdci : dci ∈ newDcis st₀ st found.length) :
    ∃ k, k * 2 ^ p.L + 2 ^ p.L ≤ nCCE ∧ p.Found e_rx k dci := by
  obtain ⟨k, hk, hfound⟩ := exists_mem_of_forall₂ h.reported hdci
  exact ⟨k, (h.inside k (h.sublist.subset hk)).2.1, hfound⟩

theorem SearchParms.Searched.countP_own (h : p.Searched e_rx nCCE n st₀ st hits found)
    (hplanned : Planned ra_rnti format_c p) (h1A : p.format_c ≠ .format1A) :
    (newDcis st₀ st found.length).countP (fun dci => OwnDci ra_rnti p.format_c dci) +
      (p.flag st₀).toNat = (p.flag st).toNat := by
  rw [← h.once]
  congr 1
  apply List.countP_congr
  intro dci hdci
  obtain ⟨k, -, hfound⟩ := h.found_of_mem hdci
  rw [decide_eq_true_iff, decide_eq_true_iff, OwnDci, SearchParms.OnlyOne, hplanned.si_rnti,
    hplanned.ra_rnti]
  refine and_congr_right fun hsi => and_congr_right fun hra => ?_
  have hformat := hfound.format_eq (hplanned.si_rnti ▸ hsi) (hplanned.ra_rnti ▸ hra)
  constructor
  · rintro hown ⟨-, h⟩
    exact h1A (hown.symm.trans h)
  · intro hnot
    exact hformat.resolve_right hnot

theorem SearchParms.Searched.countP_other (h : p.Searched e_rx nCCE n st₀ st hits found)
    (hplanned : Planned ra_rnti format_c p) {format : DciFormat} (hformat : p.format_c ≠ format)
    (h1A : format ≠ .format1A) :
    (newDcis st₀ st found.length).countP (fun dci => OwnDci ra_rnti format dci) = 0 := by
  apply List.countP_eq_zero.mpr
  intro dci hdci hown
  rw [decide_eq_true_iff] at hown
  obtain ⟨hsi, hra, hdci'⟩ := hown
  obtain ⟨k, -, hfound⟩ := h.found_of_mem hdci
  rcases hfound.format_eq (hplanned.si_rnti ▸ hsi) (hplanned.ra_rnti ▸ hra) with h | ⟨-, h⟩
  · exact hformat (h.symm.trans hdci')
  · exact h1A (hdci'.symm.trans h)

theorem SearchParms.Searched.monitored {call : SearchCall}
    (h : call.parms.Searched e_rx nCCE n st₀ st hits found)
    (hplanned : Planned ra_rnti format_c call.parms) (h0 : format_c ≠ .format0)
    (h1A : format_c ≠ .format1A) :
    Monitored nCCE e_rx ra_rnti format_c [call] st₀ st (newDcis st₀ st found.length) := by
  have hlength : (newDcis st₀ st found.length).length = found.length := by
    rw [newDcis, List.length_map, List.length_range]
  have hother := h.otherFlag
  constructor
  · rw [hlength]
    exact h.dci_cnt
  · rw [hlength, List.length_singleton, Nat.one_mul]
    apply h.length_le
    intro k hk
    have hroom := (h.inside k hk).2.1
    have hpos := Nat.two_pow_pos call.parms.L
    have hle := Nat.le_mul_of_pos_right k hpos
    omega
  · exact h.earlier
  · rw [hlength]
  · intro dci hdci
    obtain ⟨k, hk⟩ := h.found_of_mem hdci
    exact ⟨call, List.mem_singleton_self call, k, hk⟩
  · rcases hplanned.format with hzero | hmode
    · have hcount := h.countP_own hplanned (by rw [hzero]; decide)
      rw [SearchParms.flag, SearchParms.flag, if_pos hzero, if_pos hzero, hzero] at hcount
      exact hcount
    · have hne : call.parms.format_c ≠ .format0 := hmode ▸ h0
      rw [SearchParms.otherFlag, SearchParms.otherFlag, if_neg hne, if_neg hne] at hother
      rw [h.countP_other hplanned hne (by decide), hother, Nat.zero_add]
  · rcases hplanned.format with hzero | hmode
    · rw [SearchParms.otherFlag, SearchParms.otherFlag, if_pos hzero, if_pos hzero] at hother
      rw [h.countP_other hplanned (by rw [hzero]; exact h0.symm) h1A, hother, Nat.zero_add]
    · have hne : call.parms.format_c ≠ .format0 := hmode ▸ h0
      have hcount := h.countP_own hplanned (hmode ▸ h1A)
      rw [SearchParms.flag, SearchParms.flag, if_neg hne, if_neg hne, hmode] at hcount
      exact hcount

theorem SearchParms.Searched.reports (h : p.Searched e_rx nCCE n st₀ st hits found) {k : Nat}
    (hk : k < n) (hroom : k * 2 ^ p.L + 2 ^ p.L ≤ nCCE)
    (hall : ∀ out, p.Decodes e_rx k out → p.wants (decodedRnti out p.sizeof_bits) ∧
      ¬ p.OnlyOne (decodedRnti out p.sizeof_bits) (p.format (decodedRnti out p.sizeof_bits) out)) :
    ∃ dci ∈ newDcis st₀ st found.length, p.Found e_rx k dci := by
  have hhit := h.complete k hk hroom fun out hout => (hall out hout).1
  have hfound : k ∈ found := by
    by_contra hlost
    obtain ⟨-, out, hout, hone⟩ := h.passed k hhit hlost
    exact (hall out hout).2 hone
  exact exists_mem_of_forall₂ h.reported.flip hfound

theorem SearchParms.Searched.flag_of_shows (h : p.Searched e_rx nCCE n st₀ st hits found) {k : Nat}
    (hk : k < n) (hroom : k * 2 ^ p.L + 2 ^ p.L ≤ nCCE)
    (hall : ∀ out, p.Decodes e_rx k out → p.wants (decodedRnti out p.sizeof_bits) ∧
      p.OnlyOne (decodedRnti out p.sizeof_bits) (p.format (decodedRnti out p.sizeof_bits) out)) :
    p.flag st = true := by
  have hhit := h.complete k hk hroom fun out hout => (hall out hout).1
  by_cases hfound : k ∈ found
  · obtain ⟨dci, hdci, hreported⟩ := exists_mem_of_forall₂ h.reported.flip hfound
    obtain ⟨out, -, hout, hrnti, -, hformat⟩ := hreported.decoded
    have hone := (hall out hout).2
    rw [hrnti, ← hformat] at hone
    have hcount : 0 < (newDcis st₀ st found.length).countP fun dci => p.OnlyOne dci.rnti dci.format :=
      List.countP_pos_iff.mpr ⟨dci, hdci, decide_eq_true hone⟩
    have honce := h.once
    have hflag := Bool.toNat_le (p.flag st)
    exact Bool.toNat_eq_one.mp (by omega)
  · exact (h.passed k hhit hfound).1

end One

variable {calls : List SearchCall} {st : SearchState}

theorem runSearches_cons {call : SearchCall} (hplanned : Planned ra_rnti format_c call.parms)
    (h0 : format_c ≠ .format0) (h1A : format_c ≠ .format1A) (buffers : Nat → Nat → DciBuffers)
    (hcnt : st.dci_cnt + (call :: calls).length * nCCE < 256)
    (hrest : ∀ st₁, st₁.dci_cnt + calls.length * nCCE < 256 →
      ∃ st' dcis, runSearches nCCE e_rx buffers calls st₁ = some st' ∧
        Monitored nCCE e_rx ra_rnti format_c calls st₁ st' dcis) :
    ∃ st₁ hits found, call.parms.Searched e_rx nCCE
        ((nCCE + 2 ^ call.parms.L - 1) / 2 ^ call.parms.L) st st₁ hits found ∧
      ∃ st' dcis, runSearches nCCE e_rx buffers (call :: calls) st = some st' ∧
        Monitored nCCE e_rx ra_rnti format_c (call :: calls) st st'
          (newDcis st st₁ found.length ++ dcis) ∧
        (st₁.format0_found = true → st'.format0_found = true) := by
  rw [List.length_cons, Nat.add_mul, Nat.one_mul] at hcnt
  have hroom : st.dci_cnt + nCCE < 256 := by omega
  obtain ⟨st₁, hrun, hits, found, hsearched⟩ := SearchParms.dciDecodingProcedure0_searched e_rx
    hplanned.toLegalDci hroom (buffers calls.length)
  have hfirst := hsearched.monitored hplanned h0 h1A
  refine ⟨st₁, hits, found, hsearched, ?_⟩
  by_cases hstop : call.stop st st₁ = true
  · refine ⟨st₁, [], ?_, ?_, id⟩
    · simp only [runSearches, hrun, Option.bind_eq_bind, Option.bind_some, if_pos hstop, Option.pure_def]
    · rw [List.append_nil]
      exact hfirst.mono
  · have hsize := hfirst.size
    have hplace := hfirst.dci_cnt
    rw [List.length_singleton, Nat.one_mul] at hsize
    obtain ⟨st', dcis, hrun', hmonitored⟩ := hrest st₁ (by omega)
    refine ⟨st', dcis, ?_, hfirst.trans hmonitored, ?_⟩
    · simp only [runSearches, hrun, Option.bind_eq_bind, Option.bind_some, if_neg hstop, hrun']
    · intro hflag
      have huplink := hmonitored.uplink
      have hle := Bool.toNat_le st'.format0_found
      rw [hflag, Bool.toNat_true] at huplink
      exact Bool.toNat_eq_one.mp (by omega)

theorem runSearches_monitored (h0 : format_c ≠ .format0) (h1A : format_c ≠ .format1A)
    (buffers : Nat → Nat → DciBuffers) (hplanned : ∀ call ∈ calls, Planned ra_rnti format_c call.parms)
    (hcnt : st.dci_cnt + calls.length * nCCE < 256) :
    ∃ st' dcis, runSearches nCCE e_rx buffers calls st = some st' ∧
      Monitored nCCE e_rx ra_rnti format_c calls st st' dcis := by
  induction calls generalizing st with
  | nil =>
    exact ⟨st, [], rfl, rfl, Nat.zero_le _, fun _ _ => rfl, rfl,
      fun _ hdci => absurd hdci List.not_mem_nil, Nat.zero_add _, Nat.zero_add _⟩
  | cons call calls ih =>
    obtain ⟨st₁, hits, found, -, st', dcis, hrun, hmonitored, -⟩ := runSearches_cons
      (hplanned call List.mem_cons_self) h0 h1A buffers hcnt fun st₁ hcnt₁ =>
        ih (fun call' hcall' => hplanned call' (List.mem_cons_of_mem call hcall')) hcnt₁
    exact ⟨st', _, hrun, hmonitored⟩

end Monitoring

namespace UeVars
variable (ue : UeVars) (frame_type : BitVec 8)

def modeFormat : DciFormat :=
  if ue.transmission_mode.toNat < 3 then .format1
  else if ue.transmission_mode = 4 then .format2_2A_M10PRB
  else .format1E_2A_M10PRB

theorem modeFormat_ne : ue.modeFormat ≠ .format0 ∧ ue.modeFormat ≠ .format1A := by
  rw [modeFormat]
  split
  · decide
  · split <;> decide

theorem format1ASize_bits : (format1ASize frame_type).bits = 27 ∨ (format1ASize frame_type).bits = 25 := by
  rw [format1ASize]
  split
  · exact Or.inl rfl
  · exact Or.inr rfl

theorem format1ASize_bytes : (format1ASize frame_type).bytes = 4 := by
  rw [format1ASize]
  split <;> rfl

theorem format1Size_bits : (format1Size frame_type).bits ≤ 45 := by
  rw [format1Size]
  split <;> decide

def Searches (p : SearchParms) : Prop :=
  ∃ L format_c size, p = ue.searchParms L format_c size ∧ L ≤ 3 ∧ size.bits ≤ 45 ∧
    (format_c = .format0 ∨ format_c = ue.modeFormat)

theorem searches_commonSearches {call : SearchCall} (h : call ∈ ue.commonSearches frame_type) :
    ue.Searches call.parms := by
  have hsize : (format1ASize frame_type).bits ≤ 45 := by
    have hbits := format1ASize_bits frame_type
    omega
  rcases List.mem_cons.mp h with rfl | h
  · exact ⟨2, _, _, rfl, by decide, hsize, Or.inl rfl⟩
  rcases List.mem_cons.mp h with rfl | h
  · exact ⟨0, _, _, rfl, by decide, hsize, Or.inl rfl⟩
  · obtain rfl := List.mem_singleton.mp h
    exact ⟨1, _, _, rfl, by decide, hsize, Or.inl rfl⟩

theorem searches_modeSearches {call : SearchCall} (h : call ∈ ue.modeSearches frame_type) :
    ue.Searches call.parms := by
  have hlevel : ∀ L ∈ [0, 1, 2], L ≤ 3 := by decide
  rw [modeSearches] at h
  split at h
  · rename_i hmode
    obtain ⟨L, hL, rfl⟩ := List.mem_map.mp h
    exact ⟨L, _, _, rfl, hlevel L hL, format1Size_bits frame_type,
      Or.inr (by rw [modeFormat, if_pos hmode])⟩
  · rename_i hmode
    by_cases hfour : ue.transmission_mode = 4
    · rw [if_pos hfour] at h
      obtain ⟨L, hL, rfl⟩ := List.mem_map.mp h
      exact ⟨L, _, _, rfl, hlevel L hL, by decide,
        Or.inr (by rw [modeFormat, if_neg hmode, if_pos hfour])⟩
    · rw [if_neg hfour] at h
      obtain ⟨L, hL, rfl⟩ := List.mem_map.mp h
      exact ⟨L, _, _, rfl, hlevel L hL, by decide,
        Or.inr (by rw [modeFormat, if_neg hmode, if_neg hfour])⟩

theorem searches_searches {call : SearchCall} (h : call ∈ ue.searches frame_type) :
    ue.Searches call.parms := by
  rcases List.mem_append.mp h with hcommon | hmode
  · exact ue.searches_commonSearches frame_type hcommon
  · split at hmode
    · exact absurd hmode List.not_mem_nil
    · exact absurd hmode List.not_mem_nil
    · exact absurd hmode List.not_mem_nil
    · exact ue.searches_modeSearches frame_type hmode
    · exact ue.searches_modeSearches frame_type hmode

variable {ue} in
theorem Searches.planned {p : SearchParms} (h : ue.Searches p) :
    Planned ue.ra_rnti ue.modeFormat p := by
  obtain ⟨L, format_c, size, rfl, hL, hsize, hformat⟩ := h
  exact ⟨⟨hsize, hL⟩, rfl, rfl, hformat⟩

variable {ue} in
/-- What a search reports is for all terminals, for a random access, or for this one. -/
theorem Searches.wants {p : SearchParms} (h : ue.Searches p) {rnti : BitVec 16} (hwanted : p.wants rnti) :
    rnti = SI_RNTI ∨ rnti = ue.ra_rnti ∨ rnti = ue.crnti := by
  obtain ⟨L, format_c, size, rfl, -⟩ := h
  rcases hwanted with ⟨-, hsi | hra⟩ | hown
  · exact Or.inl hsi
  · exact Or.inr (Or.inl hra)
  · exact Or.inr (Or.inr hown)

theorem length_searches : (ue.searches frame_type).length ≤ 6 := by
  have hmode : (ue.modeSearches frame_type).length = 3 := by
    rw [modeSearches]
    split <;> rfl
  rw [searches, List.length_append]
  have hcommon : (ue.commonSearches frame_type).length = 3 := rfl
  rw [hcommon]
  split
  · decide
  · decide
  · decide
  · omega
  · omega

def firstSearch : SearchParms := ue.searchParms 2 .format0 (format1ASize frame_type)

end UeVars

structure Procedure (ue : UeVars) (nCCE : Nat) (frame_type : BitVec 8) (e_rx : Nat → BitVec 8)
    (st : SearchState) (dcis : List DciAlloc) : Prop where
  alloc : dcis = (List.range st.dci_cnt).map st.dci_alloc
  /-- Every DCI is what the decoder makes of a place. -/
  reported : ∀ dci ∈ dcis, ∃ call ∈ ue.searches frame_type, ∃ k,
    k * 2 ^ call.parms.L + 2 ^ call.parms.L ≤ nCCE ∧ call.parms.Found e_rx k dci
  /-- There is at most one DCI for the uplink, and at most one of the format of the mode. -/
  uplink : dcis.countP (fun dci => OwnDci ue.ra_rnti .format0 dci) = st.format0_found.toNat
  downlink : dcis.countP (fun dci => OwnDci ue.ra_rnti ue.modeFormat dci) = st.format_c_found.toNat
  /-- No DCI at level 2 is missed. -/
  complete : ∀ k, k * 4 + 4 ≤ nCCE →
    (∀ out, (ue.firstSearch frame_type).Decodes e_rx k out →
      (ue.firstSearch frame_type).wants (decodedRnti out (format1ASize frame_type).bits) ∧
      ¬ (ue.firstSearch frame_type).OnlyOne (decodedRnti out (format1ASize frame_type).bits)
        ((ue.firstSearch frame_type).format (decodedRnti out (format1ASize frame_type).bits) out)) →
    ∃ dci ∈ dcis, (ue.firstSearch frame_type).Found e_rx k dci
  granted : ∀ k, k * 4 + 4 ≤ nCCE →
    (∀ out, (ue.firstSearch frame_type).Decodes e_rx k out →
      (ue.firstSearch frame_type).wants (decodedRnti out (format1ASize frame_type).bits) ∧
      (ue.firstSearch frame_type).OnlyOne (decodedRnti out (format1ASize frame_type).bits)
        ((ue.firstSearch frame_type).format (decodedRnti out (format1ASize frame_type).bits) out)) →
    st.format0_found = true

theorem dciDecodingProcedure_spec (ue : UeVars) (frame_parms : PdcchParms) (num_pdcch_symbols : Nat)
    (hnCCE : 6 * getNCCE num_pdcch_symbols frame_parms (getMi frame_parms 0) < 256)
    (e_rx : Nat → BitVec 8) (buffers : Nat → Nat → DciBuffers) (st : SearchState) :
    ∃ st' dcis, dciDecodingProcedure ue frame_parms num_pdcch_symbols e_rx buffers st = some st' ∧
      Procedure ue (getNCCE num_pdcch_symbols frame_parms (getMi frame_parms 0)) frame_parms.frame_type
        e_rx st' dcis := by
  rw [dciDecodingProcedure]
  generalize getNCCE num_pdcch_symbols frame_parms (getMi frame_parms 0) = nCCE at hnCCE ⊢
  generalize frame_parms.frame_type = frame_type
  obtain ⟨calls, hcalls⟩ : ∃ calls, ue.searches frame_type =
      ⟨ue.firstSearch frame_type, fun _ st => UeVars.full st⟩ :: calls := ⟨_, rfl⟩
  have hlength := ue.length_searches frame_type
  have hplanned : ∀ call ∈ ue.searches frame_type, Planned ue.ra_rnti ue.modeFormat call.parms :=
    fun call hcall => (ue.searches_searches frame_type hcall).planned
  rw [hcalls] at hlength hplanned
  have hfew : calls.length * nCCE ≤ 5 * nCCE := Nat.mul_le_mul_right nCCE (Nat.le_of_succ_le_succ hlength)
  have hcnt : 0 + (SearchCall.mk (ue.firstSearch frame_type) (fun _ st => UeVars.full st) ::
      calls).length * nCCE < 256 := by
    rw [List.length_cons, Nat.add_mul]
    omega
  obtain ⟨h0, h1A⟩ := ue.modeFormat_ne
  obtain ⟨st₁, hits, found, hsearched, st', dcis, hrun, hmonitored, hflag⟩ :=
    @runSearches_cons nCCE e_rx ue.ra_rnti ue.modeFormat calls st.clear _
      (hplanned _ List.mem_cons_self) h0 h1A buffers hcnt fun st₁ hcnt₁ =>
        runSearches_monitored h0 h1A buffers
          (fun call hcall => hplanned call (List.mem_cons_of_mem _ hcall)) hcnt₁
  have hplaces : ∀ k, k * 4 + 4 ≤ nCCE → k < (nCCE + 2 ^ 2 - 1) / 2 ^ 2 := by
    intro k hk
    omega
  rw [hcalls]
  refine ⟨st', newDcis st.clear st₁ found.length ++ dcis, hrun, ?_, ?_, ?_, ?_, ?_, ?_⟩
  · have hnew := hmonitored.new
    have hplace := hmonitored.dci_cnt
    rw [← hnew, newDcis, hplace]
    simp only [SearchState.clear, Nat.zero_add]
  · rw [hcalls]
    exact hmonitored.reported
  · exact hmonitored.uplink
  · exact hmonitored.downlink
  · intro k hk hall
    obtain ⟨dci, hdci, hfound⟩ := hsearched.reports (hplaces k hk) hk hall
    exact ⟨dci, List.mem_append_left dcis hdci, hfound⟩
  · intro k hk hall
    exact hflag (hsearched.flag_of_shows (hplaces k hk) hk hall)

def pdcch5MHz : PdcchParms where
  Ncp := 0
  Nid_cell := 7
  N_RB_DL := 25
  frame_type := 1
  tdd_config := 3
  nb_antennas_tx := 1
  phich_resource := 1

/-- Whatever arrives, and whatever was reported before: what is reported is what the decoder makes of
places, with no more than one uplink grant and one DCI of the format of the mode, and no place at level 2
is missed that shows an RNTI for all terminals or for a random access. -/
theorem dciDecodingProcedure_reports (ue : UeVars) (frame_parms : PdcchParms) (num_pdcch_symbols : Nat)
    (hnCCE : 6 * getNCCE num_pdcch_symbols frame_parms (getMi frame_parms 0) < 256)
    (e_rx : Nat → BitVec 8) (buffers : Nat → Nat → DciBuffers) (st : SearchState) :
    ∃ st', dciDecodingProcedure ue frame_parms num_pdcch_symbols e_rx buffers st = some st' ∧
      (∀ j < st'.dci_cnt, ((st'.dci_alloc j).rnti = SI_RNTI ∨ (st'.dci_alloc j).rnti = ue.ra_rnti ∨
          (st'.dci_alloc j).rnti = ue.crnti) ∧
        ∃ call ∈ ue.searches frame_parms.frame_type, ∃ k,
          k * 2 ^ call.parms.L + 2 ^ call.parms.L ≤
            getNCCE num_pdcch_symbols frame_parms (getMi frame_parms 0) ∧
          call.parms.Found e_rx k (st'.dci_alloc j)) ∧
      (List.range st'.dci_cnt).countP (fun j => OwnDci ue.ra_rnti .format0 (st'.dci_alloc j)) ≤ 1 ∧
      (List.range st'.dci_cnt).countP (fun j => OwnDci ue.ra_rnti ue.modeFormat (st'.dci_alloc j)) ≤ 1 ∧
      ∀ k, k * 4 + 4 ≤ getNCCE num_pdcch_symbols frame_parms (getMi frame_parms 0) →
        (∀ out, (ue.firstSearch frame_parms.frame_type).Decodes e_rx k out →
          decodedRnti out (format1ASize frame_parms.frame_type).bits = SI_RNTI ∨
            decodedRnti out (format1ASize frame_parms.frame_type).bits = ue.ra_rnti) →
        ∃ j < st'.dci_cnt, (ue.firstSearch frame_parms.frame_type).Found e_rx k (st'.dci_alloc j) := by
  obtain ⟨st', dcis, hrun, hproc⟩ :=
    dciDecodingProcedure_spec ue frame_parms num_pdcch_symbols hnCCE e_rx buffers st
  have huplink := hproc.uplink
  have hdownlink := hproc.downlink
  have hmem : ∀ {dci}, dci ∈ dcis ↔ ∃ j < st'.dci_cnt, st'.dci_alloc j = dci := by
    intro dci
    rw [hproc.alloc, List.mem_map]
    simp only [List.mem_range]
  rw [hproc.alloc, List.countP_map] at huplink hdownlink
  refine ⟨st', hrun, ?_, ?_, ?_, ?_⟩
  · intro j hj
    obtain ⟨call, hcall, k, hk, hfound⟩ := hproc.reported _ (hmem.mpr ⟨j, hj, rfl⟩)
    exact ⟨(ue.searches_searches _ hcall).wants hfound.wanted, call, hcall, k, hk, hfound⟩
  · exact huplink.trans_le (Bool.toNat_le _)
  · exact hdownlink.trans_le (Bool.toNat_le _)
  · intro k hk hall
    obtain ⟨dci, hdci, hfound⟩ := hproc.complete k hk fun out hout => by
      rcases hall out hout with hsi | hra
      · exact ⟨Or.inl ⟨Nat.one_lt_two, Or.inl hsi⟩, fun hone => hone.1 hsi⟩
      · exact ⟨Or.inl ⟨Nat.one_lt_two, Or.inr hra⟩, fun hone => hone.2.1 hra⟩
    obtain ⟨j, hj, rfl⟩ := hmem.mp hdci
    exact ⟨j, hj, hfound⟩

def DciBuffers.start : DciBuffers where
  dummy_w_rx := fun _ => 0
  w_rx := fun _ => 0
  d_rx := fun _ => 0
  TB := fun _ => ⟨fun _ => 0, fun _ => 0, fun _ => 0, fun _ => 0⟩

theorem dciDecodingProcedure_reports_system_information :
    ∃ e st', generateDci0 (fun _ => 0xa5) (fun _ => 0) 27 2 SI_RNTI (fun _ => 0) (fun _ => 0) = some e ∧
      dciDecodingProcedure ⟨0x1234, none, 1, .PUSCH⟩ pdcch5MHz 3
        (fun k => if (e k).getLsbD 0 then 20 else -20) (fun _ _ => DciBuffers.start)
        ⟨fun _ => ⟨0, 0, 0, .format0, fun _ => 0⟩, 9, true, true, 0, fun _ => 0xffff, fun _ => 0⟩ = some st' ∧
      (∀ j < st'.dci_cnt, (st'.dci_alloc j).rnti = SI_RNTI ∨ (st'.dci_alloc j).rnti = 99 ∨
        (st'.dci_alloc j).rnti = 0x1234) ∧
      (List.range st'.dci_cnt).countP (fun j => OwnDci 99 .format0 (st'.dci_alloc j)) ≤ 1 ∧
      ∃ j < st'.dci_cnt, (st'.dci_alloc j).L = 2 ∧ (st'.dci_alloc j).rnti = SI_RNTI := by
  have hfits : Fits 27 2 := ⟨⟨by decide, by decide⟩, by decide⟩
  obtain ⟨e, he, -, hdecodable⟩ := generateDci0_spec hfits (fun _ => 0xa5) (fun _ => 0) (fun _ => 0)
    (fun _ => 0) SI_RNTI
  have hnCCE : 6 * getNCCE 3 pdcch5MHz (getMi pdcch5MHz 0) < 256 := by decide
  obtain ⟨st', hrun, hreported, huplink, -, hcomplete⟩ := dciDecodingProcedure_reports
    ⟨0x1234, none, 1, .PUSCH⟩ pdcch5MHz 3 hnCCE (fun k => if (e k).getLsbD 0 then 20 else -20)
    (fun _ _ => DciBuffers.start)
    ⟨fun _ => ⟨0, 0, 0, .format0, fun _ => 0⟩, 9, true, true, 0, fun _ => 0xffff, fun _ => 0⟩
  have hshown : ∀ out, ((⟨0x1234, none, 1, .PUSCH⟩ : UeVars).firstSearch 1).Decodes
      (fun k => if (e k).getLsbD 0 then 20 else -20) 0 out → decodedRnti out 27 = SI_RNTI := by
    rintro out ⟨decoded_output, buffers, hout⟩
    obtain ⟨out', hout', -, hrnti⟩ := hdecodable 2 le_rfl hfits
      (fun k => if (e k).getLsbD 0 then 20 else -20) decoded_output buffers (by
        intro k _
        rw [bitSign]
        cases (e k).getLsbD 0 <;> decide)
    have hsame : some out' = some out := by
      rw [← hout', ← hout, SearchParms.decode]
      simp only [Nat.zero_mul, Nat.mul_zero, Nat.zero_add]
      rfl
    exact Option.some.inj hsame ▸ hrnti
  obtain ⟨j, hj, hfound⟩ := hcomplete 0 (by decide) fun out hout => Or.inl (hshown out hout)
  obtain ⟨out, -, hout, hrnti, -⟩ := hfound.decoded
  exact ⟨e, st', he, hrun, fun j hj => (hreported j hj).1, huplink, j, hj, hfound.level,
    hrnti.symm.trans (hshown out hout)⟩

end PdmaXen.Lte
