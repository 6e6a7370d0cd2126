import PdmaXen.Lte.DciSearch
import PdmaXen.Lte.Pcfich

/-!
# The control channel

What `generate_dci_top` sends is found by `dci_decoding_procedure` of a terminal behind `rx_pdcch`, as
long as the channel keeps the signs. The terminal detects the number of symbols itself.
-/

namespace PdmaXen.Lte
set_option autoImplicit false

/-! ## The terminal -/

/-- The static arrays of the terminal, and the registers of the sequence, which it does not set. -/
structure RxBuffers where
  x1_pcfich : BitVec 32
  x1 : BitVec 32
  z : Nat → BitVec 8 × BitVec 8
  wtemp_rx : Nat → BitVec 8 × BitVec 8
  decoder : Nat → Nat → DciBuffers

/-- `rx_pdcch`, which asks `rx_pcfich` for the number of symbols, and `dci_decoding_procedure`. What
comes for the symbols is in `rxPcfichF` by resource elements and in `rxF` in the order of demapping. -/
def receiveDcis (ue : UeVars) (frame_parms : PdcchParms) (subframe : BitVec 8)
    (rxPcfichF rxF : Nat → BitVec 16 × BitVec 16) (buffers : RxBuffers) (st : SearchState) :
    Option SearchState := do
  let n_pdcch_symbols := rxPcfich frame_parms subframe buffers.x1_pcfich rxPcfichF
  let e_rx ← rxPdcch n_pdcch_symbols frame_parms subframe buffers.x1 rxF buffers.z buffers.wtemp_rx
  dciDecodingProcedure ue frame_parms n_pdcch_symbols e_rx buffers.decoder st

/-! ## What arrives -/

theorem Carries.decodes {e e_rx : Nat → BitVec 8} {dci : DciAlloc} {total c L : Nat}
    (h : Carries e dci total c) (hsign : ∀ k < 72 * total, 0 < bitSign (e k) * (e_rx k).toInt)
    (hL : L ≤ dci.L) (hfits : Fits dci.dci_length L) (decoded_output : Nat → BitVec 8)
    (buffers : DciBuffers) :
    ∃ out, dciDecoding dci.dci_length L (fun k => e_rx (72 * c + k)) decoded_output buffers = some out ∧
      (∀ p < dci.dci_length, bitAt out p = bitAt (dciFlip dci.dci_pdu dci.dci_length) p) ∧
        decodedRnti out dci.dci_length = dci.rnti := by
  apply h.decodable L hL hfits
  intro k hk
  have hroom := h.room
  have hfewer := Nat.pow_le_pow_right Nat.two_pos hL
  exact hsign (72 * c + k) (by omega)

section Sent
variable {num_dci : Nat} {dci_alloc : Nat → DciAlloc} {amp : BitVec 16} {frame_parms : PdcchParms}
  {subframe : BitVec 8} {n_symbols : Nat}

theorem generateDciTop_spec (hfits : ∀ i < num_dci, Fits (dci_alloc i).dci_length (dci_alloc i).L)
    (hamp : 2 ≤ amp.toInt)
    (hn_symbols : getNumPdcchSymbols num_dci dci_alloc frame_parms subframe = n_symbols)
    (hquads : 4 * (getNquad n_symbols frame_parms (getMi frame_parms subframe)).toNat ≤ Msymb)
    (hroom : numCCE dci_alloc num_dci ≤ getNCCE n_symbols frame_parms (getMi frame_parms subframe))
    (x1 : BitVec 32) (buffers : TopBuffers) :
    ∃ e wbar, generateDciTop num_dci dci_alloc amp frame_parms subframe x1 buffers = some wbar ∧
      (∀ i < num_dci, ∃ c, Carries e (dci_alloc i) (numCCE dci_alloc num_dci) c) ∧
      ∀ (rxF : Nat → BitVec 16 × BitVec 16) (x1' : BitVec 32) (z wtemp_rx : Nat → BitVec 8 × BitVec 8),
        (∀ n < 4 * (getNquad n_symbols frame_parms (getMi frame_parms subframe)).toNat,
          KeepsSigns (wbar n) (rxF n)) →
        ∃ e_rx, rxPdcch n_symbols frame_parms subframe x1' rxF z wtemp_rx = some e_rx ∧
          ∀ k < 72 * numCCE dci_alloc num_dci, 0 < bitSign (e k) * (e_rx k).toInt := by
  obtain ⟨e, hput, hcarries, -⟩ := putDcis_spec hfits buffers.d buffers.w (memset buffers.e 0
    (72 * getNCCE n_symbols frame_parms (getMi frame_parms subframe)))
  refine ⟨e, interleaveQuads frame_parms.Nid_cell.toNat
    (getNquad n_symbols frame_parms (getMi frame_parms subframe)).toNat
    (pdcchModulation (gainLinQpsk amp) (pdcchScrambling frame_parms.toFrameParms subframe
      (72 * getNCCE n_symbols frame_parms (getMi frame_parms subframe)) x1 e) buffers.y)
    buffers.wtemp buffers.wbar, ?_, hcarries, ?_⟩
  · simp only [generateDciTop, hn_symbols, hput, pdcchInterleaving, if_pos hquads, Option.bind_eq_bind,
      Option.bind_some]
  · intro rxF x1' z wtemp_rx hchannel
    obtain ⟨e_rx, hrx, hsign⟩ := rxPdcch_sign n_symbols frame_parms subframe x1 x1' (gainLinQpsk_pos hamp)
      e buffers.y buffers.wtemp buffers.wbar rxF z wtemp_rx hquads hchannel
    exact ⟨e_rx, hrx, fun k hk => hsign k (by omega)⟩

end Sent

/-! ## What is reported -/

structure ReportedAs (sent reported : DciAlloc) : Prop where
  rnti : reported.rnti = sent.rnti
  length : reported.dci_length = sent.dci_length
  format : reported.format = .format1A
  bits : ∀ p < sent.dci_length, bitAt (dciFlip reported.dci_pdu reported.dci_length) p =
    bitAt (dciFlip sent.dci_pdu sent.dci_length) p

namespace UeVars
variable (ue : UeVars)

/-- System information, a random access response, or a downlink assignment for the terminal. -/
def Downlink (dci : DciAlloc) : Prop :=
  dci.rnti = SI_RNTI ∨ dci.rnti = ue.ra_rnti ∨
    dci.rnti = ue.crnti ∧ bitAt (dciFlip dci.dci_pdu dci.dci_length) 0 = true

def Uplink (dci : DciAlloc) : Prop :=
  dci.rnti = ue.crnti ∧ dci.rnti ≠ SI_RNTI ∧ dci.rnti ≠ ue.ra_rnti ∧
    bitAt (dciFlip dci.dci_pdu dci.dci_length) 0 = false

end UeVars

theorem firstBit_eq (out : Nat → BitVec 8) : out 0 &&& 0x80 ≠ 0 ↔ bitAt out 0 = true := by
  have hoctet : ∀ b : BitVec 8, b &&& 0x80 ≠ 0 ↔ b.getMsbD 0 = true := by
    decide
  exact hoctet (out 0)

/-- The octets are put back in the order that they were decoded in. -/
theorem bitAt_dciFlip_storePdu {length : Nat} (hlength : length ≤ 32) (out dci_pdu : Nat → BitVec 8)
    {p : Nat} (hp : p < length) : bitAt (dciFlip (storePdu 4 out dci_pdu) length) p = bitAt out p := by
  have hoctet : 3 - (3 - p / 8) = p / 8 := by omega
  rw [bitAt, bitAt, dciFlip, if_pos hlength, storePdu, if_pos (by decide), if_pos (by omega), hoctet]

section Reported
variable {ue : UeVars} {nCCE : Nat} {frame_type : BitVec 8} {e e_rx : Nat → BitVec 8} {dci : DciAlloc}
  {total c : Nat}

variable (ue) in
theorem Carries.firstSearch (h : Carries e dci total c) (htotal : total ≤ nCCE)
    (hsign : ∀ k < 72 * total, 0 < bitSign (e k) * (e_rx k).toInt) (hL : 2 ≤ dci.L)
    (hlength : dci.dci_length = (format1ASize frame_type).bits) :
    ∃ k, k * 4 + 4 ≤ nCCE ∧ ∀ out, (ue.firstSearch frame_type).Decodes e_rx k out →
      (∀ p < dci.dci_length, bitAt out p = bitAt (dciFlip dci.dci_pdu dci.dci_length) p) ∧
        decodedRnti out (format1ASize frame_type).bits = dci.rnti := by
  obtain ⟨k, rfl⟩ : 2 ^ 2 ∣ c := (Nat.pow_dvd_pow 2 hL).trans h.aligned
  have hroom := h.room
  have hlevel := Nat.pow_le_pow_right Nat.two_pos hL
  have hsize := UeVars.format1ASize_bits frame_type
  refine ⟨k, by omega, ?_⟩
  rintro out ⟨decoded_output, buffers, hout⟩
  have hfits : Fits dci.dci_length 2 := ⟨⟨by omega, by decide⟩, by omega⟩
  obtain ⟨out', hout', hbits, hrnti⟩ := h.decodes hsign hL hfits decoded_output buffers
  have hsame : out' = out := by
    rw [Nat.mul_comm (2 ^ 2) k, hlength] at hout'
    exact Option.some.inj (hout'.symm.trans hout)
  rw [← hlength]
  exact hsame ▸ ⟨hbits, hrnti⟩

variable (frame_type) in
theorem UeVars.Downlink.format {out : Nat → BitVec 8} (h : ue.Downlink dci)
    (hbit : bitAt out 0 = bitAt (dciFlip dci.dci_pdu dci.dci_length) 0) :
    (ue.firstSearch frame_type).wants dci.rnti ∧
      (ue.firstSearch frame_type).format dci.rnti out = .format1A := by
  rw [SearchParms.format]
  split
  · rename_i hsi
    exact ⟨Or.inl ⟨Nat.one_lt_two, Or.inl hsi⟩, rfl⟩
  split
  · rename_i _ hra
    exact ⟨Or.inl ⟨Nat.one_lt_two, Or.inr hra⟩, rfl⟩
  · rename_i hsi hra
    obtain ⟨hown, hfirst⟩ := (h.resolve_left hsi).resolve_left hra
    rw [if_pos ⟨rfl, (firstBit_eq out).mpr (hbit.trans hfirst)⟩]
    exact ⟨Or.inr hown, rfl⟩

variable (frame_type) in
theorem UeVars.Uplink.format {out : Nat → BitVec 8} (h : ue.Uplink dci)
    (hbit : bitAt out 0 = bitAt (dciFlip dci.dci_pdu dci.dci_length) 0) :
    (ue.firstSearch frame_type).wants dci.rnti ∧
      (ue.firstSearch frame_type).format dci.rnti out = .format0 := by
  obtain ⟨hown, hsi, hra, hfirst⟩ := h
  have hzero : ¬ out 0 &&& 0x80 ≠ 0 := by
    rw [firstBit_eq, hbit, hfirst]
    decide
  refine ⟨Or.inr hown, ?_⟩
  rw [SearchParms.format]
  split
  · rename_i h
    exact absurd h hsi
  split
  · rename_i _ h
    exact absurd h hra
  · exact if_neg fun h => hzero h.2

variable {st : SearchState} {dcis : List DciAlloc}

theorem Procedure.delivers (hproc : Procedure ue nCCE frame_type e_rx st dcis)
    (hcarries : Carries e dci total c) (htotal : total ≤ nCCE)
    (hsign : ∀ k < 72 * total, 0 < bitSign (e k) * (e_rx k).toInt) (hL : 2 ≤ dci.L)
    (hlength : dci.dci_length = (format1ASize frame_type).bits) (hdownlink : ue.Downlink dci) :
    ∃ j < st.dci_cnt, ReportedAs dci (st.dci_alloc j) := by
  have hsize := UeVars.format1ASize_bits frame_type
  obtain ⟨k, hk, hall⟩ := hcarries.firstSearch ue htotal hsign hL hlength
  obtain ⟨reported, hreported, hfound⟩ := hproc.complete k hk fun out hout => by
    obtain ⟨hbits, hrnti⟩ := hall out hout
    obtain ⟨hwanted, hformat⟩ := hdownlink.format frame_type (hbits 0 (by omega))
    rw [hrnti, hformat]
    exact ⟨hwanted, fun hone => hone.2.2 ⟨rfl, rfl⟩⟩
  obtain ⟨out, dci_pdu, hout, hrnti', hpdu, hformat'⟩ := hfound.decoded
  obtain ⟨hbits, hrnti⟩ := hall out hout
  have hsame : reported.rnti = dci.rnti := hrnti'.symm.trans hrnti
  rw [hproc.alloc] at hreported
  obtain ⟨j, hj, rfl⟩ := List.mem_map.mp hreported
  refine ⟨j, List.mem_range.mp hj, hsame, hfound.length.trans hlength.symm, ?_, ?_⟩
  · rw [hformat', hsame]
    exact (hdownlink.format frame_type (hbits 0 (by omega))).2
  · intro p hp
    have hbytes : (ue.firstSearch frame_type).sizeof_bytes = 4 := UeVars.format1ASize_bytes frame_type
    rw [hpdu, hbytes, hfound.length.trans hlength.symm, bitAt_dciFlip_storePdu (by omega) out dci_pdu hp]
    exact hbits p hp

theorem Procedure.grants (hproc : Procedure ue nCCE frame_type e_rx st dcis)
    (hcarries : Carries e dci total c) (htotal : total ≤ nCCE)
    (hsign : ∀ k < 72 * total, 0 < bitSign (e k) * (e_rx k).toInt) (hL : 2 ≤ dci.L)
    (hlength : dci.dci_length = (format1ASize frame_type).bits) (huplink : ue.Uplink dci) :
    ∃ j < st.dci_cnt, (st.dci_alloc j).rnti = ue.crnti ∧ (st.dci_alloc j).format = .format0 := by
  have hsize := UeVars.format1ASize_bits frame_type
  obtain ⟨k, hk, hall⟩ := hcarries.firstSearch ue htotal hsign hL hlength
  have hfound := hproc.granted k hk fun out hout => by
    obtain ⟨hbits, hrnti⟩ := hall out hout
    obtain ⟨hwanted, hformat⟩ := huplink.format frame_type (hbits 0 (by omega))
    rw [hrnti, hformat]
    exact ⟨hwanted, huplink.2.1, huplink.2.2.1, fun h => by cases h.2⟩
  have hcount := hproc.uplink
  rw [hfound, Bool.toNat_true] at hcount
  obtain ⟨reported, hreported, hown⟩ := List.countP_pos_iff.mp (hcount ▸ Nat.one_pos)
  obtain ⟨hsi, hra, hformat⟩ := of_decide_eq_true hown
  obtain ⟨call, hcall, k, -, hplace⟩ := hproc.reported reported hreported
  have hrnti := ((ue.searches_searches frame_type hcall).wants hplace.wanted).resolve_left hsi
  rw [hproc.alloc] at hreported
  obtain ⟨j, hj, rfl⟩ := List.mem_map.mp hreported
  exact ⟨j, List.mem_range.mp hj, hrnti.resolve_left hra, hformat⟩

end Reported

/-- An illegal number of symbols gives more CCEs than can be counted. -/
theorem legal_of_getNCCE {n_symbols : Nat} {frame_parms : PdcchParms} {mi : BitVec 8}
    (h : 6 * getNCCE n_symbols frame_parms mi < 256) : 0 < n_symbols ∧ n_symbols < 4 := by
  by_contra hillegal
  have hnreg : nreg n_symbols frame_parms.N_RB_DL.toNat = some 0 := if_neg hillegal
  have hNquad : (getNquad n_symbols frame_parms mi).toNat =
      65532 - 3 * (ngroupPhich frame_parms mi).toNat := by
    rw [getNquad, hnreg]
    generalize ngroupPhich frame_parms mi = Ngroup_PHICH
    show (BitVec.ofNat 16 0 - 4 - 3 * Ngroup_PHICH.setWidth 16).toNat = _
    bv_omega
  have hgroups := (ngroupPhich frame_parms mi).isLt
  rw [getNCCE, hNquad] at h
  omega

/-- The DCIs of a subframe, from the base station to a terminal whose channel keeps the signs, but for a
few of the format indicator. The terminal counts the CCEs of subframe 0, which must be enough for the DCIs
too. -/
theorem controlChannel_roundTrip {num_dci : Nat} {dci_alloc : Nat → DciAlloc} {amp : BitVec 16}
    {frame_parms : PdcchParms} {subframe : BitVec 8} {n_symbols : Nat}
    (hsubframe : subframe.toNat < 10)
    (hfits : ∀ i < num_dci, Fits (dci_alloc i).dci_length (dci_alloc i).L) (hamp : 2 ≤ amp.toInt)
    (hn_symbols : getNumPdcchSymbols num_dci dci_alloc frame_parms subframe = n_symbols)
    (hquads : 4 * (getNquad n_symbols frame_parms (getMi frame_parms subframe)).toNat ≤ Msymb)
    (hroom : numCCE dci_alloc num_dci ≤ getNCCE n_symbols frame_parms (getMi frame_parms subframe))
    (hroom0 : numCCE dci_alloc num_dci ≤ getNCCE n_symbols frame_parms (getMi frame_parms 0))
    (hnCCE : 6 * getNCCE n_symbols frame_parms (getMi frame_parms 0) < 256) (x1 x1' : BitVec 32)
    (pcfich_bt : Nat → BitVec 8) (buffers : TopBuffers) :
    ∃ wbar, generateDciTop num_dci dci_alloc amp frame_parms subframe x1 buffers = some wbar ∧
      ∀ (ue : UeVars) (rxPcfichF rxF : Nat → BitVec 16 × BitVec 16) (rx_buffers : RxBuffers)
        (st : SearchState) (m : Int),
        FewWrong (generatePcfich n_symbols amp frame_parms subframe x1' pcfich_bt)
          (pcfichDemapping frame_parms rxPcfichF) m →
        (∀ n < 4 * (getNquad n_symbols frame_parms (getMi frame_parms subframe)).toNat,
          KeepsSigns (wbar n) (rxF n)) →
        ∃ st', receiveDcis ue frame_parms subframe rxPcfichF rxF rx_buffers st = some st' ∧
          ∀ i < num_dci, 2 ≤ (dci_alloc i).L →
            (dci_alloc i).dci_length = (format1ASize frame_parms.frame_type).bits →
            (ue.Downlink (dci_alloc i) →
              ∃ j < st'.dci_cnt, ReportedAs (dci_alloc i) (st'.dci_alloc j)) ∧
            (ue.Uplink (dci_alloc i) → ∃ j < st'.dci_cnt,
              (st'.dci_alloc j).rnti = ue.crnti ∧ (st'.dci_alloc j).format = .format0) := by
  obtain ⟨e, wbar, hrun, hcarries, hreceived⟩ := generateDciTop_spec hfits hamp hn_symbols hquads hroom x1
    buffers
  refine ⟨wbar, hrun, ?_⟩
  intro ue rxPcfichF rxF rx_buffers st m hformat hchannel
  have hdetected := rxPcfich_eq hsubframe (legal_of_getNCCE hnCCE) hamp x1' rx_buffers.x1_pcfich
    pcfich_bt rxPcfichF hformat
  obtain ⟨e_rx, hrx, hsign⟩ := hreceived rxF rx_buffers.x1 rx_buffers.z rx_buffers.wtemp_rx hchannel
  obtain ⟨st', dcis, hrun', hproc⟩ := dciDecodingProcedure_spec ue frame_parms n_symbols hnCCE e_rx
    rx_buffers.decoder st
  refine ⟨st', ?_, ?_⟩
  · simp only [receiveDcis, hdetected, hrx, hrun', Option.bind_eq_bind, Option.bind_some]
  · intro i hi hL hlength
    obtain ⟨c, hc⟩ := hcarries i hi
    exact ⟨hproc.delivers hc hroom0 hsign hL hlength, hproc.grants hc hroom0 hsign hL hlength⟩

def twoDcis (i : Nat) : DciAlloc where
  dci_length := 27
  L := 2 + i
  rnti := if i = 0 then SI_RNTI else 0x1234
  format := .format1A
  dci_pdu := fun _ => 0xa5

def TopBuffers.start : TopBuffers where
  e := fun _ => 0
  d := fun _ _ => 0
  w := fun _ _ => 0
  y := fun _ => (0, 0)
  wtemp := fun _ => (0, 0)
  wbar := fun _ => (0, 0)

theorem controlChannel_roundTrip_two_dcis :
    ∃ wbar, generateDciTop 2 twoDcis 512 pdcch5MHz 7 0 TopBuffers.start = some wbar ∧
      ∀ (ue : UeVars) (rxPcfichF rxF : Nat → BitVec 16 × BitVec 16) (rx_buffers : RxBuffers)
        (st : SearchState) (m : Int),
        FewWrong (generatePcfich 2 512 pdcch5MHz 7 0 fun _ => 0) (pcfichDemapping pdcch5MHz rxPcfichF) m →
        (∀ n < 4 * (getNquad 2 pdcch5MHz (getMi pdcch5MHz 7)).toNat, KeepsSigns (wbar n) (rxF n)) →
        ∃ st', receiveDcis ue pdcch5MHz 7 rxPcfichF rxF rx_buffers st = some st' ∧
          (∃ j < st'.dci_cnt, ReportedAs (twoDcis 0) (st'.dci_alloc j)) ∧
          (ue.crnti = 0x1234 → ∃ j < st'.dci_cnt, ReportedAs (twoDcis 1) (st'.dci_alloc j)) := by
  have hfits : ∀ i < 2, Fits (twoDcis i).dci_length (twoDcis i).L := by
    intro i hi
    interval_cases i
    · exact ⟨⟨by decide, by decide⟩, by decide⟩
    · exact ⟨⟨by decide, by decide⟩, by decide⟩
  have hn_symbols : getNumPdcchSymbols 2 twoDcis pdcch5MHz 7 = 2 := by decide
  have hamp : 2 ≤ (512 : BitVec 16).toInt := by decide
  obtain ⟨wbar, hrun, hreceived⟩ := controlChannel_roundTrip (by decide) hfits hamp hn_symbols
    (by decide) (by decide) (by decide) (by decide) 0 0 (fun _ => 0) TopBuffers.start
  refine ⟨wbar, hrun, ?_⟩
  intro ue rxPcfichF rxF rx_buffers st m hformat hchannel
  obtain ⟨st', hrun', hreported⟩ := hreceived ue rxPcfichF rxF rx_buffers st m hformat hchannel
  refine ⟨st', hrun', ?_, ?_⟩
  · exact (hreported 0 (by decide) (by decide) rfl).1 (Or.inl rfl)
  · intro hcrnti
    exact (hreported 1 (by decide) (by decide) rfl).1 (Or.inr (Or.inr ⟨hcrnti.symm, by decide⟩))

end PdmaXen.Lte
