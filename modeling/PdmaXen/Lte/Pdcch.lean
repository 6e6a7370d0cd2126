import PdmaXen.Lte.Dci
import PdmaXen.Lte.Scrambling
import PdmaXen.Lte.SegmentBuffers

/-!
# The physical downlink control channel

`dci.cpp`: how the DCIs of a subframe are put one after the other, scrambled and interleaved, and
how a terminal gets them back and searches them for its own.
-/

namespace PdmaXen.Lte
set_option autoImplicit false

open Scatter

/-! ## The interleaver -/

def Msymb : Nat := 756

def bitrev_cc_dci : List Nat :=
  [1, 17, 9, 25, 5, 21, 13, 29, 3, 19, 11, 27, 7, 23, 15, 31, 0, 16, 8, 24, 4, 20, 12, 28, 2, 18,
   10, 26, 6, 22, 14, 30]

section Interleaver
variable {α σ : Type}

def copyQuad (src : Nat → α) (i : Nat) (dst : Nat → α) (j : Nat) : Nat → α :=
  (List.range 4).foldl (fun dst s => Function.update dst (4 * j + s) (src (4 * i + s))) dst

/-- The loops over the columns and the rows: `body k m` for the quadruplet `m` that comes in turn
`k`. -/
def quadLoop (Mquad : Nat) (body : Nat → Nat → σ → σ) (s : σ) : σ :=
  ((List.range 32).foldl (fun st col => (List.range (rowCount Mquad)).foldl (fun (st : Nat × σ) row =>
    let index := bitrev_cc_dci.getD col 0 + 32 * row
    if dummyCount Mquad ≤ index then (st.1 + 1, body st.1 (index - dummyCount Mquad) st.2) else st) st)
    (0, s)).2

def interleaveQuads (Nid_cell Mquad : Nat) (z wtemp wbar : Nat → α) : Nat → α :=
  let wtemp := quadLoop Mquad (fun k m wtemp => copyQuad z m wtemp k) wtemp
  (List.range Mquad).foldl (fun wbar i => copyQuad wtemp i wbar ((i + Nid_cell) % Mquad)) wbar

/-- For one antenna. The row `wtemp[0]` has `Msymb` cells, and quadruplets beyond them are stored past its
end. -/
def pdcchInterleaving (Nid_cell Mquad : Nat) (z wtemp wbar : Nat → α) : Option (Nat → α) :=
  if 4 * Mquad ≤ Msymb then some (interleaveQuads Nid_cell Mquad z wtemp wbar) else none

def deinterleaveQuads (Nid_cell Mquad : Nat) (z wtemp_rx wbar : Nat → α) : Nat → α :=
  let wtemp_rx := (List.range Mquad).foldl
    (fun wtemp_rx i => copyQuad wbar ((i + Nid_cell) % Mquad) wtemp_rx i) wtemp_rx
  quadLoop Mquad (fun k m z => copyQuad wtemp_rx k z m) z

/-- `wtemp_rx` has `Msymb` cells too. -/
def pdcchDeinterleaving (Nid_cell Mquad : Nat) (z wtemp_rx wbar : Nat → α) : Option (Nat → α) :=
  if 4 * Mquad ≤ Msymb then some (deinterleaveQuads Nid_cell Mquad z wtemp_rx wbar) else none

theorem copyQuad_stores (src : Nat → α) (i j : Nat) {P : Nat → α → Prop}
    (h : ∀ s < 4, P (4 * j + s) (src (4 * i + s))) :
    StoresAt (fun dst => copyQuad src i dst j) (fun a => a / 4 = j) P := by
  have hstores := StoresAt.foldl (l := List.range 4) fun s hs =>
    StoresAt.update (h s (List.mem_range.mp hs))
  refine hstores.congr ?_
  intro a
  constructor
  · intro ha
    exact ⟨a % 4, List.mem_range.mpr (by omega), by omega⟩
  · rintro ⟨s, hs, heq⟩
    have hlt := List.mem_range.mp hs
    omega

/-- The quadruplets in the order of their turns. -/
def quadOrder (Mquad : Nat) : List Nat :=
  ((List.range 32).flatMap fun col => (List.range (rowCount Mquad)).map fun row =>
    bitrev_cc_dci.getD col 0 + 32 * row).filter fun index => dummyCount Mquad ≤ index

def quadAt (Mquad k : Nat) : Nat := (quadOrder Mquad).getD k 0 - dummyCount Mquad

theorem quadLoop_eq (Mquad : Nat) (body : Nat → Nat → σ → σ) (s : σ) :
    quadLoop Mquad body s = (List.range (quadOrder Mquad).length).foldl
      (fun s k => body k (quadAt Mquad k) s) s := by
  have hcounted := foldl_counted (fun index => decide (dummyCount Mquad ≤ index))
    (fun k index s => body k (index - dummyCount Mquad) s) 0 ((List.range 32).flatMap fun col =>
      (List.range (rowCount Mquad)).map fun row => bitrev_cc_dci.getD col 0 + 32 * row) s
  have hloops : quadLoop Mquad body s = (((List.range 32).flatMap fun col =>
      (List.range (rowCount Mquad)).map fun row => bitrev_cc_dci.getD col 0 + 32 * row).foldl
        (fun (st : Nat × σ) x => if decide (dummyCount Mquad ≤ x) = true then
          (st.1 + 1, body st.1 (x - dummyCount Mquad) st.2) else st) (0, s)).2 := by
    simp only [List.foldl_flatMap, List.foldl_map, decide_eq_true_eq]
    rfl
  rw [hloops, hcounted]
  rfl

theorem bitrev_cc_dci_surj : ∀ b < 32, ∃ col < 32, bitrev_cc_dci.getD col 0 = b := by
  decide

theorem bitrev_cc_dci_lt : ∀ col < 32, bitrev_cc_dci.getD col 0 < 32 := by
  decide

theorem bitrev_cc_dci_inj : ∀ col < 32, ∀ col' < 32,
    bitrev_cc_dci.getD col 0 = bitrev_cc_dci.getD col' 0 → col = col' := by
  decide

theorem nodup_quadOrder (Mquad : Nat) : (quadOrder Mquad).Nodup := by
  apply List.Nodup.filter
  rw [List.nodup_flatMap]
  constructor
  · intro col _
    apply List.Nodup.map _ List.nodup_range
    intro row row' h
    simp only at h
    omega
  · apply List.nodup_range.pairwise_of_forall_ne
    intro col hcol col' hcol' hne x hx hx'
    obtain ⟨row, -, rfl⟩ := List.mem_map.mp hx
    obtain ⟨row', -, heq⟩ := List.mem_map.mp hx'
    have hlt := bitrev_cc_dci_lt col (List.mem_range.mp hcol)
    have hlt' := bitrev_cc_dci_lt col' (List.mem_range.mp hcol')
    exact hne (bitrev_cc_dci_inj col (List.mem_range.mp hcol) col' (List.mem_range.mp hcol') (by omega))

theorem mem_quadOrder {Mquad x : Nat} :
    x ∈ quadOrder Mquad ↔ dummyCount Mquad ≤ x ∧ x < cellCount Mquad := by
  have hcells : cellCount Mquad = rowCount Mquad * 32 := rfl
  rw [quadOrder, List.mem_filter, decide_eq_true_iff, and_comm]
  apply and_congr_right
  intro _
  constructor
  · intro hx
    obtain ⟨col, hcol, hx⟩ := List.mem_flatMap.mp hx
    obtain ⟨row, hrow, rfl⟩ := List.mem_map.mp hx
    have hlt := bitrev_cc_dci_lt col (List.mem_range.mp hcol)
    have hlt' := List.mem_range.mp hrow
    omega
  · intro hx
    obtain ⟨col, hcol, hbit⟩ := bitrev_cc_dci_surj (x % 32) (Nat.mod_lt _ (by omega))
    exact List.mem_flatMap.mpr ⟨col, List.mem_range.mpr hcol, List.mem_map.mpr
      ⟨x / 32, List.mem_range.mpr (by omega), by omega⟩⟩

theorem exists_quadAt {Mquad m : Nat} (hm : m < Mquad) :
    ∃ k < (quadOrder Mquad).length, quadAt Mquad k = m := by
  have hadd := dummyCount_add Mquad
  have hmem : m + dummyCount Mquad ∈ quadOrder Mquad := mem_quadOrder.mpr (by omega)
  obtain ⟨k, hk, hget⟩ := List.mem_iff_getElem.mp hmem
  refine ⟨k, hk, ?_⟩
  rw [quadAt, List.getD_eq_getElem _ _ hk, hget]
  omega

theorem quadAt_lt {Mquad k : Nat} (hk : k < (quadOrder Mquad).length) : quadAt Mquad k < Mquad := by
  have hadd := dummyCount_add Mquad
  have hmem := mem_quadOrder.mp (List.getElem_mem hk)
  rw [quadAt, List.getD_eq_getElem _ _ hk]
  omega

theorem length_quadOrder (Mquad : Nat) : (quadOrder Mquad).length = Mquad := by
  have hadd := dummyCount_add Mquad
  have hperm : (quadOrder Mquad).Perm (List.range' (dummyCount Mquad) Mquad) := by
    apply (List.perm_ext_iff_of_nodup (nodup_quadOrder Mquad) (List.nodup_range' _)).mpr
    intro x
    rw [mem_quadOrder, List.mem_range'_1]
    omega
  rw [hperm.length_eq, List.length_range']

theorem mod_add_inj {M N i i' : Nat} (hi : i < M) (hi' : i' < M) (h : (i + N) % M = (i' + N) % M) :
    i = i' := by
  have hmod : i ≡ i' [MOD M] := Nat.ModEq.add_right_cancel' N h
  rwa [Nat.ModEq, Nat.mod_eq_of_lt hi, Nat.mod_eq_of_lt hi'] at hmod

/-- What is sent in the place of turn `k` is the quadruplet of this turn. -/
theorem interleaveQuads_cell (Nid_cell : Nat) {Mquad k s : Nat} (z wtemp wbar : Nat → α)
    (hk : k < Mquad) (hs : s < 4) :
    interleaveQuads Nid_cell Mquad z wtemp wbar (4 * ((k + Nid_cell) % Mquad) + s) =
      z (4 * quadAt Mquad k + s) := by
  have hfirst := StoresAt.foldl (P := fun a v => v = z (4 * quadAt Mquad (a / 4) + a % 4))
    (l := List.range (quadOrder Mquad).length) fun k _ =>
      copyQuad_stores z (quadAt Mquad k) k (by
        intro s hs
        have hdiv : (4 * k + s) / 4 = k := by omega
        have hmod : (4 * k + s) % 4 = s := by omega
        rw [hdiv, hmod])
  have htemp : quadLoop Mquad (fun k m wtemp => copyQuad z m wtemp k) wtemp (4 * k + s) =
      z (4 * quadAt Mquad k + s) := by
    have hdiv : (4 * k + s) / 4 = k := by omega
    have hmod : (4 * k + s) % 4 = s := by omega
    rw [quadLoop_eq]
    have hcell := (hfirst wtemp (4 * k + s)).1
      ⟨k, List.mem_range.mpr (by rw [length_quadOrder]; exact hk), hdiv⟩
    simp only [hdiv, hmod] at hcell
    exact hcell
  rw [interleaveQuads]
  generalize quadLoop Mquad (fun k m wtemp => copyQuad z m wtemp k) wtemp = temp at htemp ⊢
  have hsecond := StoresAt.foldl
    (P := fun a v => ∀ i < Mquad, (i + Nid_cell) % Mquad = a / 4 → v = temp (4 * i + a % 4))
    (l := List.range Mquad) fun i hi =>
      copyQuad_stores temp i ((i + Nid_cell) % Mquad) (by
        intro s hs i' hi' hsame
        have hdiv : (4 * ((i + Nid_cell) % Mquad) + s) / 4 = (i + Nid_cell) % Mquad := by omega
        have hmod : (4 * ((i + Nid_cell) % Mquad) + s) % 4 = s := by omega
        rw [hdiv] at hsame
        rw [hmod, mod_add_inj hi' (List.mem_range.mp hi) hsame])
  have hdiv : (4 * ((k + Nid_cell) % Mquad) + s) / 4 = (k + Nid_cell) % Mquad := by omega
  have hmod : (4 * ((k + Nid_cell) % Mquad) + s) % 4 = s := by omega
  have hcell := (hsecond wbar (4 * ((k + Nid_cell) % Mquad) + s)).1 ⟨k, List.mem_range.mpr hk, hdiv⟩ k hk
    hdiv.symm
  rw [hmod, htemp] at hcell
  exact hcell

/-- What is received in the place of a turn goes back to the quadruplet of this turn. -/
theorem deinterleaveQuads_cell (Nid_cell : Nat) {Mquad n : Nat} (z wtemp_rx wbar : Nat → α)
    (hn : n < 4 * Mquad) : ∃ k < Mquad, quadAt Mquad k = n / 4 ∧
      deinterleaveQuads Nid_cell Mquad z wtemp_rx wbar n =
        wbar (4 * ((k + Nid_cell) % Mquad) + n % 4) := by
  have hfirst := StoresAt.foldl
    (P := fun a v => v = wbar (4 * ((a / 4 + Nid_cell) % Mquad) + a % 4)) (l := List.range Mquad)
    fun i _ => copyQuad_stores wbar ((i + Nid_cell) % Mquad) i (by
      intro s hs
      have hdiv : (4 * i + s) / 4 = i := by omega
      have hmod : (4 * i + s) % 4 = s := by omega
      rw [hdiv, hmod])
  have htemp : ∀ k < Mquad, ∀ s < 4, (List.range Mquad).foldl
      (fun wtemp_rx i => copyQuad wbar ((i + Nid_cell) % Mquad) wtemp_rx i) wtemp_rx (4 * k + s) =
        wbar (4 * ((k + Nid_cell) % Mquad) + s) := by
    intro k hk s hs
    have hdiv : (4 * k + s) / 4 = k := by omega
    have hmod : (4 * k + s) % 4 = s := by omega
    have hcell := (hfirst wtemp_rx (4 * k + s)).1 ⟨k, List.mem_range.mpr hk, hdiv⟩
    simp only [hdiv, hmod] at hcell
    exact hcell
  rw [deinterleaveQuads]
  generalize (List.range Mquad).foldl
    (fun wtemp_rx i => copyQuad wbar ((i + Nid_cell) % Mquad) wtemp_rx i) wtemp_rx = temp at htemp ⊢
  have hsecond := StoresAt.foldl
    (P := fun a v => ∃ k < Mquad, quadAt Mquad k = a / 4 ∧ v = temp (4 * k + a % 4))
    (l := List.range (quadOrder Mquad).length) fun k hk =>
      copyQuad_stores temp k (quadAt Mquad k) (by
        intro s hs
        have hdiv : (4 * quadAt Mquad k + s) / 4 = quadAt Mquad k := by omega
        have hmod : (4 * quadAt Mquad k + s) % 4 = s := by omega
        have hlt := List.mem_range.mp hk
        rw [length_quadOrder] at hlt
        rw [hdiv, hmod]
        exact ⟨k, hlt, rfl, rfl⟩)
  obtain ⟨k₀, hk₀, hquad⟩ := @exists_quadAt Mquad (n / 4) (by omega)
  obtain ⟨k, hk, hplace, hcell⟩ := (hsecond z n).1 ⟨k₀, List.mem_range.mpr hk₀, hquad.symm⟩
  refine ⟨k, hk, hplace, ?_⟩
  rw [quadLoop_eq]
  exact hcell.trans (htemp k hk (n % 4) (Nat.mod_lt n (by omega)))

end Interleaver

theorem channel_deinterleaved {α β : Type} {channel : α → β → Prop} (Nid_cell Mquad : Nat)
    (z wtemp wbar : Nat → α) (z' wtemp_rx wbar' : Nat → β)
    (hchannel : ∀ n < 4 * Mquad, channel (interleaveQuads Nid_cell Mquad z wtemp wbar n) (wbar' n))
    {n : Nat} (hn : n < 4 * Mquad) :
    channel (z n) (deinterleaveQuads Nid_cell Mquad z' wtemp_rx wbar' n) := by
  obtain ⟨k, hk, hquad, hcell⟩ := deinterleaveQuads_cell Nid_cell z' wtemp_rx wbar' hn
  have hlt : n % 4 < 4 := Nat.mod_lt n (by omega)
  have hsent := interleaveQuads_cell Nid_cell z wtemp wbar hk hlt
  have hplace : 4 * ((k + Nid_cell) % Mquad) + n % 4 < 4 * Mquad := by
    have hmod := Nat.mod_lt (k + Nid_cell) (by omega : 0 < Mquad)
    omega
  have harrived := hchannel _ hplace
  rw [hsent, hquad, Nat.div_add_mod] at harrived
  rw [hcell]
  exact harrived

theorem interleaveQuads_frame {α : Type} (Nid_cell : Nat) {Mquad n : Nat} (z wtemp wbar : Nat → α)
    (hn : 4 * Mquad ≤ n) : interleaveQuads Nid_cell Mquad z wtemp wbar n = wbar n := by
  have hstores := StoresAt.foldl (P := fun _ _ => True) (l := List.range Mquad) fun i _ =>
    copyQuad_stores (quadLoop Mquad (fun k m wtemp => copyQuad z m wtemp k) wtemp) i
      ((i + Nid_cell) % Mquad) fun _ _ => trivial
  apply (hstores wbar n).2
  rintro ⟨i, hi, hplace⟩
  have hpos : 0 < Mquad := by
    have hlt := List.mem_range.mp hi
    omega
  have hmod := Nat.mod_lt (i + Nid_cell) hpos
  omega

theorem deinterleaveQuads_frame {α : Type} (Nid_cell : Nat) {Mquad n : Nat} (z wtemp_rx wbar : Nat → α)
    (hn : 4 * Mquad ≤ n) : deinterleaveQuads Nid_cell Mquad z wtemp_rx wbar n = z n := by
  have hstores := StoresAt.foldl (P := fun _ _ => True) (l := List.range (quadOrder Mquad).length)
    fun k _ => copyQuad_stores ((List.range Mquad).foldl
      (fun wtemp_rx i => copyQuad wbar ((i + Nid_cell) % Mquad) wtemp_rx i) wtemp_rx) k
        (quadAt Mquad k) fun _ _ => trivial
  rw [deinterleaveQuads, quadLoop_eq]
  apply (hstores z n).2
  rintro ⟨k, hk, hplace⟩
  have hlt := quadAt_lt (List.mem_range.mp hk)
  omega

/-- Whatever the channel does to the symbols, it does to those that went into the interleaver, with
every cyclic shift of the cell. -/
theorem pdcch_interleaving_roundTrip {α β : Type} {channel : α → β → Prop} (Nid_cell Mquad : Nat)
    (z wtemp wbar : Nat → α) (z' wtemp_rx : Nat → β) :
    (4 * Mquad ≤ Msymb → ∃ sent, pdcchInterleaving Nid_cell Mquad z wtemp wbar = some sent ∧
      (∀ n, 4 * Mquad ≤ n → sent n = wbar n) ∧
      ∀ wbar', (∀ n < 4 * Mquad, channel (sent n) (wbar' n)) →
        ∃ received, pdcchDeinterleaving Nid_cell Mquad z' wtemp_rx wbar' = some received ∧
          (∀ n < 4 * Mquad, channel (z n) (received n)) ∧
          ∀ n, 4 * Mquad ≤ n → received n = z' n) ∧
    (Msymb < 4 * Mquad → pdcchInterleaving Nid_cell Mquad z wtemp wbar = none ∧
      ∀ wbar', pdcchDeinterleaving Nid_cell Mquad z' wtemp_rx wbar' = none) := by
  constructor
  · intro hroom
    refine ⟨_, if_pos hroom, fun n hn => interleaveQuads_frame Nid_cell z wtemp wbar hn, ?_⟩
    intro wbar' hchannel
    refine ⟨_, if_pos hroom, ?_, fun n hn => deinterleaveQuads_frame Nid_cell z' wtemp_rx wbar' hn⟩
    intro n hn
    exact channel_deinterleaved Nid_cell Mquad z wtemp wbar z' wtemp_rx wbar' hchannel hn
  · intro hroom
    exact ⟨if_neg (by omega), fun _ => if_neg (by omega)⟩

theorem pdcch_interleaving_roundTrip_43_quadruplets : ∃ sent received,
    pdcchInterleaving 10 43 (fun n => n) (fun _ => 0) (fun _ => 7) = some sent ∧
      pdcchDeinterleaving 10 43 (fun _ => 0) (fun _ => 0) sent = some received ∧
        (∀ n < 4 * 43, n = received n) ∧ ∀ n, 4 * 43 ≤ n → sent n = 7 ∧ received n = 0 := by
  obtain ⟨sent, hsent, hframe, hreceived⟩ := (@pdcch_interleaving_roundTrip Nat Nat (fun a b => a = b) 10
    43 (fun n => n) (fun _ => 0) (fun _ => 7) (fun _ => 0) (fun _ => 0)).1 (by decide)
  obtain ⟨received, hback, hsame, hframe'⟩ := hreceived sent fun _ _ => rfl
  exact ⟨sent, received, hsent, hback, hsame, fun n hn => ⟨hframe n hn, hframe' n hn⟩⟩

/-! ## The DCIs of a subframe -/

inductive DciFormat where
  | format0
  | format1
  | format1A
  | format1A_RA
  | format1B
  | format1C
  | format1D
  | format1E_2A_M10PRB
  | format2_2A_L10PRB
  | format2_2A_M10PRB
  | format2_4A_L10PRB
  | format2_4A_M10PRB
  | format2A_2A_L10PRB
  | format2A_2A_M10PRB
  | format2A_4A_L10PRB
  | format2A_4A_M10PRB
  | format3
  deriving DecidableEq, Repr

structure DciAlloc where
  dci_length : Nat
  L : Nat
  rnti : BitVec 16
  format : DciFormat
  dci_pdu : Nat → BitVec 8

def putDci (dci : DciAlloc) (d w : Nat → BitVec 8) (st : (Nat → BitVec 8) × Nat) :
    Option ((Nat → BitVec 8) × Nat) := do
  let (e, e_ptr) := st
  let bits ← generateDci0 dci.dci_pdu (fun k => e (e_ptr + k)) dci.dci_length dci.L dci.rnti d w
  return (placeAt e e_ptr bits, e_ptr + (codedDciBits dci.L).toNat)

/-- The loops of `generate_dci_top` over the levels and over the DCIs, the common ones first. The
contents of the static arrays before every call are given by `d` and `w`. -/
def putDcis (dci_alloc : Nat → DciAlloc) (num : Nat) (d w : Nat → Nat → BitVec 8) (e : Nat → BitVec 8) :
    Option ((Nat → BitVec 8) × Nat) :=
  [3, 2, 1, 0].foldlM (fun st L => (List.range num).foldlM (fun st i =>
    if (dci_alloc i).L = L then putDci (dci_alloc i) (d i) (w i) st else some st) st) (e, 0)

def cceSum (dci_alloc : Nat → DciAlloc) (l : List Nat) : Nat := (l.map fun i => 2 ^ (dci_alloc i).L).sum

/-- A DCI is in `e` from the CCE `c` on. -/
structure Carries (e : Nat → BitVec 8) (dci : DciAlloc) (total c : Nat) : Prop where
  aligned : 2 ^ dci.L ∣ c
  room : c + 2 ^ dci.L ≤ total
  decodable : ∀ L ≤ dci.L, Fits dci.dci_length L →
    Decodable dci.dci_length L (dciFlip dci.dci_pdu dci.dci_length) dci.rnti fun k => e (72 * c + k)

/-- The DCIs of a list have been put one after the other. -/
structure Placed (dci_alloc : Nat → DciAlloc) (e₀ : Nat → BitVec 8) (l : List Nat)
    (st : (Nat → BitVec 8) × Nat) : Prop where
  place : st.2 = 72 * cceSum dci_alloc l
  carries : ∀ i ∈ l, ∃ c, Carries st.1 (dci_alloc i) (cceSum dci_alloc l) c
  frame : ∀ k, st.2 ≤ k → st.1 k = e₀ k

theorem Decodable.congr {A L : Nat} {a : Nat → BitVec 8} {rnti : BitVec 16} {bits bits' : Nat → BitVec 8}
    (h : Decodable A L a rnti bits) (hbits : ∀ k < 72 * 2 ^ L, bits' k = bits k) :
    Decodable A L a rnti bits' := by
  intro soft decoded_output buffers hsign
  apply h soft decoded_output buffers
  intro k hk
  rw [← hbits k hk]
  exact hsign k hk

theorem cceSum_append_singleton (dci_alloc : Nat → DciAlloc) (l : List Nat) (i : Nat) :
    cceSum dci_alloc (l ++ [i]) = cceSum dci_alloc l + 2 ^ (dci_alloc i).L := by
  simp [cceSum]

theorem dvd_cceSum {dci_alloc : Nat → DciAlloc} {l : List Nat} {L : Nat}
    (h : ∀ j ∈ l, L ≤ (dci_alloc j).L) : 2 ^ L ∣ cceSum dci_alloc l := by
  apply List.dvd_sum
  intro x hx
  obtain ⟨j, hj, rfl⟩ := List.mem_map.mp hx
  exact Nat.pow_dvd_pow 2 (h j hj)

section Placing
variable {dci_alloc : Nat → DciAlloc} {e₀ : Nat → BitVec 8} {l : List Nat} {st : (Nat → BitVec 8) × Nat}

theorem Placed.put (h : Placed dci_alloc e₀ l st) {i : Nat}
    (hfits : Fits (dci_alloc i).dci_length (dci_alloc i).L)
    (hlevels : ∀ j ∈ l, (dci_alloc i).L ≤ (dci_alloc j).L) (d w : Nat → BitVec 8) :
    ∃ st', putDci (dci_alloc i) d w st = some st' ∧ Placed dci_alloc e₀ (l ++ [i]) st' := by
  obtain ⟨bits, hbits, hframe, hdecodable⟩ := generateDci0_spec hfits (dci_alloc i).dci_pdu
    (fun k => st.1 (st.2 + k)) d w (dci_alloc i).rnti
  have hplace := h.place
  have hsum := cceSum_append_singleton dci_alloc l i
  refine ⟨(placeAt st.1 st.2 bits, st.2 + (codedDciBits (dci_alloc i).L).toNat), ?_, ?_, ?_, ?_⟩
  · simp only [putDci, hbits, Option.bind_eq_bind, Option.bind_some, Option.pure_def]
  · simp only [hfits.bits.1]
    omega
  · intro j hj
    rcases List.mem_append.mp hj with hearlier | hlast
    · obtain ⟨c, hc⟩ := h.carries j hearlier
      have hroom := hc.room
      refine ⟨c, hc.aligned, hsum ▸ Nat.le_add_right_of_le hroom, fun L hle hL => (hc.decodable L hle hL).congr ?_⟩
      intro k hk
      have hfewer := Nat.pow_le_pow_right Nat.two_pos hle
      have hbefore : ¬ st.2 ≤ 72 * c + k := by omega
      exact if_neg hbefore
    · obtain rfl := List.mem_singleton.mp hlast
      refine ⟨cceSum dci_alloc l, dvd_cceSum hlevels, hsum.ge,
        fun L hle hL => (hdecodable L hle hL).congr ?_⟩
      intro k hk
      have hindex : 72 * cceSum dci_alloc l + k - st.2 = k := by omega
      simp only [placeAt]
      rw [if_pos (by omega), hindex]
  · intro k hk
    simp only [hfits.bits.1] at hk
    have hcell := hframe (k - st.2) (by omega)
    have hindex : st.2 + (k - st.2) = k := by omega
    rw [hindex] at hcell
    simp only [placeAt]
    rw [if_pos (by omega), hcell, h.frame k (by omega)]

theorem Placed.level (h : Placed dci_alloc e₀ l st) {L : Nat}
    (hlevels : ∀ j ∈ l, L ≤ (dci_alloc j).L) {num : Nat}
    (hfits : ∀ i < num, Fits (dci_alloc i).dci_length (dci_alloc i).L) (d w : Nat → Nat → BitVec 8) :
    ∃ st', (List.range num).foldlM (fun st i =>
        if (dci_alloc i).L = L then putDci (dci_alloc i) (d i) (w i) st else some st) st = some st' ∧
      Placed dci_alloc e₀ (l ++ (List.range num).filter fun i => (dci_alloc i).L = L) st' := by
  induction num with
  | zero =>
    refine ⟨st, rfl, ?_⟩
    rw [List.range_zero, List.filter_nil, List.append_nil]
    exact h
  | succ num ih =>
    obtain ⟨st', hrun, hplaced⟩ := ih fun i hi => hfits i (Nat.lt_succ_of_lt hi)
    rw [List.range_succ, List.foldlM_append, hrun, List.filter_append, Option.bind_eq_bind,
      Option.bind_some, List.foldlM_cons]
    by_cases hL : (dci_alloc num).L = L
    · rw [if_pos hL, List.filter_cons_of_pos (by simpa using hL), List.filter_nil, ← List.append_assoc]
      obtain ⟨st'', hput, hplaced'⟩ := hplaced.put (hfits num num.lt_succ_self) (by
        intro j hj
        rcases List.mem_append.mp hj with hearlier | hlevel
        · exact hL ▸ hlevels j hearlier
        · have hj' := (List.mem_filter.mp hlevel).2
          rw [decide_eq_true_iff] at hj'
          omega) (d num) (w num)
      refine ⟨st'', ?_, hplaced'⟩
      rw [hput]
      rfl
    · rw [if_neg hL, List.filter_cons_of_neg (by simpa using hL), List.filter_nil, List.append_nil]
      exact ⟨st', rfl, hplaced⟩

theorem Placed.levels (h : Placed dci_alloc e₀ l st) {levels : List Nat}
    (hsorted : levels.Pairwise fun L L' => L' < L)
    (hlevels : ∀ L ∈ levels, ∀ j ∈ l, L ≤ (dci_alloc j).L) {num : Nat}
    (hfits : ∀ i < num, Fits (dci_alloc i).dci_length (dci_alloc i).L) (d w : Nat → Nat → BitVec 8) :
    ∃ st', levels.foldlM (fun st L => (List.range num).foldlM (fun st i =>
        if (dci_alloc i).L = L then putDci (dci_alloc i) (d i) (w i) st else some st) st) st = some st' ∧
      Placed dci_alloc e₀ (l ++ levels.flatMap fun L => (List.range num).filter fun i =>
        (dci_alloc i).L = L) st' := by
  induction levels generalizing l st with
  | nil =>
    refine ⟨st, rfl, ?_⟩
    rw [List.flatMap_nil, List.append_nil]
    exact h
  | cons L levels ih =>
    obtain ⟨hlower, hsorted'⟩ := List.pairwise_cons.mp hsorted
    obtain ⟨st', hrun, hplaced⟩ := h.level (hlevels L List.mem_cons_self) hfits d w
    obtain ⟨st'', hrun', hplaced'⟩ := ih hplaced hsorted' (by
      intro L' hL' j hj
      rcases List.mem_append.mp hj with hearlier | hlevel
      · exact hlevels L' (List.mem_cons_of_mem L hL') j hearlier
      · have hj' := (List.mem_filter.mp hlevel).2
        rw [decide_eq_true_iff] at hj'
        exact hj' ▸ (hlower L' hL').le)
    refine ⟨st'', ?_, ?_⟩
    · rw [List.foldlM_cons, hrun]
      exact hrun'
    · rw [List.flatMap_cons, ← List.append_assoc]
      exact hplaced'

end Placing

def putOrder (dci_alloc : Nat → DciAlloc) (num : Nat) : List Nat :=
  [3, 2, 1, 0].flatMap fun L => (List.range num).filter fun i => (dci_alloc i).L = L

theorem mem_putOrder {dci_alloc : Nat → DciAlloc} {num i : Nat} :
    i ∈ putOrder dci_alloc num ↔ i < num ∧ (dci_alloc i).L ≤ 3 := by
  simp only [putOrder, List.mem_flatMap, List.mem_filter, List.mem_range, decide_eq_true_iff]
  constructor
  · rintro ⟨L, hL, hi, rfl⟩
    refine ⟨hi, ?_⟩
    simp only [List.mem_cons, List.not_mem_nil, or_false] at hL
    omega
  · rintro ⟨hi, hL⟩
    refine ⟨_, ?_, hi, rfl⟩
    simp only [List.mem_cons, List.not_mem_nil, or_false]
    omega

theorem putOrder_perm {dci_alloc : Nat → DciAlloc} {num : Nat} (h : ∀ i < num, (dci_alloc i).L ≤ 3) :
    (putOrder dci_alloc num).Perm (List.range num) := by
  have hnodup : (putOrder dci_alloc num).Nodup := by
    rw [putOrder, List.nodup_flatMap]
    constructor
    · intro L _
      exact List.nodup_range.filter _
    · apply List.Nodup.pairwise_of_forall_ne (by decide)
      intro L _ L' _ hne i hi hi'
      have hL := (List.mem_filter.mp hi).2
      have hL' := (List.mem_filter.mp hi').2
      rw [decide_eq_true_iff] at hL hL'
      exact hne (hL.symm.trans hL')
  rw [List.perm_ext_iff_of_nodup hnodup List.nodup_range]
  intro i
  rw [mem_putOrder, List.mem_range, and_iff_left_iff_imp]
  exact h i

def numCCE (dci_alloc : Nat → DciAlloc) (num : Nat) : Nat := cceSum dci_alloc (List.range num)

theorem putDcis_spec {dci_alloc : Nat → DciAlloc} {num : Nat}
    (hfits : ∀ i < num, Fits (dci_alloc i).dci_length (dci_alloc i).L) (d w : Nat → Nat → BitVec 8)
    (e : Nat → BitVec 8) :
    ∃ e', putDcis dci_alloc num d w e = some (e', 72 * numCCE dci_alloc num) ∧
      (∀ i < num, ∃ c, Carries e' (dci_alloc i) (numCCE dci_alloc num) c) ∧
        ∀ k, 72 * numCCE dci_alloc num ≤ k → e' k = e k := by
  have hstart : Placed dci_alloc e [] (e, 0) :=
    ⟨rfl, fun _ hi => absurd hi List.not_mem_nil, fun _ _ => rfl⟩
  have hsorted : [3, 2, 1, 0].Pairwise fun L L' : Nat => L' < L := by
    decide
  obtain ⟨st, hrun, hplaced⟩ := hstart.levels hsorted (fun _ _ _ hj => absurd hj List.not_mem_nil)
    hfits d w
  have hperm := putOrder_perm fun i hi => (hfits i hi).level
  have hsum : cceSum dci_alloc (putOrder dci_alloc num) = numCCE dci_alloc num :=
    (hperm.map _).sum_eq
  have hplaced' : Placed dci_alloc e (putOrder dci_alloc num) st := hplaced
  have hplace := hplaced'.place
  rw [hsum] at hplace
  refine ⟨st.1, ?_, ?_, ?_⟩
  · rw [← hplace]
    exact hrun
  · intro i hi
    have hcarries := hplaced'.carries i (hperm.mem_iff.mpr (List.mem_range.mpr hi))
    rw [hsum] at hcarries
    exact hcarries
  · intro k hk
    exact hplaced'.frame k (hplace ▸ hk)

/-! ## The resources -/

structure PdcchParms extends FrameParms where
  N_RB_DL : BitVec 8
  frame_type : BitVec 8
  tdd_config : BitVec 8
  nb_antennas_tx : BitVec 8
  phich_resource : Nat

def getMi (frame_parms : PdcchParms) (subframe : BitVec 8) : BitVec 8 :=
  match frame_parms.tdd_config.toNat with
  | 0 => if subframe = 0 ∨ subframe = 5 then 2 else 1
  | 1 => if subframe = 0 ∨ subframe = 5 then 0 else 1
  | 2 => if subframe = 3 ∨ subframe = 8 then 1 else 0
  | 3 => if subframe = 0 ∨ subframe = 8 ∨ subframe = 9 then 1 else 0
  | _ => 0

def ngroupPhich (frame_parms : PdcchParms) (mi : BitVec 8) : BitVec 8 :=
  let Ngroup_PHICH := BitVec.ofNat 8 (frame_parms.phich_resource * (frame_parms.N_RB_DL.toNat / 48))
  let Ngroup_PHICH :=
    if 0 < frame_parms.phich_resource * frame_parms.N_RB_DL.toNat % 48 then Ngroup_PHICH + 1
    else Ngroup_PHICH
  let Ngroup_PHICH := if frame_parms.Ncp = 1 then Ngroup_PHICH <<< 1 else Ngroup_PHICH
  Ngroup_PHICH * mi

/-- Nothing for an unknown bandwidth, and none of the resources for an illegal number of symbols. -/
def nreg (num_pdcch_symbols N_RB_DL : Nat) : Option Nat :=
  if 0 < num_pdcch_symbols ∧ num_pdcch_symbols < 4 then
    match N_RB_DL with
    | 6 => some (12 + (num_pdcch_symbols - 1) * 18)
    | 25 => some (50 + (num_pdcch_symbols - 1) * 75)
    | 50 => some (100 + (num_pdcch_symbols - 1) * 150)
    | 100 => some (200 + (num_pdcch_symbols - 1) * 300)
    | _ => none
  else some 0

def getNquad (num_pdcch_symbols : Nat) (frame_parms : PdcchParms) (mi : BitVec 8) : BitVec 16 :=
  match nreg num_pdcch_symbols frame_parms.N_RB_DL.toNat with
  | some Nreg => BitVec.ofNat 16 Nreg - 4 - 3 * (ngroupPhich frame_parms mi).setWidth 16
  | none => 0

def getNCCE (num_pdcch_symbols : Nat) (frame_parms : PdcchParms) (mi : BitVec 8) : Nat :=
  (getNquad num_pdcch_symbols frame_parms mi).toNat / 9

def getNumPdcchSymbols (num_dci : Nat) (dci_alloc : Nat → DciAlloc) (frame_parms : PdcchParms)
    (subframe : BitVec 8) : Nat :=
  let nCCEmin :=
    if frame_parms.Ncp = 1 then
      if frame_parms.frame_type = 1 ∧
          (frame_parms.tdd_config.toNat < 3 ∨ frame_parms.tdd_config = 6) ∧
          (subframe = 1 ∨ subframe = 6) then 2
      else 3
    else 0
  let numCCE := numCCE dci_alloc num_dci % 65536
  let N_RB_DL := frame_parms.N_RB_DL.toNat
  let four := frame_parms.nb_antennas_tx = 4
  if 9 * numCCE ≤ N_RB_DL * 2 then max 1 nCCEmin
  else if 9 * numCCE ≤ N_RB_DL * (if four then 4 else 5) then max 2 nCCEmin
  else if 9 * numCCE ≤ N_RB_DL * (if four then 7 else 8) then max 3 nCCEmin
  else if N_RB_DL ≤ 10 then
    if frame_parms.Ncp = 0 then
      if 9 * numCCE ≤ N_RB_DL * (if four then 10 else 11) then 4 else 0
    else if 9 * numCCE ≤ N_RB_DL * (if four then 9 else 10) then 4 else 0
  else 0

/-! ## From the DCIs to the symbols and back -/

def gainLinQpsk (amp : BitVec 16) : BitVec 16 := BitVec.ofInt 16 (amp.toInt * 23170 / 32768)

structure TopBuffers where
  e : Nat → BitVec 8
  d : Nat → Nat → BitVec 8
  w : Nat → Nat → BitVec 8
  y : Nat → BitVec 16 × BitVec 16
  wtemp : Nat → BitVec 16 × BitVec 16
  wbar : Nat → BitVec 16 × BitVec 16

def pdcchModulation (gain_lin_QPSK : BitVec 16) (e : Nat → BitVec 8) (y : Nat → BitVec 16 × BitVec 16)
    (i : Nat) : BitVec 16 × BitVec 16 :=
  if i < Msymb then (soft gain_lin_QPSK (e (2 * i)), soft gain_lin_QPSK (e (2 * i + 1))) else y i

/-- `generate_dci_top` for one antenna, up to the symbols `wbar` that are mapped to the resource
elements. -/
def generateDciTop (num_dci : Nat) (dci_alloc : Nat → DciAlloc) (amp : BitVec 16)
    (frame_parms : PdcchParms) (subframe : BitVec 8) (x1 : BitVec 32) (buffers : TopBuffers) :
    Option (Nat → BitVec 16 × BitVec 16) := do
  let mi := getMi frame_parms subframe
  let num_pdcch_symbols := getNumPdcchSymbols num_dci dci_alloc frame_parms subframe
  let length := 72 * getNCCE num_pdcch_symbols frame_parms mi
  let (e, _) ← putDcis dci_alloc num_dci buffers.d buffers.w (memset buffers.e 0 length)
  let e := pdcchScrambling frame_parms.toFrameParms subframe length x1 e
  let y := pdcchModulation (gainLinQpsk amp) e buffers.y
  pdcchInterleaving frame_parms.Nid_cell.toNat (getNquad num_pdcch_symbols frame_parms mi).toNat y
    buffers.wtemp buffers.wbar

def pdcchLlr (rxF : BitVec 16) : BitVec 8 :=
  if 31 < rxF.toInt then 31 else if rxF.toInt < -32 then -32 else rxF.setWidth 8

/-- `rx_pdcch` from the matched filter on: `rxF` holds what comes for the symbols, in the order in
which they are demapped. -/
def rxPdcch (n_pdcch_symbols : Nat) (frame_parms : PdcchParms) (subframe : BitVec 8) (x1 : BitVec 32)
    (rxF : Nat → BitVec 16 × BitVec 16) (z wtemp_rx : Nat → BitVec 8 × BitVec 8) :
    Option (Nat → BitVec 8) := do
  let mi := getMi frame_parms subframe
  let wbar := fun i => (pdcchLlr (rxF i).1, pdcchLlr (rxF i).2)
  let z ← pdcchDeinterleaving frame_parms.Nid_cell.toNat
    (getNquad n_pdcch_symbols frame_parms mi).toNat z wtemp_rx wbar
  let e_rx := fun i => if i % 2 = 0 then (z (i / 2)).1 else (z (i / 2)).2
  return pdcchUnscrambling frame_parms.toFrameParms subframe (getNCCE n_pdcch_symbols frame_parms mi * 72) x1
    e_rx

/-- Both parts of a symbol arrive with their signs. -/
def KeepsSigns (sent received : BitVec 16 × BitVec 16) : Prop :=
  0 < sent.1.toInt * received.1.toInt ∧ 0 < sent.2.toInt * received.2.toInt

def Arrives (sent : BitVec 16 × BitVec 16) (wbar : BitVec 8 × BitVec 8) : Prop :=
  ∃ rxF, KeepsSigns sent rxF ∧ wbar = (pdcchLlr rxF.1, pdcchLlr rxF.2)

theorem gainLinQpsk_pos {amp : BitVec 16} (h : 2 ≤ amp.toInt) : 0 < (gainLinQpsk amp).toInt := by
  have hlt := BitVec.toInt_lt (x := amp)
  have hexact : (gainLinQpsk amp).toInt = amp.toInt * 23170 / 32768 := by
    rw [gainLinQpsk, BitVec.toInt_ofInt, Int.bmod_def]
    omega
  omega

theorem pdcchLlr_toInt (rxF : BitVec 16) : (pdcchLlr rxF).toInt = max (-32) (min 31 rxF.toInt) := by
  have hmax : (31 : BitVec 8).toInt = 31 := rfl
  have hmin : (-32 : BitVec 8).toInt = -32 := rfl
  rw [pdcchLlr]
  split
  · rw [hmax]
    omega
  · split
    · rw [hmin]
      omega
    · have hvalue := BitVec.toInt_eq_toNat_cond rxF
      have hbound := rxF.isLt
      rw [BitVec.toInt_setWidth, Int.bmod_def]
      split at hvalue <;> split <;> omega

theorem pdcchLlr_sign {x : Int} {rxF : BitVec 16} (h : 0 < x * rxF.toInt) :
    0 < x * (pdcchLlr rxF).toInt ∧ pdcchLlr rxF ≠ BitVec.intMin 8 := by
  have hkept := pdcchLlr_toInt rxF
  constructor
  · rw [hkept]
    rcases pos_and_pos_or_neg_and_neg_of_mul_pos h with ⟨hx, hpos⟩ | ⟨hx, hneg⟩
    · exact Int.mul_pos hx (by omega)
    · exact Int.mul_pos_of_neg_of_neg hx (by omega)
  · intro hmin
    have hlow : (BitVec.intMin 8).toInt = -128 := rfl
    rw [hmin, hlow] at hkept
    omega

theorem unscrambleSoft_sign {gain : BitVec 16} (hgain : 0 < gain.toInt) (c : Bool) (v : BitVec 8)
    {llr : BitVec 8} (hmin : llr ≠ BitVec.intMin 8)
    (h : 0 < (soft gain (scrambleBit ((BitVec.ofBool c).setWidth 32) v)).toInt * llr.toInt) :
    0 < bitSign v * (unscrambleSoft ((BitVec.ofBool c).setWidth 32) llr).toInt := by
  have hneg : (-gain).toInt = -gain.toInt := by
    apply BitVec.toInt_neg_of_ne_intMin
    rintro rfl
    exact absurd hgain (by decide)
  have hllr : (-llr).toInt = -llr.toInt := BitVec.toInt_neg_of_ne_intMin hmin
  have hsent : ∀ b : Bool, soft gain ((BitVec.ofBool b).setWidth 8) = if b then -gain else gain := by
    intro b
    cases b <;> rfl
  have hturned : unscrambleSoft ((BitVec.ofBool c).setWidth 32) llr = if c then llr else -llr := by
    cases c <;> rfl
  rw [scrambleBit_ofBool, hsent] at h
  rw [bitSign, hturned]
  generalize v.getLsbD 0 = b at h ⊢
  cases c <;> cases b
  case false.false | true.true =>
    have hpos := (pos_iff_pos_of_mul_pos h).mp hgain
    simpa [hllr] using hpos
  case false.true | true.false =>
    have hnegative := (neg_iff_neg_of_mul_pos h).mp (by simpa [hneg] using hgain)
    simpa [hllr] using hnegative

theorem rxPdcch_sign (n_pdcch_symbols : Nat) (frame_parms : PdcchParms) (subframe : BitVec 8)
    (x1 x1' : BitVec 32) {gain : BitVec 16} (hgain : 0 < gain.toInt) (e : Nat → BitVec 8)
    (y wtemp wbar rxF : Nat → BitVec 16 × BitVec 16) (z wtemp_rx : Nat → BitVec 8 × BitVec 8)
    (hroom : 4 * (getNquad n_pdcch_symbols frame_parms (getMi frame_parms subframe)).toNat ≤ Msymb)
    (hchannel : ∀ n < 4 * (getNquad n_pdcch_symbols frame_parms (getMi frame_parms subframe)).toNat,
      KeepsSigns (interleaveQuads frame_parms.Nid_cell.toNat
        (getNquad n_pdcch_symbols frame_parms (getMi frame_parms subframe)).toNat
        (pdcchModulation gain (pdcchScrambling frame_parms.toFrameParms subframe
          (72 * getNCCE n_pdcch_symbols frame_parms (getMi frame_parms subframe)) x1 e) y)
        wtemp wbar n) (rxF n)) :
    ∃ e_rx, rxPdcch n_pdcch_symbols frame_parms subframe x1' rxF z wtemp_rx = some e_rx ∧
      ∀ k < 72 * getNCCE n_pdcch_symbols frame_parms (getMi frame_parms subframe),
        0 < bitSign (e k) * (e_rx k).toInt := by
  have hmsb : (pdcchInit frame_parms.toFrameParms subframe).getLsbD 31 = false := by
    apply getLsbD_31_of_lt
    have hsubframe := subframe.isLt
    have hcell := frame_parms.Nid_cell.isLt
    rw [pdcchInit_toNat]
    omega
  simp only [rxPdcch, pdcchDeinterleaving, if_pos hroom, Option.bind_eq_bind, Option.bind_some,
    Option.pure_def]
  refine ⟨_, rfl, ?_⟩
  intro k hk
  have hplace : k / 2 < 4 * (getNquad n_pdcch_symbols frame_parms (getMi frame_parms subframe)).toNat := by
    rw [getNCCE] at hk
    omega
  obtain ⟨r, ⟨hfirst, hsecond⟩, hsoft⟩ := channel_deinterleaved frame_parms.Nid_cell.toNat _ _ wtemp wbar
    z wtemp_rx (fun i => (pdcchLlr (rxF i).1, pdcchLlr (rxF i).2)) (fun n hn =>
      show Arrives _ _ from ⟨rxF n, hchannel n hn, rfl⟩) hplace
  simp only [pdcchModulation, if_pos (by omega : k / 2 < Msymb)] at hfirst hsecond
  have hscrambled : pdcchScrambling frame_parms.toFrameParms subframe
      (72 * getNCCE n_pdcch_symbols frame_parms (getMi frame_parms subframe)) x1 e k = scrambleBit
        ((BitVec.ofBool (gold ((pdcchInit frame_parms.toFrameParms subframe).setWidth 31) k)).setWidth 32)
        (e k) := by
    rw [pdcchScrambling, goldLoop_cell _ _ _ _ hmsb, if_pos hk]
  rw [pdcchUnscrambling, goldLoop_cell _ _ _ _ hmsb, if_pos (by omega)]
  rcases Nat.mod_two_eq_zero_or_one k with hparity | hparity
  · have hindex : 2 * (k / 2) = k := by omega
    have hsign := pdcchLlr_sign hfirst
    rw [hindex, hscrambled] at hsign
    rw [if_pos hparity, hsoft]
    exact unscrambleSoft_sign hgain _ _ hsign.2 hsign.1
  · have hindex : 2 * (k / 2) + 1 = k := by omega
    have hsign := pdcchLlr_sign hsecond
    rw [hindex, hscrambled] at hsign
    rw [if_neg (by omega), hsoft]
    exact unscrambleSoft_sign hgain _ _ hsign.2 hsign.1

end PdmaXen.Lte
