import PdmaXen.CInt
import PdmaXen.Qpp
import Mathlib.Tactic.Positivity

/-!
# The interleaver of the turbo encoder

`getfindex`, the table `f1f2` and `interleaver` of `tool.c`, in the copy of `mwandr` and
in the copy of `kerptest`, against the quadratic permutation of the table's row.
-/

namespace PdmaXen.Turbo
set_option autoImplicit false
open CInt

/-- The two copies of `tool.c`. -/
inductive Copy where
  | mwandr
  | kerptest
  deriving DecidableEq, Repr

/-- The type of `i` and `index` in `interleaver`: `int` in one copy, `unsigned int` in the other. -/
def Copy.indexType : Copy → IntType
  | .mwandr => .signed
  | .kerptest => .unsigned

/-! ## The source -/

/-- `int f1f2[2*188]` of `tool.h`. -/
def f1f2 : List Int :=
  [3, 10, 7, 12, 19, 42, 7, 16, 7, 18, 11, 20, 5, 22, 11, 24, 7, 26, 41, 84, 103, 90, 15, 32, 9,
   34, 17, 108, 9, 38, 21, 120, 101, 84, 21, 44, 57, 46, 23, 48, 13, 50, 27, 52, 11, 36, 27, 56,
   85, 58, 29, 60, 33, 62, 15, 32, 17, 198, 33, 68, 103, 210, 19, 36, 19, 74, 37, 76, 19, 78, 21,
   120, 21, 82, 115, 84, 193, 86, 21, 44, 133, 90, 81, 46, 45, 94, 23, 48, 243, 98, 151, 40, 155,
   102, 25, 52, 51, 106, 47, 72, 91, 110, 29, 168, 29, 114, 247, 58, 29, 118, 89, 180, 91, 122,
   157, 62, 55, 84, 31, 64, 17, 66, 35, 68, 227, 420, 65, 96, 19, 74, 37, 76, 41, 234, 39, 80,
   185, 82, 43, 252, 21, 86, 155, 44, 79, 120, 139, 92, 23, 94, 217, 48, 25, 98, 17, 80, 127,
   102, 25, 52, 239, 106, 17, 48, 137, 110, 215, 112, 29, 114, 15, 58, 147, 118, 29, 60, 59, 122,
   65, 124, 55, 84, 31, 64, 17, 66, 171, 204, 67, 140, 35, 72, 19, 74, 39, 76, 19, 78, 199, 240,
   21, 82, 211, 252, 21, 86, 43, 88, 149, 60, 45, 92, 49, 846, 71, 48, 13, 28, 17, 80, 25, 102,
   183, 104, 55, 954, 127, 96, 27, 110, 29, 112, 29, 114, 57, 116, 45, 354, 31, 120, 59, 610,
   185, 124, 113, 420, 31, 64, 17, 66, 171, 136, 209, 420, 253, 216, 367, 444, 265, 456, 181,
   468, 39, 80, 27, 164, 127, 504, 143, 172, 43, 88, 29, 300, 45, 92, 157, 188, 47, 96, 13, 28,
   111, 240, 443, 204, 51, 104, 51, 212, 451, 192, 257, 220, 57, 336, 313, 228, 271, 232, 179,
   236, 331, 120, 363, 244, 375, 248, 127, 168, 31, 64, 33, 130, 43, 264, 33, 134, 477, 408, 35,
   138, 233, 280, 357, 142, 337, 480, 37, 146, 71, 444, 71, 120, 37, 152, 39, 462, 127, 234, 39,
   158, 39, 80, 31, 96, 113, 902, 41, 166, 251, 336, 43, 170, 21, 86, 43, 174, 45, 176, 45, 178,
   161, 120, 89, 182, 323, 184, 47, 186, 23, 94, 47, 190, 263, 480]

/-- `>> 1`, `>> 2` and `>> 3` are applied to positive numbers only. -/
def getfindex (K_byte : Int) : Int :=
  if K_byte ≤ 64 then K_byte - 5
  else if K_byte ≤ 128 then 59 + (K_byte - 64) / 2
  else if K_byte ≤ 256 then 91 + (K_byte - 128) / 4
  else if K_byte ≤ 768 then 123 + (K_byte - 256) / 8
  -- "Illegal codeword size" is printed here
  else -1

/-- `(f1 * i + f2 * i * i) % K_bit`; with an unsigned `i` the other operands become unsigned too. -/
def index (v : Copy) (f1 f2 K_bit i : Int) : Option Int := do
  let f1 ← v.indexType.fit f1
  let f2 ← v.indexType.fit f2
  let K_bit ← v.indexType.fit K_bit
  let a ← v.indexType.fit (f1 * i)
  let b ← v.indexType.fit (f2 * i)
  let c ← v.indexType.fit (b * i)
  let s ← v.indexType.fit (a + c)
  if K_bit = 0 then none else some (s.tmod K_bit)

def interleaver (v : Copy) (x : List UInt8) (f1 f2 K_bit : Int) (xinterleaved : List UInt8) :
    Option (List UInt8) :=
  forLoop K_bit.toNat (fun out i => do
    let j ← index v f1 f2 K_bit i
    let b ← load x j
    store out i b) xinterleaved

/-- The elements of `f1f2` that `getoutput` reads; what `getfindex` returns is not tested. -/
def tableReads (K_byte : Int) : List Int :=
  [getfindex K_byte * 2, getfindex K_byte * 2 + 1]

def selectRow (K_byte : Int) : Option (Int × Int) := do
  let f1 ← load f1f2 (getfindex K_byte * 2)
  let f2 ← load f1f2 (getfindex K_byte * 2 + 1)
  return (f1, f2)

/-- The part of `getoutput` from `getfindex` to `interleaver`. -/
def interleaved (v : Copy) (K_byte : Int) (x : List UInt8) : Option (List UInt8) := do
  let K_bit ← IntType.fit .signed (K_byte * 8)
  let size ← IntType.fit .signed (K_bit + 3)
  let (f1, f2) ← selectRow K_byte
  interleaver v (x ++ [0, 0, 0]) f1 f2 K_bit (List.replicate size.toNat 0)

/-! ## The block sizes of the table -/

/-- The message lengths in bytes that have a row, in the order of the rows. -/
def legalLengths : List Nat :=
  (List.range 60).map (5 + ·) ++ (List.range 32).map (66 + 2 * ·) ++
    (List.range 32).map (132 + 4 * ·) ++ (List.range 64).map (264 + 8 * ·)

def Legal (K_byte : Nat) : Prop := K_byte ∈ legalLengths

instance (K_byte : Nat) : Decidable (Legal K_byte) := by
  unfold Legal
  infer_instance

/-- The pairs `f1, f2` as `tool.h` lists them, one to a line. -/
def rows : List Int → List (Int × Int)
  | f1 :: f2 :: rest => (f1, f2) :: rows rest
  | _ => []

def table : List (Nat × Int × Int) := legalLengths.zip (rows f1f2)

def tableRow (K_byte : Nat) : Option (Int × Int) := table.lookup K_byte

theorem table_lengths : table.map Prod.fst = legalLengths := by decide +kernel

theorem legalLengths_bounds : ∀ K ∈ legalLengths, 5 ≤ K ∧ K ≤ 768 := by decide +kernel

/-- `getfindex` numbers the lengths of the table in their order. -/
theorem getfindex_table : ∀ entry ∈ table.zipIdx, getfindex entry.1.1 = entry.2 := by
  decide +kernel

/-- Every row is that of a permutation of the bits of its length, with coefficients below their
number. -/
theorem table_sound : ∀ entry ∈ table,
    0 ≤ entry.2.1 ∧ entry.2.1 < 8 * entry.1 ∧ 0 ≤ entry.2.2 ∧ entry.2.2 < 8 * entry.1 ∧
      Nat.Coprime entry.2.1.toNat (8 * entry.1) ∧ 8 * entry.1 ∣ entry.2.2.toNat ^ 13 := by
  decide +kernel

theorem getElem?_rows (l : List Int) (j : Nat) :
    (rows l)[j]? = (l[j * 2]?.bind fun f1 => l[j * 2 + 1]?.map fun f2 => (f1, f2)) := by
  induction l using rows.induct generalizing j with
  | case1 f1 f2 rest ih =>
    cases j with
    | zero => rfl
    | succ j =>
      rw [rows, List.getElem?_cons_succ, ih j, Nat.succ_mul]
      rfl
  | case2 l hl =>
    rcases l with _ | ⟨f1, _ | ⟨f2, rest⟩⟩
    · simp [rows]
    · cases j with
      | zero => rfl
      | succ j => simp [rows, Nat.succ_mul]
    · exact absurd rfl (hl f1 f2 rest)

theorem selectRow_eq {K_byte j : Nat} (h : getfindex K_byte = j) :
    selectRow K_byte = (rows f1f2)[j]? := by
  have h1 : (j : Int) * 2 = ↑(j * 2) := by push_cast; rfl
  have h2 : (j : Int) * 2 + 1 = ↑(j * 2 + 1) := by push_cast; rfl
  unfold selectRow
  rw [getElem?_rows, h, h2, h1, load_natCast, load_natCast]
  cases f1f2[j * 2]? with
  | none => rfl
  | some f1 => cases f1f2[j * 2 + 1]? <;> rfl

theorem tableRow_isSome {K_byte : Nat} (h : Legal K_byte) : (tableRow K_byte).isSome := by
  unfold Legal at h
  rw [← table_lengths, List.mem_map] at h
  obtain ⟨entry, hmem, heq⟩ := h
  apply List.lookup_isSome_iff.mpr
  exact ⟨entry, hmem, by simp [heq]⟩

/-- A length with a row is legal, and the row is the one `getfindex` selects. -/
theorem selectRow_of_tableRow {K_byte : Nat} {row : Int × Int} (h : tableRow K_byte = some row) :
    (K_byte, row) ∈ table ∧ selectRow K_byte = some row := by
  obtain ⟨before, after, htable, _⟩ := List.lookup_eq_some_iff.mp h
  have hat : table[before.length]? = some (K_byte, row) := by simp [htable]
  have hfindex := getfindex_table _ (List.mk_mem_zipIdx_iff_getElem?.mpr hat)
  refine ⟨List.mem_of_getElem? hat, ?_⟩
  rw [selectRow_eq hfindex]
  exact (List.getElem?_zip_eq_some.mp hat).2

theorem legal_of_tableRow {K_byte : Nat} {row : Int × Int} (h : tableRow K_byte = some row) :
    Legal K_byte := by
  unfold Legal
  rw [← table_lengths]
  exact List.mem_map_of_mem (selectRow_of_tableRow h).1

theorem exists_row {K_byte : Nat} (h : Legal K_byte) :
    ∃ f1 f2 : Nat, tableRow K_byte = some (↑f1, ↑f2) ∧ selectRow K_byte = some (↑f1, ↑f2) ∧
      f1 < 8 * K_byte ∧ f2 < 8 * K_byte ∧ Nat.Coprime f1 (8 * K_byte) ∧ 8 * K_byte ∣ f2 ^ 13 := by
  obtain ⟨⟨f1, f2⟩, hrow⟩ := Option.isSome_iff_exists.mp (tableRow_isSome h)
  obtain ⟨hmem, hselect⟩ := selectRow_of_tableRow hrow
  obtain ⟨h1, h1lt, h2, h2lt, hcoprime, hdvd⟩ := table_sound _ hmem
  simp only at h1 h1lt h2 h2lt hcoprime hdvd
  lift f1 to Nat using h1
  lift f2 to Nat using h2
  exact ⟨f1, f2, hrow, hselect, by omega, by omega, hcoprime, hdvd⟩

/-! ## The loop -/

theorem index_eq {v : Copy} {f1 f2 K i : Nat} (hK : 0 < K) (hf1 : v.indexType.InRange f1)
    (hf2 : v.indexType.InRange f2) (hKin : v.indexType.InRange K)
    (h : v.indexType.InRange (f1 * i + f2 * i * i)) :
    index v f1 f2 K i = some ↑(Qpp.index f1 f2 K i) := by
  have ha : (0 : Int) ≤ f1 * i := by positivity
  have hb : (0 : Int) ≤ f2 * i := by positivity
  have hc : (0 : Int) ≤ f2 * i * i := by positivity
  have hbc : (f2 : Int) * i ≤ f2 * i * i := by
    rcases Nat.eq_zero_or_pos i with hi | hi
    · simp [hi]
    · exact le_mul_of_one_le_right hb (by exact_mod_cast hi)
  have hain := inRange_mono ha (by omega) h
  have hcin := inRange_mono hc (by omega) h
  have hbin := inRange_mono hb hbc hcin
  have hK0 : (K : Int) ≠ 0 := by omega
  unfold index
  rw [fit_bind hf1, fit_bind hf2, fit_bind hKin, fit_bind hain, fit_bind hbin, fit_bind hcin,
    fit_bind h, if_neg hK0, Int.tmod_eq_emod_of_nonneg (by omega), Qpp.index, pow_two]
  push_cast
  rw [mul_assoc]

/-- The coefficients, the length and the largest value of the polynomial are numbers of the type. -/
def InType (v : Copy) (f1 f2 K : Nat) : Prop :=
  v.indexType.InRange f1 ∧ v.indexType.InRange f2 ∧ v.indexType.InRange K ∧
    ∀ i < K, v.indexType.InRange (f1 * i + f2 * i * i)

theorem interleaver_eq {v : Copy} {f1 f2 K : Nat} (x xinterleaved : List UInt8)
    (hin : InType v f1 f2 K) (hx : K ≤ x.length) (hout : K ≤ xinterleaved.length) :
    ∃ out, interleaver v x f1 f2 K xinterleaved = some out ∧ out.length = xinterleaved.length ∧
      ∀ i < K, out[i]? = x[Qpp.index f1 f2 K i]? := by
  obtain ⟨hf1, hf2, hK, hpoly⟩ := hin
  have hlt : ∀ i < K, Qpp.index f1 f2 K i < x.length :=
    fun i hi => lt_of_lt_of_le (Qpp.index_lt (by omega)) hx
  have hloop : ∃ out, interleaver v x f1 f2 K xinterleaved = some out ∧
      FilledTo xinterleaved.length (fun j => xinterleaved.getD j 0)
        (fun j => x.getD (Qpp.index f1 f2 K j) 0) K out := by
    unfold interleaver
    rw [Int.toNat_natCast]
    apply forLoop_induction (FilledTo xinterleaved.length (fun j => xinterleaved.getD j 0)
      (fun j => x.getD (Qpp.index f1 f2 K j) 0))
    · apply FilledTo.start rfl
      intro j hj
      simp [hj]
    · intro i out hi hfilled
      obtain ⟨out', hstore, hfilled'⟩ := hfilled.store (lt_of_lt_of_le hi hout) rfl
      refine ⟨out', ?_, hfilled'⟩
      simp only [Option.bind_eq_bind, index_eq (by omega) hf1 hf2 hK (hpoly i hi),
        Option.bind_some, load_of_lt (hlt i hi) 0]
      exact hstore
  obtain ⟨out, hrun, hlen, hcells⟩ := hloop
  refine ⟨out, hrun, hlen, ?_⟩
  intro i hi
  rw [hcells i (lt_of_lt_of_le hi hout), if_pos hi]
  simp [hlt i hi]

/-! ## The whole selection -/

/-- `getoutput` would stop before it reads the table. -/
def Refused (K_byte : Nat) : Prop := tableReads K_byte = []

/-- The row is that of the length, every operation of the index stays inside its type, the output
is the vector at the indices of the polynomial, and these are a permutation. -/
structure Interleaves (v : Copy) (K_byte : Nat) (x : List UInt8) (f1 f2 : Nat) : Prop where
  selected : selectRow K_byte = some (↑f1, ↑f2)
  row : tableRow K_byte = some (↑f1, ↑f2)
  no_overflow : InType v f1 f2 (8 * K_byte)
  index : ∀ i < 8 * K_byte, index v f1 f2 ↑(8 * K_byte) i = some ↑(Qpp.index f1 f2 (8 * K_byte) i)
  output : ∃ out, interleaved v K_byte x = some out ∧
    ∀ i < 8 * K_byte, out[i]? = x[(f1 * i + f2 * i ^ 2) % (8 * K_byte)]?
  permutation : Set.BijOn (fun i => (f1 * i + f2 * i ^ 2) % (8 * K_byte)) (Set.Iio (8 * K_byte))
    (Set.Iio (8 * K_byte))

/-- The length has a row, and the value of its polynomial at the last position is a number of the
type. -/
def Fits (v : Copy) (K_byte : Nat) : Prop :=
  ∃ row ∈ tableRow K_byte,
    v.indexType.InRange (row.1 * (8 * K_byte - 1) + row.2 * (8 * K_byte - 1) * (8 * K_byte - 1))

instance (v : Copy) (K_byte : Nat) : Decidable (Fits v K_byte) :=
  inferInstanceAs (Decidable (∃ row ∈ tableRow K_byte, _))

theorem not_refused (K_byte : Nat) : ¬ Refused K_byte := by
  intro h
  cases h

theorem fits_of_interleaves {v : Copy} {K_byte f1 f2 : Nat} {x : List UInt8}
    (h : Interleaves v K_byte x f1 f2) : Fits v K_byte := by
  have hpos := (legalLengths_bounds K_byte (legal_of_tableRow h.row)).1
  refine ⟨(f1, f2), h.row, ?_⟩
  have hlast := h.no_overflow.2.2.2 (8 * K_byte - 1) (by omega)
  rw [Nat.cast_sub (by omega)] at hlast
  simpa using hlast

theorem small_inRange (v : Copy) {n : Nat} (h : n < 8192) : v.indexType.InRange n := by
  cases v
  · exact ⟨by omega, by omega⟩
  · exact ⟨by omega, by omega⟩

theorem inType_of_fits {v : Copy} {K_byte f1 f2 : Nat} (h : Fits v K_byte)
    (hrow : tableRow K_byte = some (↑f1, ↑f2)) (hf1 : f1 < 8 * K_byte) (hf2 : f2 < 8 * K_byte) :
    InType v f1 f2 (8 * K_byte) := by
  have hbounds := legalLengths_bounds K_byte (legal_of_tableRow hrow)
  obtain ⟨row, hmem, hlast⟩ := h
  have hsame : row = (↑f1, ↑f2) := Option.some.inj ((Option.mem_def.mp hmem).symm.trans hrow)
  subst hsame
  refine ⟨small_inRange v (by omega), small_inRange v (by omega), small_inRange v (by omega), ?_⟩
  intro i hi
  refine inRange_mono (by positivity) ?_ hlast
  have hile : (i : Int) ≤ 8 * K_byte - 1 := by omega
  have hlast0 : (0 : Int) ≤ 8 * K_byte - 1 := by omega
  gcongr

theorem fits_kerptest_of_mwandr {K_byte : Nat} (h : Fits .mwandr K_byte) :
    Fits .kerptest K_byte := by
  obtain ⟨row, hmem, hlast⟩ := h
  obtain ⟨hrow, _⟩ := selectRow_of_tableRow (Option.mem_def.mp hmem)
  obtain ⟨h1, _, h2, _⟩ := table_sound _ hrow
  have hpos := (legalLengths_bounds K_byte (legal_of_tableRow hmem)).1
  have hlast0 : (0 : Int) ≤ 8 * K_byte - 1 := by omega
  refine ⟨row, hmem, by positivity, ?_⟩
  exact le_trans hlast.2 (by decide)

theorem interleaved_eq {v : Copy} {K_byte : Nat} {row : Int × Int} (x : List UInt8)
    (hK : K_byte ≤ 768) (hselect : selectRow K_byte = some row) :
    interleaved v K_byte x = interleaver v (x ++ [0, 0, 0]) row.1 row.2 ↑(8 * K_byte)
      (List.replicate (8 * K_byte + 3) 0) := by
  have hbit : (K_byte : Int) * 8 = ↑(8 * K_byte) := by
    push_cast
    ring
  have hsize : (↑(8 * K_byte) : Int) + 3 = ↑(8 * K_byte + 3) := by
    push_cast
    ring
  have hbitIn : IntType.InRange .signed ↑(8 * K_byte) := small_inRange .mwandr (by omega)
  have hsizeIn : IntType.InRange .signed ↑(8 * K_byte + 3) := small_inRange .mwandr (by omega)
  unfold interleaved
  rw [hbit, fit_bind hbitIn, hsize, fit_bind hsizeIn, hselect, Option.bind_eq_bind,
    Option.bind_some, Int.toNat_natCast]

theorem interleaves_of_fits {v : Copy} {K_byte : Nat} {x : List UInt8}
    (hx : x.length = 8 * K_byte) (h : Fits v K_byte) : ∃ f1 f2, Interleaves v K_byte x f1 f2 := by
  have hlegal : Legal K_byte := by
    obtain ⟨row, hmem, _⟩ := h
    exact legal_of_tableRow hmem
  obtain ⟨f1, f2, hrow, hselect, hf1, hf2, hcoprime, hdvd⟩ := exists_row hlegal
  have hbounds := legalLengths_bounds K_byte hlegal
  have hin := inType_of_fits h hrow hf1 hf2
  refine ⟨f1, f2, hselect, hrow, hin, ?_, ?_, Qpp.index_bijOn (by omega) hcoprime hdvd⟩
  · intro i hi
    exact index_eq (by omega) hin.1 hin.2.1 hin.2.2.1 (hin.2.2.2 i hi)
  · obtain ⟨out, hrun, _, hcells⟩ := interleaver_eq (x ++ [0, 0, 0])
      (List.replicate (8 * K_byte + 3) 0) hin (by simp [hx]) (by simp)
    refine ⟨out, (interleaved_eq x hbounds.2 hselect).trans hrun, ?_⟩
    intro i hi
    rw [hcells i hi]
    apply List.getElem?_append_left
    rw [hx]
    exact Qpp.index_lt (by omega)

/-- Each copy of `tool.c` interleaves the bits of a message exactly as the row of its length says
when the length has a row and its polynomial stays inside the copy's integer type, and for no
other length. -/
theorem interleaver_exact_iff {K_byte : Nat} (x : List UInt8) (hx : x.length = 8 * K_byte) :
    (∀ v, (Refused K_byte ∨ ∃ f1 f2, Interleaves v K_byte x f1 f2) ↔ Fits v K_byte) ∧
      ((∀ v, Refused K_byte ∨ ∃ f1 f2, Interleaves v K_byte x f1 f2) ↔ Fits .mwandr K_byte) := by
  have hone : ∀ v, (Refused K_byte ∨ ∃ f1 f2, Interleaves v K_byte x f1 f2) ↔ Fits v K_byte := by
    intro v
    constructor
    · intro h
      rcases h with hrefused | ⟨f1, f2, hexact⟩
      · exact absurd hrefused (not_refused K_byte)
      · exact fits_of_interleaves hexact
    · intro h
      exact Or.inr (interleaves_of_fits hx h)
  refine ⟨hone, fun h => (hone .mwandr).mp (h .mwandr), ?_⟩
  intro h v
  apply (hone v).mpr
  cases v with
  | mwandr => exact h
  | kerptest => exact fits_kerptest_of_mwandr h

theorem interleaver_exact_iff_forty_bits :
    ((∀ v, (Refused 5 ∨ ∃ f1 f2, Interleaves v 5 (List.replicate 40 1) f1 f2) ↔ Fits v 5) ∧
      ((∀ v, Refused 5 ∨ ∃ f1 f2, Interleaves v 5 (List.replicate 40 1) f1 f2) ↔
        Fits .mwandr 5)) ∧ Fits .mwandr 5 :=
  ⟨interleaver_exact_iff (List.replicate 40 1) (by decide), by decide +kernel⟩

/-- The longest message: the polynomial of its row leaves both types at the last
position. -/
theorem interleaver_overflows :
    ¬ ∀ (v : Copy) (K_byte : Nat) (x : List UInt8), x.length = 8 * K_byte →
      Refused K_byte ∨ ∃ f1 f2, Interleaves v K_byte x f1 f2 := by
  intro h
  rcases h .mwandr 768 (List.replicate 6144 1) List.length_replicate with hrefused | ⟨f1, f2, hexact⟩
  · exact not_refused 768 hrefused
  · have hfits := fits_of_interleaves hexact
    exact absurd hfits (by decide +kernel)

end PdmaXen.Turbo
