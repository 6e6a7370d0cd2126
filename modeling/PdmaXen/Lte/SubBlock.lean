import PdmaXen.Lte.TurboEncoder
import PdmaXen.Scatter

/-!
# Sub-block interleaving

The interleavers of `lte_rate_matching.cpp`, for the turbo code and for the convolutional
code, their inverses in the receiver, and the rows of `LTE_NULL` marks that the receiver
makes for itself. A coded block is indexed by integers: the 96 cells before it hold
`LTE_NULL`.
-/

namespace PdmaXen.Lte
set_option autoImplicit false
open Scatter

/-! ## The source -/

def bitrev : List Nat :=
  [0, 16, 8, 24, 4, 20, 12, 28, 2, 18, 10, 26, 6, 22, 14, 30, 1, 17, 9, 25, 5, 21, 13, 29, 3, 19,
   11, 27, 7, 23, 15, 31]

def bitrev_cc : List Nat :=
  [1, 17, 9, 25, 5, 21, 13, 29, 3, 19, 11, 27, 7, 23, 15, 31, 0, 16, 8, 24, 4, 20, 12, 28, 2, 18,
   10, 26, 6, 22, 14, 30]

/-- `RTC` and `RCC`: the rows of the matrix for `D` cells. -/
def rowCount (D : Nat) : Nat := if 0 < D % 32 then D / 32 + 1 else D / 32

/-- `Kpi`. -/
def cellCount (D : Nat) : Nat := rowCount D * 32

/-- `ND`. -/
def dummyCount (D : Nat) : Nat := cellCount D - D

/-- One round of the inner loops on `k`, `index3` and what the body changes. -/
def subBlockRow {σ : Type} (body : Nat → Nat → σ → σ) (st : Nat × Nat × σ) : Nat × Nat × σ :=
  (st.1 + 1, st.2.1 + 96, body st.1 st.2.1 st.2.2)

def subBlockLoop {σ : Type} (columns : List Nat) (rows : Nat) (body : Nat → Nat → σ → σ) (s : σ) : σ :=
  (columns.foldl (fun st index =>
    let r := (subBlockRow body)^[rows] (st.1, 3 * index, st.2)
    (r.1, r.2.2)) (0, s)).2

section
variable {α : Type}

/-- `RTC`, and `d` and `w` afterwards. -/
def subBlockInterleavingTurbo (D : Nat) (d : Int → α) (w : Nat → α) :
    Nat × (Int → α) × (Nat → α) :=
  let Kpi := cellCount D
  let ND3 := dummyCount D * 3
  -- `d[(3*D)+2] = d[2]`
  let d : Int → α := Function.update d (3 * D + 2) (d 2)
  (rowCount D, d, subBlockLoop bitrev (rowCount D) (fun k index3 w =>
    Function.update (Function.update (Function.update w k (d (index3 - ND3)))
      (Kpi + 2 * k) (d (index3 - ND3 + 1))) (Kpi + 1 + 2 * k) (d (index3 - ND3 + 5))) w)

def subBlockInterleavingCc (D : Nat) (d : Int → α) (w : Nat → α) : Nat × (Nat → α) :=
  let Kpi := cellCount D
  let ND3 := dummyCount D * 3
  (rowCount D, subBlockLoop bitrev_cc (rowCount D) (fun k index3 w =>
    Function.update (Function.update (Function.update w k (d (index3 - ND3)))
      (Kpi + k) (d (index3 - ND3 + 1))) (2 * Kpi + k) (d (index3 - ND3 + 2))) w)

def subBlockDeinterleavingTurbo (D : Nat) (d : Int → α) (w : Nat → α) : Int → α :=
  let Kpi := cellCount D
  let ND3 := dummyCount D * 3
  let d : Int → α := subBlockLoop bitrev (rowCount D) (fun k index3 d =>
    Function.update (Function.update (Function.update d (index3 - ND3) (w k))
      (index3 - ND3 + 1) (w (Kpi + 2 * k))) (index3 - ND3 + 5) (w (Kpi + 1 + 2 * k))) d
  Function.update d 2 (d (3 * D + 2))

def subBlockDeinterleavingCc (D : Nat) (d : Int → α) (w : Nat → α) : Int → α :=
  let Kpi := cellCount D
  let ND3 := dummyCount D * 3
  subBlockLoop bitrev_cc (rowCount D) (fun k index3 d =>
    Function.update (Function.update (Function.update d (index3 - ND3) (w k))
      (index3 - ND3 + 1) (w (Kpi + k))) (index3 - ND3 + 2) (w (2 * Kpi + k))) d

end

def markNull (w : Nat → BitVec 8) (cells : List Nat) : Nat → BitVec 8 :=
  cells.foldl (fun w i => Function.update w i LTE_NULL) w

/-- What `generate_dummy_w` marks for the column `index`, whose cells start at `k`. -/
def dummyCells (RTC_Kpi ND F index k : Nat) : List Nat :=
  (if index < ND + F then [k, RTC_Kpi + 2 * k] else []) ++
  -- bits beyond 32 due to "filler" bits
  (if index + 32 < ND + F then [k + 1, RTC_Kpi + 2 + 2 * k] else []) ++
  (if index + 64 < ND + F then [k + 2, RTC_Kpi + 4 + 2 * k] else []) ++
  (if index + 1 < ND then [RTC_Kpi + 1 + 2 * k] else [])

def generateDummyW (D : Nat) (w : Nat → BitVec 8) (F : Nat) : Nat × (Nat → BitVec 8) :=
  (rowCount D, (bitrev.foldl (fun st index =>
    (st.1 + rowCount D, markNull st.2 (dummyCells (cellCount D) (dummyCount D) F index st.1)))
    (0, w)).2)

def generateDummyWCc (D : Nat) (w : Nat → BitVec 8) : Nat × (Nat → BitVec 8) :=
  (rowCount D, (bitrev_cc.foldl (fun st index =>
    (st.1 + rowCount D, markNull st.2
      (if index < dummyCount D then [st.1, cellCount D + st.1, 2 * cellCount D + st.1] else [])))
    (0, w)).2)

/-! ## Loops -/

def column (columns : List Nat) (c : Nat) : Nat := columns.getD c 0

theorem bitrev_lt : ∀ c < 32, column bitrev c < 32 := by decide

theorem bitrev_cc_lt : ∀ c < 32, column bitrev_cc c < 32 := by decide

theorem bitrev_bitrev : ∀ c < 32, column bitrev (column bitrev c) = c := by decide

/-- The other order starts in the middle of the first. -/
theorem bitrev_cc_eq : ∀ c < 32, column bitrev_cc c = column bitrev ((c + 16) % 32) := by decide

theorem bitrev_inj : ∀ c < 32, ∀ c' < 32, column bitrev c = column bitrev c' → c = c' := by
  intro c hc c' hc' h
  rw [← bitrev_bitrev c hc, h, bitrev_bitrev c' hc']

theorem bitrev_cc_inj : ∀ c < 32, ∀ c' < 32, column bitrev_cc c = column bitrev_cc c' → c = c' := by
  intro c hc c' hc' h
  rw [bitrev_cc_eq c hc, bitrev_cc_eq c' hc'] at h
  have hsame := bitrev_inj _ (Nat.mod_lt _ (by omega)) _ (Nat.mod_lt _ (by omega)) h
  omega

theorem place_row (P : Nat → Nat) {rows i : Nat} (n : Nat) (hi : i < rows) :
    place P 32 rows (n * rows + i) = P n + 32 * i := by
  have hdiv : (n * rows + i) / rows = n := by
    rw [Nat.mul_comm, Nat.mul_add_div (by omega), Nat.div_eq_of_lt hi, Nat.add_zero]
  rw [place, hdiv, Nat.mul_add_mod', Nat.mod_eq_of_lt hi]

theorem subBlockRow_iterate {σ : Type} (P : Nat → Nat) (rows : Nat) (body : Nat → Nat → σ → σ)
    (n : Nat) (s : σ) {i : Nat} (hi : i ≤ rows) :
    (subBlockRow body)^[i] (n * rows, 3 * P n, s) = (n * rows + i, 3 * (P n + 32 * i),
      (List.range i).foldl (fun s i => body (n * rows + i) (3 * place P 32 rows (n * rows + i)) s) s) := by
  induction i with
  | zero => rfl
  | succ i ih =>
    rw [Function.iterate_succ_apply', ih (by omega), List.range_succ, List.foldl_append,
      List.foldl_cons, List.foldl_nil, place_row P n (by omega)]
    simp only [subBlockRow, Prod.mk.injEq, and_true]
    omega

theorem subBlockLoop_eq {σ : Type} (columns : List Nat) (rows : Nat) (body : Nat → Nat → σ → σ)
    (s : σ) : subBlockLoop columns rows body s =
      (List.range (columns.length * rows)).foldl
        (fun s k => body k (3 * place (column columns) 32 rows k) s) s := by
  have hcolumns : columns = (List.range columns.length).map (column columns) := by
    apply List.ext_getElem
    · simp
    · intro i h1 h2
      simp [column, h1]
  have hloop : ∀ n, (List.range n).foldl (fun st c =>
      let r := (subBlockRow body)^[rows] (st.1, 3 * column columns c, st.2)
      (r.1, r.2.2)) (0, s) = (n * rows, (List.range (n * rows)).foldl
        (fun s k => body k (3 * place (column columns) 32 rows k) s) s) := by
    intro n
    induction n with
    | zero => simp
    | succ n ih =>
      rw [List.range_succ, List.foldl_append, ih, List.foldl_cons, List.foldl_nil]
      simp only [subBlockRow_iterate (column columns) rows body n _ (le_refl rows)]
      rw [Nat.succ_mul, List.range_add, List.foldl_append, List.foldl_map]
  unfold subBlockLoop
  conv_lhs => rw [hcolumns]
  rw [List.foldl_map, hloop]

/-! ## The two interleavers -/

inductive Coding where
  | turbo
  | cc
  deriving DecidableEq, Repr

namespace Coding

def columns : Coding → List Nat
  | turbo => bitrev
  | cc => bitrev_cc

/-- `π(k)`: the place of the matrix that is read in turn `k`. -/
def order (v : Coding) (D k : Nat) : Nat := place (column v.columns) 32 (rowCount D) k

/-- Where the three cells of turn `k` are kept in `w`. -/
def out (v : Coding) (Kpi k : Nat) : Nat → Nat
  | 0 => k
  | 1 => match v with
    | turbo => Kpi + 2 * k
    | cc => Kpi + k
  | _ => match v with
    | turbo => Kpi + 1 + 2 * k
    | cc => 2 * Kpi + k

/-- Which cells of `d` they are, from the first cell of their place on. -/
def shift (v : Coding) : Nat → Int
  | 0 => 0
  | 1 => 1
  | _ => match v with
    | turbo => 5
    | cc => 2

/-- The cell of `d` that stream `o` has in turn `k`. -/
def source (v : Coding) (D k o : Nat) : Int :=
  3 * (v.order D k : Int) - 3 * dummyCount D + v.shift o

/-- Where the column `c` of the matrix stands in the order. -/
def columnTurn : Coding → Nat → Nat
  | turbo, c => column bitrev c
  | cc, c => (column bitrev c + 16) % 32

def turn (v : Coding) (D m : Nat) : Nat := v.columnTurn (m % 32) * rowCount D + m / 32

/-- The place of the matrix that the receiver takes cell `3 * n + o` of the block from. -/
def placeOf (v : Coding) (D n o : Nat) : Nat :=
  match v with
  | turbo => if o < 2 then dummyCount D + n
    else if n = 0 then dummyCount D + (D - 1) else dummyCount D + (n - 1)
  | cc => dummyCount D + n

/-- The cell of `w` that carries cell `3 * n + o` of the block. -/
def bufferCell (v : Coding) (D n o : Nat) : Nat :=
  v.out (cellCount D) (v.turn D (v.placeOf D n o)) o

theorem column_lt (v : Coding) : ∀ c < 32, column v.columns c < 32 := by
  cases v
  · exact bitrev_lt
  · exact bitrev_cc_lt

theorem column_inj (v : Coding) : ∀ c < 32, ∀ c' < 32,
    column v.columns c = column v.columns c' → c = c' := by
  cases v
  · exact bitrev_inj
  · exact bitrev_cc_inj

theorem columns_length (v : Coding) (D : Nat) : v.columns.length * rowCount D = cellCount D := by
  have hlen : v.columns.length = 32 := by cases v <;> rfl
  rw [hlen, cellCount, Nat.mul_comm]

section
variable (v : Coding) {D k k' : Nat}

theorem order_lt (hk : k < cellCount D) : v.order D k < cellCount D := by
  unfold cellCount at hk ⊢
  rw [Nat.mul_comm] at hk ⊢
  exact place_lt v.column_lt hk

theorem order_inj (hk : k < cellCount D) (hk' : k' < cellCount D)
    (h : v.order D k = v.order D k') : k = k' := by
  unfold cellCount at hk hk'
  rw [Nat.mul_comm] at hk hk'
  exact place_injOn v.column_lt v.column_inj hk hk' h

theorem columnTurn_lt {c : Nat} (hc : c < 32) : v.columnTurn c < 32 := by
  cases v with
  | turbo => exact bitrev_lt c hc
  | cc => exact Nat.mod_lt _ (by omega)

theorem column_columnTurn {c : Nat} (hc : c < 32) : column v.columns (v.columnTurn c) = c := by
  cases v with
  | turbo => exact bitrev_bitrev c hc
  | cc =>
    have hlt := bitrev_lt c hc
    have hback : ((column bitrev c + 16) % 32 + 16) % 32 = column bitrev c := by omega
    simp only [columns, columnTurn]
    rw [bitrev_cc_eq _ (Nat.mod_lt _ (by omega)), hback, bitrev_bitrev c hc]

theorem order_turn {m : Nat} (hm : m < cellCount D) : v.order D (v.turn D m) = m := by
  have hrow : m / 32 < rowCount D := Nat.div_lt_of_lt_mul (Nat.mul_comm (rowCount D) 32 ▸ hm)
  rw [order, turn, place_row _ _ hrow, v.column_columnTurn (Nat.mod_lt m (by omega))]
  exact Nat.mod_add_div m 32

theorem turn_lt {m : Nat} (hm : m < cellCount D) : v.turn D m < cellCount D := by
  have hrow : m / 32 < rowCount D := Nat.div_lt_of_lt_mul (Nat.mul_comm (rowCount D) 32 ▸ hm)
  have hcol := v.columnTurn_lt (Nat.mod_lt m (by omega : 0 < 32))
  have hmul : (v.columnTurn (m % 32) + 1) * rowCount D ≤ 32 * rowCount D :=
    Nat.mul_le_mul_right _ hcol
  rw [Nat.succ_mul] at hmul
  unfold turn cellCount
  omega

theorem out_distinct (D : Nat) : Distinct (v.out (cellCount D)) 3 (cellCount D) := by
  intro k hk o ho k' hk' o' ho' h
  cases v <;> rcases (by omega : o = 0 ∨ o = 1 ∨ o = 2) with rfl | rfl | rfl <;>
    rcases (by omega : o' = 0 ∨ o' = 1 ∨ o' = 2) with rfl | rfl | rfl <;>
    simp only [out] at h <;> omega

theorem source_distinct (D : Nat) : Distinct (v.source D) 3 (cellCount D) := by
  intro k hk o ho k' hk' o' ho' h
  have horder : v.order D k = v.order D k' ∧ o = o' := by
    unfold source at h
    cases v <;> rcases (by omega : o = 0 ∨ o = 1 ∨ o = 2) with rfl | rfl | rfl <;>
      rcases (by omega : o' = 0 ∨ o' = 1 ∨ o' = 2) with rfl | rfl | rfl <;>
      simp only [shift] at h <;> omega
  exact ⟨v.order_inj hk hk' horder.1, horder.2⟩

theorem exists_out {j : Nat} (hj : j < 3 * cellCount D) :
    ∃ k < cellCount D, ∃ o < 3, v.out (cellCount D) k o = j := by
  rcases Nat.lt_or_ge j (cellCount D) with hlt | hge
  · exact ⟨j, hlt, 0, by omega, rfl⟩
  · cases v with
    | turbo =>
      rcases Nat.mod_two_eq_zero_or_one (j - cellCount D) with hmod | hmod
      · refine ⟨(j - cellCount D) / 2, by omega, 1, by omega, ?_⟩
        simp only [out]
        omega
      · refine ⟨(j - cellCount D) / 2, by omega, 2, by omega, ?_⟩
        simp only [out]
        omega
    | cc =>
      rcases Nat.lt_or_ge j (2 * cellCount D) with hlt | hge'
      · refine ⟨j - cellCount D, by omega, 1, by omega, ?_⟩
        simp only [out]
        omega
      · refine ⟨j - 2 * cellCount D, by omega, 2, by omega, ?_⟩
        simp only [out]
        omega

theorem out_lt (hk : k < cellCount D) {o : Nat} (ho : o < 3) :
    v.out (cellCount D) k o < 3 * cellCount D := by
  cases v <;> rcases (by omega : o = 0 ∨ o = 1 ∨ o = 2) with rfl | rfl | rfl <;>
    simp only [out] <;> omega

end

end Coding

/-- The loop over rows and columns as stores to distinct cells. -/
theorem subBlockLoop_eq_stores {ι α : Type} [DecidableEq ι] (v : Coding) (D : Nat)
    {body : Nat → Nat → (ι → α) → ι → α} {addr : Nat → Nat → ι} {val : Nat → Nat → α}
    (h : ∀ k m, body k (3 * v.order D k) m = storeStep addr val 3 m k) (m : ι → α) :
    subBlockLoop v.columns (rowCount D) body m = stores addr val 3 (cellCount D) m := by
  have hbody : (fun m k => body k (3 * place (column v.columns) 32 (rowCount D) k) m) =
      storeStep addr val 3 := funext fun m => funext fun k => h k m
  rw [subBlockLoop_eq, v.columns_length, hbody]
  rfl

section Streams
variable {α : Type} (D : Nat) (d : Int → α) (w : Nat → α)

/-- What the interleaver of the turbo code reads: the first cell of the third stream is repeated
after its last. -/
def repeated : Int → α := Function.update d (3 * D + 2) (d 2)

theorem source_zero (v : Coding) (k : Nat) :
    ((3 * v.order D k : Nat) : Int) - ((dummyCount D * 3 : Nat) : Int) = v.source D k 0 := by
  simp only [Coding.source, Coding.shift]
  push_cast
  omega

theorem source_add (v : Coding) (k o : Nat) : v.source D k 0 + v.shift o = v.source D k o := by
  simp only [Coding.source, Coding.shift]
  omega

theorem storeStep_three {ι : Type} [DecidableEq ι] (addr : Nat → Nat → ι) (val : Nat → Nat → α)
    (m : ι → α) (k : Nat) : storeStep addr val 3 m k = Function.update (Function.update
      (Function.update m (addr k 0) (val k 0)) (addr k 1) (val k 1)) (addr k 2) (val k 2) := rfl

theorem subBlockInterleavingTurbo_eq : subBlockInterleavingTurbo D d w = (rowCount D, repeated D d,
    stores (Coding.turbo.out (cellCount D)) (fun k o => repeated D d (Coding.turbo.source D k o)) 3
      (cellCount D) w) := by
  refine Prod.ext rfl (Prod.ext rfl ?_)
  apply subBlockLoop_eq_stores .turbo D
  intro k w
  rw [storeStep_three, ← source_add D .turbo k 1, ← source_add D .turbo k 2, ← source_zero]
  rfl

theorem subBlockInterleavingCc_eq : subBlockInterleavingCc D d w = (rowCount D,
    stores (Coding.cc.out (cellCount D)) (fun k o => d (Coding.cc.source D k o)) 3
      (cellCount D) w) := by
  refine Prod.ext rfl ?_
  apply subBlockLoop_eq_stores .cc D
  intro k w
  rw [storeStep_three, ← source_add D .cc k 1, ← source_add D .cc k 2, ← source_zero]
  rfl

theorem subBlockDeinterleavingTurbo_eq : subBlockDeinterleavingTurbo D d w =
    let d' : Int → α := stores (Coding.turbo.source D) (fun k o => w (Coding.turbo.out (cellCount D) k o)) 3
      (cellCount D) d
    Function.update d' 2 (d' (3 * D + 2)) := by
  have hloop : subBlockLoop bitrev (rowCount D) (fun k index3 (d : Int → α) =>
      Function.update (Function.update (Function.update d (index3 - (dummyCount D * 3 : Nat)) (w k))
        (index3 - (dummyCount D * 3 : Nat) + 1) (w (cellCount D + 2 * k)))
        (index3 - (dummyCount D * 3 : Nat) + 5) (w (cellCount D + 1 + 2 * k))) d =
      stores (Coding.turbo.source D) (fun k o => w (Coding.turbo.out (cellCount D) k o)) 3
        (cellCount D) d := by
    apply subBlockLoop_eq_stores .turbo D
    intro k d
    rw [storeStep_three, ← source_add D .turbo k 1, ← source_add D .turbo k 2, ← source_zero]
    rfl
  rw [← hloop]
  rfl

theorem subBlockDeinterleavingCc_eq : subBlockDeinterleavingCc D d w =
    stores (Coding.cc.source D) (fun k o => w (Coding.cc.out (cellCount D) k o)) 3
      (cellCount D) d := by
  apply subBlockLoop_eq_stores .cc D
  intro k d
  rw [storeStep_three, ← source_add D .cc k 1, ← source_add D .cc k 2, ← source_zero]
  rfl

end Streams

/-! ## Formula and round trip -/

theorem dummyCount_add (D : Nat) : dummyCount D + D = cellCount D := by
  unfold dummyCount cellCount rowCount
  split <;> omega

theorem dummyCount_lt (D : Nat) : dummyCount D < 32 := by
  unfold dummyCount cellCount rowCount
  split <;> omega

theorem placeOf_lt (v : Coding) {D n : Nat} (hn : n < D) (o : Nat) :
    v.placeOf D n o < cellCount D := by
  have hadd := dummyCount_add D
  cases v with
  | turbo =>
    simp only [Coding.placeOf]
    split_ifs <;> omega
  | cc =>
    simp only [Coding.placeOf]
    omega

/-- The turn of a cell of the block comes to it, but for the first cell of the third stream, which is
taken from its repetition. -/
theorem source_turn (v : Coding) {D n o : Nat} (hn : n < D) (ho : o < 3) :
    v.source D (v.turn D (v.placeOf D n o)) o =
      if v = .turbo ∧ n = 0 ∧ o = 2 then 3 * (D : Int) + 2 else 3 * n + o := by
  have hplace := placeOf_lt v hn o
  rw [Coding.source, v.order_turn hplace]
  cases v with
  | turbo =>
    rcases (by omega : o < 2 ∨ o = 2 ∧ n = 0 ∨ o = 2 ∧ 0 < n) with h | ⟨rfl, rfl⟩ | ⟨rfl, hpos⟩
    · have hshift : Coding.turbo.shift o = o := by
        rcases (by omega : o = 0 ∨ o = 1) with rfl | rfl <;> rfl
      simp only [Coding.placeOf, if_pos h, hshift]
      omega
    · simp only [Coding.placeOf, Coding.shift, if_neg (by omega : ¬ 2 < 2), and_self, if_true]
      omega
    · simp only [Coding.placeOf, Coding.shift, if_neg (by omega : ¬ 2 < 2), if_neg hpos.ne']
      omega
  | cc =>
    have hshift : Coding.cc.shift o = o := by
      rcases (by omega : o = 0 ∨ o = 1 ∨ o = 2) with rfl | rfl | rfl <;> rfl
    rw [hshift, if_neg (by simp)]
    simp only [Coding.placeOf]
    omega

/-- What an interleaver leaves in `w` for the block `d`, and what the receiver's leaves in its own
memory for the same `w`. -/
structure SubBlocks {α : Type} (v : Coding) (D : Nat) (read d : Int → α) (w₀ w : Nat → α)
    (restored : Int → α) : Prop where
  formula : ∀ k < cellCount D, ∀ o < 3, w (v.out (cellCount D) k o) = read (v.source D k o)
  order : Set.BijOn (v.order D) (Set.Iio (cellCount D)) (Set.Iio (cellCount D))
  frame : ∀ j, 3 * cellCount D ≤ j → w j = w₀ j
  restored : ∀ n < D, ∀ o : Nat, o < 3 → restored (3 * n + o) = d (3 * n + o)

section RoundTrip
variable {α : Type} (D : Nat) (d r : Int → α) (w : Nat → α)

theorem order_bijOn (v : Coding) :
    Set.BijOn (v.order D) (Set.Iio (cellCount D)) (Set.Iio (cellCount D)) := by
  refine ⟨fun k hk => v.order_lt hk, fun k hk k' hk' h => v.order_inj hk hk' h, ?_⟩
  intro m hm
  exact ⟨v.turn D m, v.turn_lt hm, v.order_turn hm⟩

theorem stores_out_frame (v : Coding) (val : Nat → Nat → α) {j : Nat} (hj : 3 * cellCount D ≤ j) :
    stores (v.out (cellCount D)) val 3 (cellCount D) w j = w j := by
  apply stores_other
  intro k hk o ho h
  have hlt := v.out_lt hk ho
  omega

variable {D}

theorem subBlockInterleavingTurbo_cell {n o : Nat} (hn : n < D) (ho : o < 3) :
    (subBlockInterleavingTurbo D d w).2.2 (Coding.turbo.bufferCell D n o) = d (3 * n + o) := by
  rw [subBlockInterleavingTurbo_eq, Coding.bufferCell]
  simp only
  rw [stores_cell (Coding.turbo.out_distinct D) (Coding.turbo.turn_lt (placeOf_lt .turbo hn o)) ho,
    source_turn .turbo hn ho, repeated]
  split
  · rename_i hfirst
    obtain ⟨-, rfl, rfl⟩ := hfirst
    rw [Function.update_self]
    rfl
  · rw [Function.update_of_ne (by omega)]

theorem subBlockDeinterleavingTurbo_cell {n o : Nat} (hn : n < D) (ho : o < 3) :
    subBlockDeinterleavingTurbo D r w (3 * n + o) = w (Coding.turbo.bufferCell D n o) := by
  have hcell : stores (Coding.turbo.source D) (fun k o => w (Coding.turbo.out (cellCount D) k o)) 3
      (cellCount D) r _ = _ :=
    stores_cell (Coding.turbo.source_distinct D) (Coding.turbo.turn_lt (placeOf_lt .turbo hn o)) ho
  rw [source_turn .turbo hn ho] at hcell
  rw [subBlockDeinterleavingTurbo_eq, Coding.bufferCell, ← hcell]
  split
  · rename_i hfirst
    obtain ⟨-, rfl, rfl⟩ := hfirst
    exact Function.update_self _ _ _
  · rename_i hother
    have hne : (3 * n + o : Int) ≠ 2 := fun h => hother ⟨rfl, by omega, by omega⟩
    simp only
    rw [Function.update_of_ne hne]

theorem subBlockInterleavingCc_cell {n o : Nat} (hn : n < D) (ho : o < 3) :
    (subBlockInterleavingCc D d w).2 (Coding.cc.bufferCell D n o) = d (3 * n + o) := by
  rw [subBlockInterleavingCc_eq, Coding.bufferCell]
  simp only
  rw [stores_cell (Coding.cc.out_distinct D) (Coding.cc.turn_lt (placeOf_lt .cc hn o)) ho,
    source_turn .cc hn ho, if_neg (by simp)]

theorem subBlockDeinterleavingCc_cell {n o : Nat} (hn : n < D) (ho : o < 3) :
    subBlockDeinterleavingCc D r w (3 * n + o) = w (Coding.cc.bufferCell D n o) := by
  have hcell : stores (Coding.cc.source D) (fun k o => w (Coding.cc.out (cellCount D) k o)) 3
      (cellCount D) r _ = _ :=
    stores_cell (Coding.cc.source_distinct D) (Coding.cc.turn_lt (placeOf_lt .cc hn o)) ho
  rw [source_turn .cc hn ho, if_neg (by simp)] at hcell
  rw [subBlockDeinterleavingCc_eq, Coding.bufferCell, ← hcell]

variable (D)

theorem subBlocks_turbo : SubBlocks .turbo D (subBlockInterleavingTurbo D d w).2.1 d w
    (subBlockInterleavingTurbo D d w).2.2
    (subBlockDeinterleavingTurbo D r (subBlockInterleavingTurbo D d w).2.2) := by
  refine ⟨?_, order_bijOn D .turbo, ?_, ?_⟩
  · intro k hk o ho
    rw [subBlockInterleavingTurbo_eq]
    exact stores_cell (Coding.turbo.out_distinct D) hk ho
  · intro j hj
    rw [subBlockInterleavingTurbo_eq]
    exact stores_out_frame D w .turbo _ hj
  · intro n hn o ho
    rw [subBlockDeinterleavingTurbo_cell r _ hn ho, subBlockInterleavingTurbo_cell d w hn ho]

theorem subBlocks_cc : SubBlocks .cc D d d w (subBlockInterleavingCc D d w).2
    (subBlockDeinterleavingCc D r (subBlockInterleavingCc D d w).2) := by
  refine ⟨?_, order_bijOn D .cc, ?_, ?_⟩
  · intro k hk o ho
    rw [subBlockInterleavingCc_eq]
    exact stores_cell (Coding.cc.out_distinct D) hk ho
  · intro j hj
    rw [subBlockInterleavingCc_eq]
    exact stores_out_frame D w .cc _ hj
  · intro n hn o ho
    rw [subBlockDeinterleavingCc_cell r _ hn ho, subBlockInterleavingCc_cell d w hn ho]

/-- Both interleavers read the matrix by columns in their order, and both are undone in the receiver,
whatever its memory held. -/
theorem subBlock_roundTrip :
    SubBlocks .turbo D (subBlockInterleavingTurbo D d w).2.1 d w
        (subBlockInterleavingTurbo D d w).2.2
        (subBlockDeinterleavingTurbo D r (subBlockInterleavingTurbo D d w).2.2) ∧
      SubBlocks .cc D d d w (subBlockInterleavingCc D d w).2
        (subBlockDeinterleavingCc D r (subBlockInterleavingCc D d w).2) :=
  ⟨subBlocks_turbo D d r w, subBlocks_cc D d r w⟩

end RoundTrip

/-! ## Marks -/

theorem markNull_apply (w : Nat → BitVec 8) (cells : List Nat) (j : Nat) :
    markNull w cells j = if j ∈ cells then LTE_NULL else w j := by
  induction cells generalizing w with
  | nil => rfl
  | cons i cells ih =>
    have hstep : markNull w (i :: cells) = markNull (Function.update w i LTE_NULL) cells := rfl
    rw [hstep, ih]
    by_cases hmem : j ∈ cells
    · rw [if_pos hmem, if_pos (List.mem_cons_of_mem i hmem)]
    · rw [if_neg hmem]
      by_cases heq : j = i
      · rw [heq, Function.update_self, if_pos List.mem_cons_self]
      · rw [Function.update_of_ne heq, if_neg fun h => (List.mem_cons.mp h).elim heq hmem]

theorem markColumns_apply (columns : List Nat) (rows : Nat) (cells : Nat → Nat → List Nat)
    (w : Nat → BitVec 8) (j : Nat) :
    (columns.foldl (fun st index => (st.1 + rows, markNull st.2 (cells index st.1))) (0, w)).2 j =
      if ∃ c < columns.length, j ∈ cells (column columns c) (c * rows) then LTE_NULL else w j := by
  have hcolumns : columns = (List.range columns.length).map (column columns) := by
    apply List.ext_getElem
    · simp
    · intro i h1 h2
      simp [column, h1]
  have hloop : ∀ n, (List.range n).foldl (fun st c =>
      (st.1 + rows, markNull st.2 (cells (column columns c) st.1))) (0, w) = (n * rows, fun j =>
        if ∃ c < n, j ∈ cells (column columns c) (c * rows) then LTE_NULL else w j) := by
    intro n
    induction n with
    | zero => simp
    | succ n ih =>
      rw [List.range_succ, List.foldl_append, ih, List.foldl_cons, List.foldl_nil, Nat.succ_mul]
      congr 1
      funext j
      rw [markNull_apply]
      by_cases hnew : j ∈ cells (column columns n) (n * rows)
      · rw [if_pos hnew, if_pos ⟨n, n.lt_succ_self, hnew⟩]
      · have hiff : (∃ c < n + 1, j ∈ cells (column columns c) (c * rows)) ↔
            ∃ c < n, j ∈ cells (column columns c) (c * rows) := by
          constructor
          · rintro ⟨c, hc, hmem⟩
            rcases Nat.lt_succ_iff_lt_or_eq.mp hc with hlt | rfl
            · exact ⟨c, hlt, hmem⟩
            · exact absurd hmem hnew
          · rintro ⟨c, hc, hmem⟩
            exact ⟨c, by omega, hmem⟩
        rw [if_neg hnew, if_congr hiff rfl rfl]
  conv_lhs => rw [hcolumns]
  rw [List.foldl_map, hloop]

/-- The cells of `w` that hold no coded bit: those of the places before the block and, in the first
two streams of the turbo code, of the `F` fillers. -/
def NullTurn (v : Coding) (D F k o : Nat) : Prop :=
  match v with
  | .turbo => if o < 2 then v.order D k < dummyCount D + F else v.order D k + 1 < dummyCount D
  | .cc => v.order D k < dummyCount D

instance (v : Coding) (D F k o : Nat) : Decidable (NullTurn v D F k o) := by
  unfold NullTurn
  split <;> infer_instance

theorem order_eq (v : Coding) (D : Nat) {c i : Nat} (hi : i < rowCount D) :
    v.order D (c * rowCount D + i) = column v.columns c + 32 * i := place_row _ c hi

theorem exists_column_row {D k : Nat} (hk : k < cellCount D) :
    ∃ c < 32, ∃ i < rowCount D, k = c * rowCount D + i := by
  have hpos : 0 < rowCount D := Nat.pos_of_ne_zero fun h => by simp [cellCount, h] at hk
  refine ⟨k / rowCount D, Nat.div_lt_of_lt_mul hk, k % rowCount D, Nat.mod_lt k hpos, ?_⟩
  rw [Nat.mul_comm]
  exact (Nat.div_add_mod k (rowCount D)).symm

theorem mem_dummyCells {Kpi ND F index k j : Nat} : j ∈ dummyCells Kpi ND F index k ↔
    (∃ i < 3, index + 32 * i < ND + F ∧ (j = k + i ∨ j = Kpi + 2 * (k + i))) ∨
      index + 1 < ND ∧ j = Kpi + 1 + 2 * k := by
  have hite : ∀ (p : Prop) [Decidable p] (l : List Nat), j ∈ (if p then l else []) ↔ p ∧ j ∈ l := by
    intro p _ l
    by_cases h : p
    · simp [h]
    · simp [h]
  simp only [dummyCells, List.mem_append, hite, List.mem_cons, List.not_mem_nil, or_false]
  constructor
  · rintro (((⟨h, hj⟩ | ⟨h, hj⟩) | ⟨h, hj⟩) | ⟨h, hj⟩)
    · exact Or.inl ⟨0, by omega, by omega, by omega⟩
    · exact Or.inl ⟨1, by omega, by omega, by omega⟩
    · exact Or.inl ⟨2, by omega, by omega, by omega⟩
    · exact Or.inr ⟨h, hj⟩
  · rintro (⟨i, hi, h, hj⟩ | ⟨h, hj⟩)
    · rcases (by omega : i = 0 ∨ i = 1 ∨ i = 2) with rfl | rfl | rfl <;> omega
    · exact Or.inr ⟨h, hj⟩

theorem column_room {D c : Nat} (hc : c < 32) : c * rowCount D + rowCount D ≤ cellCount D := by
  have hmul : (c + 1) * rowCount D ≤ 32 * rowCount D := Nat.mul_le_mul_right _ hc
  rw [Nat.add_mul, Nat.one_mul] at hmul
  unfold cellCount
  omega

/-- `generate_dummy_w` marks the cells without a coded bit, when the fillers are in the first three
rows. -/
theorem generateDummyW_eq {D F : Nat} (hrows : dummyCount D + F ≤ 96)
    (hcells : dummyCount D + F ≤ cellCount D) (w : Nat → BitVec 8) {k o : Nat}
    (hk : k < cellCount D) (ho : o < 3) :
    (generateDummyW D w F).2 (Coding.turbo.out (cellCount D) k o) =
      if NullTurn .turbo D F k o then LTE_NULL else w (Coding.turbo.out (cellCount D) k o) := by
  have hKpi : cellCount D = rowCount D * 32 := rfl
  have hND := dummyCount_lt D
  rw [generateDummyW, markColumns_apply]
  apply if_congr _ rfl rfl
  constructor
  · rintro ⟨c, hc, hmem⟩
    have hc32 : c < 32 := hc
    have hroom := column_room (D := D) hc32
    rcases mem_dummyCells.mp hmem with ⟨i, hi, hnull, hj⟩ | ⟨hnull, hj⟩
    · have hirow : i < rowCount D := by omega
      have horder := order_eq .turbo D (c := c) hirow
      rcases (by omega : o = 0 ∨ o = 1 ∨ o = 2) with rfl | rfl | rfl <;> simp only [Coding.out] at hj
      · obtain rfl : k = c * rowCount D + i := by omega
        simp only [NullTurn, horder]
        exact hnull
      · obtain rfl : k = c * rowCount D + i := by omega
        simp only [NullTurn, horder]
        exact hnull
      · omega
    · have hirow : 0 < rowCount D := by omega
      have horder := order_eq .turbo D (c := c) hirow
      rcases (by omega : o = 0 ∨ o = 1 ∨ o = 2) with rfl | rfl | rfl <;> simp only [Coding.out] at hj
      · omega
      · omega
      · obtain rfl : k = c * rowCount D + 0 := by omega
        simp only [NullTurn, horder]
        exact hnull
  · intro hnull
    obtain ⟨c, hc, i, hi, rfl⟩ := exists_column_row hk
    have horder := order_eq .turbo D (c := c) hi
    have hcase : (o = 0 ∨ o = 1) ∧ column bitrev c + 32 * i < dummyCount D + F ∨
        o = 2 ∧ column bitrev c + 32 * i + 1 < dummyCount D := by
      simp only [NullTurn, horder] at hnull
      split at hnull
      · exact Or.inl ⟨by omega, hnull⟩
      · exact Or.inr ⟨by omega, hnull⟩
    refine ⟨c, hc, mem_dummyCells.mpr ?_⟩
    rcases hcase with ⟨rfl | rfl, hlt⟩ | ⟨rfl, hlt⟩
    · exact Or.inl ⟨i, by omega, hlt, Or.inl rfl⟩
    · exact Or.inl ⟨i, by omega, hlt, Or.inr rfl⟩
    · obtain rfl : i = 0 := by omega
      exact Or.inr ⟨hlt, rfl⟩

theorem generateDummyWCc_eq (D : Nat) (w : Nat → BitVec 8) {k o : Nat} (hk : k < cellCount D)
    (ho : o < 3) : (generateDummyWCc D w).2 (Coding.cc.out (cellCount D) k o) =
      if NullTurn .cc D 0 k o then LTE_NULL else w (Coding.cc.out (cellCount D) k o) := by
  have hKpi : cellCount D = rowCount D * 32 := rfl
  have hND := dummyCount_lt D
  rw [generateDummyWCc, markColumns_apply bitrev_cc (rowCount D) fun index k =>
    if index < dummyCount D then [k, cellCount D + k, 2 * cellCount D + k] else []]
  apply if_congr _ rfl rfl
  constructor
  · rintro ⟨c, hc, hmem⟩
    have hc32 : c < 32 := hc
    have hroom := column_room (D := D) hc32
    have hirow : 0 < rowCount D := by omega
    have horder := order_eq .cc D (c := c) hirow
    split at hmem
    · rename_i hnull
      have hk0 : k = c * rowCount D + 0 := by
        simp only [List.mem_cons, List.not_mem_nil, or_false] at hmem
        rcases (by omega : o = 0 ∨ o = 1 ∨ o = 2) with rfl | rfl | rfl <;>
          simp only [Coding.out] at hmem <;> omega
      subst hk0
      simp only [NullTurn, horder]
      exact hnull
    · exact absurd hmem List.not_mem_nil
  · intro hnull
    obtain ⟨c, hc, i, hi, rfl⟩ := exists_column_row hk
    have horder := order_eq .cc D (c := c) hi
    simp only [NullTurn, horder] at hnull
    obtain rfl : i = 0 := by omega
    refine ⟨c, hc, ?_⟩
    rw [if_pos (show column bitrev_cc c < dummyCount D from hnull)]
    simp only [List.mem_cons, List.not_mem_nil, or_false]
    rcases (by omega : o = 0 ∨ o = 1 ∨ o = 2) with rfl | rfl | rfl <;> simp [Coding.out]

/-! ## The marks and the transmitted block -/

/-- The memory of a coded block, with `LTE_NULL` in the 96 cells before it (no cell before those is
read). -/
def codedBlock (output : Nat → BitVec 8) (i : Int) : BitVec 8 :=
  if i < 0 then LTE_NULL else output i.toNat

theorem codedBlock_cell (output : Nat → BitVec 8) (n o : Nat) :
    codedBlock output (3 * n + o) = output (3 * n + o) := by
  have hcast : ((3 * n + o : Nat) : Int) = 3 * n + o := by omega
  rw [codedBlock, if_neg (by omega), ← hcast, Int.toNat_natCast]

theorem codedBlock_neg (output : Nat → BitVec 8) {i : Int} (h : i < 0) :
    codedBlock output i = LTE_NULL := if_pos h

theorem cell_ne_null (v : ZMod 2) : cell v ≠ LTE_NULL := by
  revert v
  decide

/-- Of the cells that the encoder writes the fillers and their first parity are `LTE_NULL`. -/
theorem TurboEncoded.cell_cases {input output : Nat → BitVec 8} {K F f1 f2 : Nat}
    {r : (Nat → BitVec 8) × BitVec 8 × BitVec 8} (h : TurboEncoded input K F f1 f2 output r)
    (hF : F ≤ K) {n o : Nat} (hn : n < K + 4) (ho : o < 3) :
    o < 2 ∧ n < F ∧ r.1 (3 * n + o) = LTE_NULL ∨
      ¬ (o < 2 ∧ n < F) ∧ ∃ v, r.1 (3 * n + o) = cell v := by
  rcases Nat.lt_or_ge n K with hlt | hge
  · rw [h.coded n hlt o ho, codedCell]
    rcases (by omega : o = 0 ∨ o = 1 ∨ o = 2) with rfl | rfl | rfl <;> by_cases hnF : n < F <;>
      simp [hnF]
  · have htail : ∀ i < 12, ∃ v, r.1 (3 * K + i) = cell v := by
      intro i hi
      have h1 := h.first_tail (i / 2)
      have h2 := h.second_tail ((i - 6) / 2)
      rcases (by omega : i < 6 ∧ (i = 2 * (i / 2) ∨ i = 2 * (i / 2) + 1) ∨
          6 ≤ i ∧ (i = 6 + 2 * ((i - 6) / 2) ∨ i = 6 + 2 * ((i - 6) / 2) + 1)) with
        ⟨hlow, heven | hodd⟩ | ⟨hhigh, heven | hodd⟩
      · rw [heven]
        exact ⟨_, (h1 (by omega)).1⟩
      · rw [hodd]
        exact ⟨_, (h1 (by omega)).2⟩
      · rw [heven, ← Nat.add_assoc]
        exact ⟨_, (h2 (by omega)).1⟩
      · rw [hodd, ← Nat.add_assoc, ← Nat.add_assoc]
        exact ⟨_, (h2 (by omega)).2⟩
    obtain ⟨v, hv⟩ := htail (3 * n + o - 3 * K) (by omega)
    have hindex : 3 * K + (3 * n + o - 3 * K) = 3 * n + o := by omega
    rw [hindex] at hv
    exact Or.inr ⟨by omega, v, hv⟩

/-- A cell of the block that is `LTE_NULL` only when it is a filler. -/
def NullsAt (d : Nat → BitVec 8) (D F : Nat) : Prop :=
  ∀ n < D, ∀ o < 3, d (3 * n + o) = LTE_NULL ↔ o < 2 ∧ n < F

theorem TurboEncoded.nullsAt {input output : Nat → BitVec 8} {K F f1 f2 : Nat}
    {r : (Nat → BitVec 8) × BitVec 8 × BitVec 8} (h : TurboEncoded input K F f1 f2 output r)
    (hF : F ≤ K) : NullsAt r.1 (K + 4) F := by
  intro n hn o ho
  rcases h.cell_cases hF hn ho with ⟨ho2, hnF, hnull⟩ | ⟨hnot, v, hv⟩
  · exact ⟨fun _ => ⟨ho2, hnF⟩, fun _ => hnull⟩
  · exact ⟨fun hnull => absurd (hv.symm.trans hnull) (cell_ne_null v), fun h => absurd h hnot⟩

theorem null_turbo {d : Nat → BitVec 8} {D F : Nat} (hd : NullsAt d D F) (hD : 0 < D) {k o : Nat}
    (hk : k < cellCount D) (ho : o < 3) :
    repeated D (codedBlock d) (Coding.turbo.source D k o) = LTE_NULL ↔ NullTurn .turbo D F k o := by
  have hadd := dummyCount_add D
  have horder := Coding.turbo.order_lt hk
  generalize hm : Coding.turbo.order D k = m at horder
  have hbefore : ∀ i : Int, i < 0 → repeated D (codedBlock d) i = LTE_NULL := by
    intro i hi
    rw [repeated, Function.update_of_ne (by omega), codedBlock_neg d hi]
  have hcell : ∀ n < D, ∀ o : Nat, o < 3 →
      (repeated D (codedBlock d) (3 * n + o) = LTE_NULL ↔ o < 2 ∧ n < F) := by
    intro n hn o ho
    rw [repeated, Function.update_of_ne (by omega), codedBlock_cell, hd n hn o ho]
  simp only [NullTurn, hm]
  by_cases ho2 : o < 2
  · have hshift : Coding.turbo.shift o = o := by
      rcases (by omega : o = 0 ∨ o = 1) with rfl | rfl <;> rfl
    rw [if_pos ho2, Coding.source, hm, hshift]
    rcases Nat.lt_or_ge m (dummyCount D) with hlt | hge
    · exact ⟨fun _ => by omega, fun _ => hbefore _ (by omega)⟩
    · have hplace : (3 * (m : Int) - 3 * dummyCount D + o) = 3 * (m - dummyCount D : Nat) + o := by
        omega
      rw [hplace, hcell _ (by omega) o ho]
      omega
  · obtain rfl : o = 2 := by omega
    have hshift : Coding.turbo.shift 2 = 5 := rfl
    rw [if_neg ho2, Coding.source, hm, hshift]
    rcases (by omega : m + 1 < dummyCount D ∨ m + 1 = dummyCount D + D ∨
        dummyCount D ≤ m + 1 ∧ m + 1 < dummyCount D + D) with hlt | hlast | hin
    · exact ⟨fun _ => hlt, fun _ => hbefore _ (by omega)⟩
    · have hplace : (3 * (m : Int) - 3 * dummyCount D + 5) = 3 * D + 2 := by omega
      have hfirst : codedBlock d 2 = LTE_NULL ↔ 2 < 2 ∧ 0 < F := hd 0 hD 2 ho
      rw [hplace, repeated, Function.update_self, hfirst]
      omega
    · have hplace : (3 * (m : Int) - 3 * dummyCount D + 5) =
          3 * (m + 1 - dummyCount D : Nat) + (2 : Nat) := by omega
      rw [hplace, hcell _ (by omega) 2 ho]
      omega

theorem null_cc {d : Nat → BitVec 8} {D : Nat} (hd : NullsAt d D 0) {k o : Nat}
    (hk : k < cellCount D) (ho : o < 3) :
    codedBlock d (Coding.cc.source D k o) = LTE_NULL ↔ NullTurn .cc D 0 k o := by
  have hadd := dummyCount_add D
  have horder := Coding.cc.order_lt hk
  generalize hm : Coding.cc.order D k = m at horder
  have hshift : Coding.cc.shift o = o := by
    rcases (by omega : o = 0 ∨ o = 1 ∨ o = 2) with rfl | rfl | rfl <;> rfl
  simp only [NullTurn, hm]
  rw [Coding.source, hm, hshift]
  rcases Nat.lt_or_ge m (dummyCount D) with hlt | hge
  · exact ⟨fun _ => hlt, fun _ => codedBlock_neg d (by omega)⟩
  · have hplace : (3 * (m : Int) - 3 * dummyCount D + o) = 3 * (m - dummyCount D : Nat) + o := by
      omega
    rw [hplace, codedBlock_cell, hd _ (by omega) o ho]
    omega

/-- The cells that a receiver passes over are those that hold no coded bit in the transmitter. -/
def MarksAgree (D : Nat) (marks w : Nat → BitVec 8) : Prop :=
  ∀ j < 3 * cellCount D, marks j = LTE_NULL ↔ w j = LTE_NULL

theorem marksAgree_turbo {d : Nat → BitVec 8} {D F : Nat} (hd : NullsAt d D F) (hD : 0 < D)
    (hFD : F ≤ D) (hrows : dummyCount D + F ≤ 96) (w : Nat → BitVec 8) :
    MarksAgree D (generateDummyW D (fun _ => 0) F).2
      (subBlockInterleavingTurbo D (codedBlock d) w).2.2 := by
  intro j hj
  obtain ⟨k, hk, o, ho, rfl⟩ := Coding.turbo.exists_out hj
  have hadd := dummyCount_add D
  rw [generateDummyW_eq hrows (by omega) _ hk ho, subBlockInterleavingTurbo_eq]
  simp only
  rw [stores_cell (Coding.turbo.out_distinct D) hk ho, null_turbo hd hD hk ho]
  split
  · rename_i hnull
    exact ⟨fun _ => hnull, fun _ => rfl⟩
  · rename_i hnot
    exact ⟨fun h => absurd h (by decide), fun h => absurd h hnot⟩

theorem marksAgree_cc {d : Nat → BitVec 8} {D : Nat} (hd : NullsAt d D 0) {clear : Nat → BitVec 8}
    (hclear : ∀ j < 3 * cellCount D, clear j ≠ LTE_NULL) (w : Nat → BitVec 8) :
    MarksAgree D (generateDummyWCc D clear).2 (subBlockInterleavingCc D (codedBlock d) w).2 := by
  intro j hj
  obtain ⟨k, hk, o, ho, rfl⟩ := Coding.cc.exists_out hj
  rw [generateDummyWCc_eq _ _ hk ho, subBlockInterleavingCc_eq]
  simp only
  rw [stores_cell (Coding.cc.out_distinct D) hk ho, null_cc hd hk ho]
  split
  · rename_i hnull
    exact ⟨fun _ => hnull, fun _ => rfl⟩
  · rename_i hnot
    exact ⟨fun h => absurd h (hclear _ hj), fun h => absurd h hnot⟩

end PdmaXen.Lte
